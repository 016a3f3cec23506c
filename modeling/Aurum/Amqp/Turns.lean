import Aurum.Amqp.Stream

/-!
# AMQP — phases and content

What a frame does to the phase of the connection, to the phases of the
channels and to the content under assembly. `Quiet` says that nothing of
this changed, `Loose` that at most channels, or the connection, were
closed with an error. `Turn` lists what a frame can do up to its first
call of the broker; what comes after is loose (`loose_drive`).
-/

namespace Aurum.Amqp

open Aurum.Protocol Aurum.Broker Aurum.Service Option

/-! ## Changes -/

/-- The end of the connection, as a reply. -/
def Written.closes : Written → Bool
  | .method _ (.connection (.close _)) | .method _ (.connection .closeOk) => true
  | _ => false

namespace AmqpSession

/-- The replies that end the connection. -/
def closes (s : AmqpSession) : List Written := s.out.filter Written.closes

/-- The content a channel assembles. -/
def pendingOf (s : AmqpSession) (channel : Nat) : Option (Option PendingPublishContent) :=
  (s.channels channel).map (·.pendingPublish)

def phaseOf (s : AmqpSession) (channel : Nat) : Option ChannelPhase :=
  (s.channels channel).map (·.phase)

end AmqpSession

/-- No phase and no content changed. -/
structure Quiet (s s' : AmqpSession) : Prop where
  headerSeen : s'.protocolHeaderSeen = s.protocolHeaderSeen
  connection : s'.connection = s.connection
  closes : s'.closes = s.closes
  pending : s'.pendingOf = s.pendingOf
  phases : s'.phaseOf = s.phaseOf

/-- No content changed; the connection and channels were at most closed
with an error. -/
structure Loose (s s' : AmqpSession) : Prop where
  headerSeen : s'.protocolHeaderSeen = s.protocolHeaderSeen
  connection : (s'.connection = s.connection ∧ s'.closes = s.closes) ∨
    s'.connection.phase = .closing
  pending : s'.pendingOf = s.pendingOf
  phases : ∀ ch, s'.phaseOf ch = s.phaseOf ch ∨ s'.phaseOf ch = some .closing

variable {s s' s'' : AmqpSession}

theorem Quiet.refl (s : AmqpSession) : Quiet s s := ⟨rfl, rfl, rfl, rfl, rfl⟩

theorem Quiet.trans (h : Quiet s s') (h' : Quiet s' s'') : Quiet s s'' :=
  ⟨h'.headerSeen.trans h.headerSeen, h'.connection.trans h.connection, h'.closes.trans h.closes,
    h'.pending.trans h.pending, h'.phases.trans h.phases⟩

theorem Quiet.loose (h : Quiet s s') : Loose s s' :=
  ⟨h.headerSeen, .inl ⟨h.connection, h.closes⟩, h.pending, fun ch => .inl (congrFun h.phases ch)⟩

theorem Loose.trans (h : Loose s s') (h' : Loose s' s'') : Loose s s'' where
  headerSeen := h'.headerSeen.trans h.headerSeen
  connection := by
    rcases h'.connection with ⟨hc', hs'⟩ | hend
    · rw [hc', hs']
      exact h.connection
    · exact .inr hend
  pending := h'.pending.trans h.pending
  phases := fun ch => by
    rcases h'.phases ch with hch | hch
    · rw [hch]
      exact h.phases ch
    · exact .inr hch

namespace AmqpSession

variable (s)

theorem quiet_mapChannel (channel : Nat)
    {f : AmqpChannelState → AmqpChannelState} (hphase : ∀ c, (f c).phase = c.phase)
    (hpending : ∀ c, (f c).pendingPublish = c.pendingPublish) :
    Quiet s (s.mapChannel channel f) :=
  ⟨rfl, rfl, rfl, funext (map_mapChannel_eq s channel hpending),
    funext (map_mapChannel_eq s channel hphase)⟩

theorem quiet_sendMethod (channel : Nat) {m : AmqpMethod}
    (hm : (Written.method channel m).closes = false) : Quiet s (s.sendMethod channel m) := by
  refine ⟨rfl, rfl, ?_, rfl, rfl⟩
  simp [closes, sendMethod, hm]

theorem loose_sendChannelClose (channel code : Nat) (text : ShortStr) :
    Loose s (s.sendChannelClose channel code text) where
  headerSeen := rfl
  connection := .inl ⟨rfl, (quiet_sendMethod s channel rfl).closes⟩
  pending := funext (map_mapChannel_eq _ channel fun _ => rfl)
  phases := fun ch => by
    have hmap := map_mapChannel (s.sendMethod channel (.channel (.close ⟨code, text, 0, 0⟩)))
      channel (fun ch => { ch with phase := .closing }) (·.phase) ch
    rw [phaseOf, sendChannelClose, hmap]
    split
    · next heq =>
      subst heq
      cases hch : (s.sendMethod ch (.channel (.close ⟨code, text, 0, 0⟩))).channels ch with
      | none =>
        refine .inl ?_
        rw [map_none, phaseOf, show s.channels ch = none from hch, map_none]
      | some c => exact .inr rfl
    · exact .inl rfl

theorem loose_channelClose (channel code : Nat) :
    Loose s (s.channelClose channel code) := loose_sendChannelClose s channel code _

theorem loose_connectionClose (code : Nat) : Loose s (s.connectionClose code) :=
  ⟨rfl, .inr rfl, rfl, fun _ => .inl rfl⟩

variable {s}

/-! ## Answers -/

theorem loose_errors (channel : Nat) (errs : List CommandError) (s : AmqpSession) :
    Loose s (errs.foldl (onError channel) s) := by
  induction errs generalizing s with
  | nil => exact (Quiet.refl s).loose
  | cons err errs ih =>
    refine Loose.trans ?_ (ih _)
    rw [onError]
    split
    · exact loose_connectionClose s _
    · exact loose_channelClose s _ _

section

variable (s : AmqpSession)

theorem quiet_sendOne (d : Delivery) : Quiet s (s.sendOne d) where
  headerSeen := rfl
  connection := rfl
  closes := by simp [closes, sendOne, mapChannel, Written.closes]
  pending := funext (map_mapChannel_eq s d.channel fun _ => rfl)
  phases := funext (map_mapChannel_eq s d.channel fun _ => rfl)

theorem quiet_sendAll (ds : List Delivery) : Quiet s (s.sendAll ds).1 := by
  induction ds generalizing s with
  | nil => exact .refl s
  | cons d ds ih =>
    rw [sendAll]
    split
    · exact (quiet_sendOne s d).trans (ih _)
    · exact quiet_sendOne s d

theorem loose_emitBrokerOutput (channel : Nat) (output : ShardOutputBatch) :
    Loose s (s.emitBrokerOutput channel output).1 :=
  (loose_errors channel output.errors s).trans (quiet_sendAll _ _).loose

/-- An output without errors closes nothing. -/
theorem quiet_emitBrokerOutput (channel : Nat) {output : ShardOutputBatch}
    (h : output.errors = []) : Quiet s (s.emitBrokerOutput channel output).1 := by
  rw [emitBrokerOutput, h]
  exact quiet_sendAll _ _

theorem quiet_publishTo (p : Publishing) (target : RoutePublishTarget) :
    Quiet s (s.publishTo p target).1 := ⟨rfl, rfl, rfl, rfl, rfl⟩

theorem quiet_onRouteVersion (p : Publishing) (version : Nat) :
    Quiet s (s.onRouteVersion p version).1 := by
  rcases onRouteVersion_cases s p version with h | ⟨target, h⟩
  · rw [h]
    exact .refl s
  · rw [h]
    exact quiet_publishTo s p target

theorem quiet_cancelled (channel : Nat) (tag : ShortStr)
    (output : ShardOutputBatch) : Quiet s (s.onOutput (.cancelled channel tag) output).1 := by
  refine Quiet.trans ?_ (quiet_sendMethod _ _ rfl)
  exact quiet_mapChannel s channel (fun _ => rfl) fun _ => rfl

/-- What follows an output: the reply to a `basic.consume` is quiet. -/
theorem onOutput_session {reply : CommandReply} {channel : Nat}
    (hreply : reply.channel = some channel) (output : ShardOutputBatch) :
    Quiet (s.emitBrokerOutput channel output).1 (s.onOutput reply output).1 := by
  cases reply with
  | cancelled _ _ => cases hreply
  | emitted _ =>
    obtain rfl := some.inj hreply
    exact .refl _
  | consumed _ tag =>
    obtain rfl := some.inj hreply
    rw [onOutput]
    split
    · next s' heq =>
      rw [heq]
      exact quiet_sendMethod s' _ rfl
    · exact .refl _

theorem loose_onOutput (reply : CommandReply) (output : ShardOutputBatch) :
    Loose s (s.onOutput reply output).1 := by
  cases hreply : reply.channel with
  | none =>
    cases reply with
    | cancelled channel tag => exact (quiet_cancelled s channel tag output).loose
    | _ => cases hreply
  | some channel =>
    exact (loose_emitBrokerOutput s channel output).trans (onOutput_session s hreply output).loose

theorem loose_onControl (reply : ControlReply) (result : AmqpControlResult) :
    Loose s (s.onControl reply result).1 := by
  cases reply with
  | consuming channel tag id => exact (Quiet.refl s).loose
  | _ =>
    rw [onControl]
    split
    · exact (quiet_sendMethod s _ rfl).loose
    · exact loose_channelClose s _ _

theorem loose_onResolved (p : Publishing) (entry : Option RoutePublishTarget) :
    Loose s (s.onResolved p entry).1 := by
  cases entry with
  | some target =>
    refine Quiet.loose (Quiet.trans ?_ (quiet_publishTo _ p target))
    exact quiet_mapChannel s p.channel (fun _ => rfl) fun _ => rfl
  | none =>
    rw [onResolved]
    split
    · exact loose_channelClose s _ _
    · exact (Quiet.refl s).loose

end

end AmqpSession

/-! ## Frames -/

/-- A connection method, received on channel 0. -/
def Frame.signal : Frame → Option ConnectionMethod
  | .method 0 (some (.connection m)) => some m
  | _ => none

def Frame.channel : Frame → Option Nat
  | .method channel _ | .header channel _ | .body channel _ => some channel
  | .protocolHeader | .heartbeat => none

/-- The channel of a frame that carries content. -/
def Frame.carries : Frame → Option Nat
  | .header channel (some _) | .body channel _ => some channel
  | _ => none

/-- A call that is on the way to a publish. -/
def Ask.publishes : Ask → Bool
  | .routeVersion _ | .resolveRoute _ | .command (.ingress _) _ => true
  | .control _ _ | .command (.shard _) _ => false

def PendingPublishContent.addHeader (p : PendingPublishContent) (h : ContentHeader) :
    PendingPublishContent :=
  { p with properties := h.properties, expectedBodySize := h.bodySize }

/-- A body frame is added to content. -/
def PendingPublishContent.addBody (p : PendingPublishContent) (payload : List UInt8) :
    PendingPublishContent :=
  { p with body := p.body ++ payload }

namespace AmqpSession

/-- The content of a channel is replaced. -/
def setPending (s : AmqpSession) (channel : Nat) (content : PendingPublishContent) : AmqpSession :=
  s.mapChannel channel fun ch => { ch with pendingPublish := some content }

/-- **The frames of an open channel that close it**: what is not
implemented, unexpected content and methods the server sends. -/
def refuses (s : AmqpSession) : Frame → Bool
  | .method _ (some (.queue (.declare m))) => m.passive
  | .method _ (some (.basic (.consume m))) => m.noAck
  | .method channel (some (.basic (.publish m))) => m.immediate || (s.contentOf channel).isSome
  | .method _ (some (.channel (.open _))) | .method _ (some (.channel (.close _)))
  | .method _ (some (.channel .closeOk)) => false
  | .method _ (some m) => !needsOpen m
  | .header channel h =>
    match s.contentOf channel, h with
    | none, _ => true
    | some _, none => false
    | some _, some header => header.classId ≠ classBasic
  | .body channel payload =>
    match s.contentOf channel with
    | none => true
    | some pending => pending.expectedBodySize < (pending.addBody payload).body.length
  | _ => false

end AmqpSession

open AmqpSession in
/-- **What a frame does** before its first call of the broker. -/
inductive Turn (order : HashOrder) (s : AmqpSession) : Frame → AmqpSession × Outcome → Prop
  | early (f : Frame) (hseen : s.protocolHeaderSeen = false) (hf : f ≠ .protocolHeader) :
      Turn order s f (s, .failed .protocol)
  | start (hseen : s.protocolHeaderSeen = false) :
      Turn order s .protocolHeader (({ s with protocolHeaderSeen := true }).sendConnectionStart,
        .done)
  | connection (m : ConnectionMethod) (hseen : s.protocolHeaderSeen = true) :
      Turn order s (.method 0 (some (.connection m))) (s.onConnectionMethod (.connection m))
  | quiet (f : Frame) (r : AmqpSession × Outcome) (hseen : s.protocolHeaderSeen = true)
      (hsignal : f.signal = none) (hquiet : Quiet s r.1)
      (hidle : ∀ channel, f.carries = some channel → s.contentOf channel = none)
      (hask : ∀ call, r.2 = .ask call → s.connection.phase = .open ∧
        call.publishes = false) : Turn order s f r
  | refused (f : Frame) (channel code : Nat) (hseen : s.protocolHeaderSeen = true)
      (hsignal : f.signal = none) (hchannel : f.channel = some channel)
      (hrefuses : s.refuses f = true) : Turn order s f (s.channelClose channel code, .done)
  | unopened (channel : Nat) (m : AmqpMethod) (hseen : s.protocolHeaderSeen = true)
      (hchannel : channel ≠ 0) (hphase : s.connection.phase ≠ .open) :
      Turn order s (.method channel (some m)) (s.connectionClose replyCommandInvalid, .done)
  | opened (channel : Nat) (text : ShortStr) (hseen : s.protocolHeaderSeen = true)
      (hchannel : channel ≠ 0) (hphase : s.connection.phase = .open) :
      Turn order s (.method channel (some (.channel (.open text))))
        (({ s with
          channels := Function.update s.channels channel (some (.opened s.opened))
          opened := s.opened + 1 }).sendMethod channel (.channel .openOk), .done)
  | closed (channel : Nat) (reason : CloseReason) (hseen : s.protocolHeaderSeen = true)
      (hchannel : channel ≠ 0) (hphase : s.connection.phase = .open) :
      Turn order s (.method channel (some (.channel (.close reason))))
        ((s.sendChannelClose channel reason.replyCode reason.replyText).mapChannel channel
          fun ch => { ch with phase := .closed }, .done)
  | closeOk (channel : Nat) (hseen : s.protocolHeaderSeen = true)
      (hchannel : channel ≠ 0) (hphase : s.connection.phase = .open) :
      Turn order s (.method channel (some (.channel .closeOk)))
        (s.mapChannel channel fun ch => { ch with phase := .closed }, .done)
  | publish (channel : Nat) (ch : AmqpChannelState) (m : BasicPublish)
      (hseen : s.protocolHeaderSeen = true) (hchannel : channel ≠ 0)
      (hphase : s.connection.phase = .open) (hopen : s.openChannel channel = some ch)
      (himmediate : m.immediate = false) (hnone : ch.pendingPublish = none) :
      Turn order s (.method channel (some (.basic (.publish m))))
        (s.setPending channel ⟨m, .empty, 0, []⟩, .done)
  | header (channel : Nat) (h : ContentHeader) (pending : PendingPublishContent)
      (hseen : s.protocolHeaderSeen = true) (hcontent : s.contentOf channel = some pending)
      (hsize : h.bodySize ≠ 0) :
      Turn order s (.header channel (some h)) (s.setPending channel (pending.addHeader h), .done)
  | headerDone (channel : Nat) (h : ContentHeader) (pending : PendingPublishContent)
      (hseen : s.protocolHeaderSeen = true) (hcontent : s.contentOf channel = some pending)
      (hsize : h.bodySize = 0) :
      Turn order s (.header channel (some h))
        ((s.setPending channel (pending.addHeader h)).completePublish channel (pending.addHeader h))
  | body (channel : Nat) (payload : List UInt8) (pending : PendingPublishContent)
      (hseen : s.protocolHeaderSeen = true) (hcontent : s.contentOf channel = some pending)
      (hsize : (pending.addBody payload).body.length < pending.expectedBodySize) :
      Turn order s (.body channel payload) (s.setPending channel (pending.addBody payload), .done)
  | bodyOver (channel : Nat) (payload : List UInt8) (pending : PendingPublishContent)
      (hseen : s.protocolHeaderSeen = true) (hcontent : s.contentOf channel = some pending)
      (hsize : pending.expectedBodySize < (pending.addBody payload).body.length) :
      Turn order s (.body channel payload)
        ((s.setPending channel (pending.addBody payload)).channelClose channel replyChannelError,
          .done)
  | bodyDone (channel : Nat) (payload : List UInt8) (pending : PendingPublishContent)
      (hseen : s.protocolHeaderSeen = true) (hcontent : s.contentOf channel = some pending)
      (hsize : (pending.addBody payload).body.length = pending.expectedBodySize) :
      Turn order s (.body channel payload)
        ((s.setPending channel (pending.addBody payload)).completePublish channel
          (pending.addBody payload))

variable {order : HashOrder}

theorem Turn.unchanged (f : Frame) (hseen : s.protocolHeaderSeen = true) (hsignal : f.signal = none)
    (hidle : ∀ channel, f.carries = some channel → s.contentOf channel = none)
    (e : SessionError) : Turn order s f (s, .failed e) :=
  .quiet f _ hseen hsignal (.refl s) hidle fun _ h => nomatch h

namespace AmqpSession

theorem contentOf_eq {channel : Nat} {ch : AmqpChannelState}
    (hopen : s.openChannel channel = some ch) : s.contentOf channel = ch.pendingPublish := by
  rw [contentOf, hopen, bind_some]

theorem signal_method {channel : Nat} (hchannel : channel ≠ 0) (m : Option AmqpMethod) :
    (Frame.method channel m).signal = none := by
  unfold Frame.signal
  split
  · next h => exact absurd (Frame.method.inj h).1 hchannel
  · rfl

theorem turn_onSettle {m : BasicMethod} {channel : Nat} (hseen : s.protocolHeaderSeen = true)
    (hchannel : channel ≠ 0) (hphase : s.connection.phase = .open) (ch : AmqpChannelState)
    (tag : Nat) (cmd : Nat → ShardCommandBatch) :
    Turn order s (.method channel (some (.basic m))) (onSettle order s channel ch tag cmd) := by
  rw [onSettle]
  split
  · exact .unchanged _ hseen (signal_method hchannel _) (fun _ h => nomatch h) _
  · refine .quiet _ _ hseen (signal_method hchannel _) (.refl s) (fun _ h => nomatch h)
      fun call h => ?_
    cases h
    exact ⟨hphase, rfl⟩

theorem turn_onOpenChannel {channel : Nat} {ch : AmqpChannelState}
    (hseen : s.protocolHeaderSeen = true) (hchannel : channel ≠ 0)
    (hphase : s.connection.phase = .open) (hopen : s.openChannel channel = some ch)
    (m : AmqpMethod) (hm : needsOpen m = true) :
    Turn order s (.method channel (some m)) (onOpenChannel order s channel ch m) := by
  have hsignal := fun m => signal_method hchannel (some m)
  -- A call of the broker that leaves the session as it is.
  have hask : ∀ m call, call.publishes = false →
      Turn order s (.method channel (some m)) (s, .ask call) := by
    intro m call hcall
    refine .quiet _ _ hseen (hsignal m) (.refl s) (fun _ h => nomatch h) fun call' h => ?_
    cases h
    exact ⟨hphase, hcall⟩
  have hrefuse : ∀ m code, s.refuses (.method channel (some m)) = true →
      Turn order s (.method channel (some m)) (s.channelClose channel code, .done) :=
    fun m code h => .refused _ channel code hseen (hsignal m) rfl h
  unfold onOpenChannel
  split
  case h_1 => exact hask _ _ rfl
  case h_2 m =>
    split
    · next hpassive => exact hrefuse _ _ hpassive
    · exact hask _ _ rfl
  case h_3 => exact hask _ _ rfl
  case h_4 =>
    refine .quiet _ _ hseen (hsignal _) (Quiet.trans ?_ (quiet_sendMethod _ _ rfl))
      (fun _ h => nomatch h) fun _ h => nomatch h
    exact quiet_mapChannel s _ (fun _ => rfl) fun _ => rfl
  case h_5 m =>
    unfold onConsume
    split
    · next hack => exact hrefuse _ _ hack
    · refine .quiet _ _ hseen (hsignal _)
        (quiet_mapChannel s channel (fun _ => rfl) fun _ => rfl) (fun _ h => nomatch h)
        fun call h => ?_
      cases h
      exact ⟨hphase, rfl⟩
  case h_6 tag noWait =>
    unfold onCancel
    split
    · exact .unchanged _ hseen (hsignal _) (fun _ h => nomatch h) _
    · exact hask _ _ rfl
  case h_7 m =>
    unfold onPublish
    split
    · next himmediate => exact hrefuse _ _ (by simp [refuses, himmediate])
    · next himmediate =>
      split
      · next hpending =>
        exact hrefuse _ _ (by simp [refuses, contentOf_eq hopen, hpending])
      · next hpending =>
        exact .publish channel ch m hseen hchannel hphase hopen (by simpa using himmediate)
          (by simpa using hpending)
  case h_8 => exact turn_onSettle hseen hchannel hphase ch _ _
  case h_9 => exact turn_onSettle hseen hchannel hphase ch _ _
  case h_10 => exact turn_onSettle hseen hchannel hphase ch _ _
  case h_11 =>
    exact .quiet _ _ hseen (hsignal _) (quiet_sendMethod s _ rfl) (fun _ h => nomatch h)
      fun _ h => nomatch h
  case h_12 h1 h2 h3 h4 h5 h6 h7 h8 h9 h10 h11 =>
    exfalso
    unfold needsOpen at hm
    split at hm <;> simp_all

theorem turn_onChannelMethod {channel : Nat} (hseen : s.protocolHeaderSeen = true)
    (hchannel : channel ≠ 0) (m : AmqpMethod) :
    Turn order s (.method channel (some m)) (onChannelMethod order s channel m) := by
  unfold onChannelMethod
  split
  · next hphase => exact .unopened channel m hseen hchannel hphase
  · next hphase =>
    have hphase : s.connection.phase = .open := not_not.mp hphase
    split
    · next hneeds =>
      split
      · exact .unchanged _ hseen (signal_method hchannel _) (fun _ h => nomatch h) _
      · next ch hopen => exact turn_onOpenChannel hseen hchannel hphase hopen m hneeds
    · next hneeds =>
      split
      · next text => exact .opened channel text hseen hchannel hphase
      · next reason => exact .closed channel reason hseen hchannel hphase
      · exact .closeOk channel hseen hchannel hphase
      · next h1 h2 h3 =>
        refine .refused _ channel _ hseen (signal_method hchannel _) rfl ?_
        unfold refuses
        split <;> first | grind | simp_all [needsOpen]

theorem turn_onHeaderFrame (hseen : s.protocolHeaderSeen = true) (channel : Nat)
    (h : Option ContentHeader) :
    Turn order s (.header channel h) (s.onHeaderFrame channel h) := by
  rw [onHeaderFrame]
  cases hopen : s.openChannel channel with
  | none =>
    refine .unchanged _ hseen rfl (fun c hc => ?_) _
    have hidle : s.contentOf channel = none := by rw [contentOf, hopen, bind_none]
    cases h with
    | none => cases hc
    | some header =>
      cases hc
      exact hidle
  | some ch =>
    have hcontent := contentOf_eq hopen
    dsimp only
    cases hpending : ch.pendingPublish with
    | none =>
      rw [hpending] at hcontent
      exact .refused _ channel _ hseen rfl rfl (by simp [refuses, hcontent])
    | some pending =>
      rw [hpending] at hcontent
      cases h with
      | none => exact .unchanged _ hseen rfl (by intro _ h; cases h) _
      | some header =>
        dsimp only
        split
        · next hclass =>
          exact .refused _ channel _ hseen rfl rfl (by simp [refuses, hcontent, hclass])
        · split
          · next hsize => exact .headerDone channel header pending hseen hcontent hsize
          · next hsize => exact .header channel header pending hseen hcontent hsize

theorem turn_onBodyFrame (hseen : s.protocolHeaderSeen = true) (channel : Nat)
    (payload : List UInt8) :
    Turn order s (.body channel payload) (s.onBodyFrame channel payload) := by
  rw [onBodyFrame]
  cases hopen : s.openChannel channel with
  | none =>
    refine .unchanged _ hseen rfl (fun c hc => ?_) _
    cases hc
    rw [contentOf, hopen, bind_none]
  | some ch =>
    have hcontent := contentOf_eq hopen
    dsimp only
    cases hpending : ch.pendingPublish with
    | none =>
      rw [hpending] at hcontent
      exact .refused _ channel _ hseen rfl rfl (by simp [refuses, hcontent])
    | some pending =>
      rw [hpending] at hcontent
      dsimp only
      split
      · next hsize => exact .bodyOver channel payload pending hseen hcontent hsize
      · next hover =>
        split
        · next hsize => exact .bodyDone channel payload pending hseen hcontent hsize
        · next hne =>
          exact .body channel payload pending hseen hcontent
            (Nat.lt_of_le_of_ne (Nat.le_of_not_lt hover) hne)

/-- **Every frame takes one of these turns.** -/
theorem turn_onFrame (order : HashOrder) (s : AmqpSession) (f : Frame) :
    Turn order s f (onFrame order s f) := by
  by_cases hseen : s.protocolHeaderSeen = true
  · unfold onFrame
    split
    · rw [if_pos hseen]
      exact .unchanged _ hseen rfl (by intro _ h; cases h) _
    · rw [if_neg (by simp [hseen])]
      split
      · exact .unchanged _ hseen (by unfold Frame.signal; split <;> simp_all)
          (by intro _ h; cases h) _
      · next channel m _ =>
        split
        · next hzero =>
          subst hzero
          cases m with
          | connection m => exact .connection m hseen
          | _ => exact .unchanged _ hseen rfl (by intro _ h; cases h) _
        · next hchannel => exact turn_onChannelMethod hseen hchannel m
      · exact turn_onHeaderFrame hseen _ _
      · exact turn_onBodyFrame hseen _ _
      · exact .quiet _ _ hseen rfl (.refl s) (fun _ h => nomatch h) fun _ h => nomatch h
      · exact .quiet _ _ hseen rfl (.refl s) (fun _ h => nomatch h) fun _ h => nomatch h
  · unfold onFrame
    split
    · rw [if_neg hseen]
      exact .start (by simpa using hseen)
    · next hf =>
      rw [if_pos (by simpa using hseen)]
      exact .early f (by simpa using hseen) hf

end AmqpSession

variable {β : Type}

theorem Port.loose_answer (port : Port β) (broker : β) (s : AmqpSession) (call : Ask) :
    Loose s (port.answer broker s call).2.1 := by
  cases call with
  | control cmd reply => exact s.loose_onControl reply _
  | routeVersion p => exact (s.quiet_onRouteVersion p _).loose
  | resolveRoute p => exact s.loose_onResolved p _
  | command cmd reply => exact s.loose_onOutput reply _

/-- **What follows the first call of a frame** is loose. -/
theorem Port.loose_drive (port : Port β) : ∀ (n : Nat) (broker : β) (r : AmqpSession × Outcome),
    Loose r.1 (port.drive n broker r).2.1
  | 0, _, r => (Quiet.refl r.1).loose
  | n + 1, broker, (s, .ask call) =>
    (port.loose_answer broker s call).trans
      (Port.loose_drive port n _ (port.answer broker s call).2)
  | _ + 1, _, (s, .done) => (Quiet.refl s).loose
  | _ + 1, _, (s, .failed _) => (Quiet.refl s).loose

/-- **What a frame does**: a turn, and what the broker's answers lead to. -/
theorem PortSession.turn_handle (port : Port β) (order : HashOrder) (p : PortSession β)
    (f : Frame) : ∃ r, Turn order p.session f r ∧ Loose r.1 (p.handle port order f).2.session :=
  ⟨_, p.session.turn_onFrame order f, port.loose_drive 3 p.broker _⟩

theorem headerSeen_onConnectionMethod (s : AmqpSession) (m : AmqpMethod) :
    (s.onConnectionMethod m).1.protocolHeaderSeen = s.protocolHeaderSeen := by
  unfold AmqpSession.onConnectionMethod
  repeat' split
  all_goals rfl

theorem headerSeen_completePublish (s : AmqpSession) (channel : Nat)
    (content : PendingPublishContent) :
    (s.completePublish channel content).1.protocolHeaderSeen = s.protocolHeaderSeen := by
  rw [AmqpSession.completePublish]
  split <;> rfl

/-- The protocol header is seen once. -/
theorem Turn.headerSeen {f : Frame} {r : AmqpSession × Outcome} (h : Turn order s f r)
    (hseen : s.protocolHeaderSeen = true) : r.1.protocolHeaderSeen = true := by
  cases h with
  | start => rfl
  | early => exact hseen
  | connection m => exact (headerSeen_onConnectionMethod s _).trans hseen
  | quiet _ _ _ _ hquiet => exact hquiet.headerSeen.trans hseen
  | headerDone => exact (headerSeen_completePublish _ _ _).trans hseen
  | bodyDone => exact (headerSeen_completePublish _ _ _).trans hseen
  | _ => exact hseen

theorem PortSession.headerSeen_run (port : Port β) (order : HashOrder) (fs : List Frame)
    (p : PortSession β) (hseen : p.session.protocolHeaderSeen = true) :
    (p.run port order fs).session.protocolHeaderSeen = true := by
  induction fs generalizing p with
  | nil => exact hseen
  | cons f fs ih =>
    obtain ⟨r, hturn, hloose⟩ := p.turn_handle port order f
    exact ih _ (hloose.headerSeen.trans (hturn.headerSeen hseen))

end Aurum.Amqp
