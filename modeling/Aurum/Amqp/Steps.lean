import Aurum.Amqp.Handlers

/-!
# AMQP — what a session can do

Most of what a session does with a frame concerns replies, phases and
content under assembly. `Same` says that a session is left as it was
otherwise: its consumers, the tags it handed out, the deliveries it sent
and its payloads. `Handles` lists the frames that do more, and each entry
point of a session has one lemma that says what it can do.
-/

namespace Aurum.Amqp

open Aurum.Protocol Aurum.Broker Aurum.Service List Function AmqpSession

/-! ## Consumer tags -/

namespace ConsumerTagMap

/-- Tags and ids are in one-to-one correspondence, and ids come from the
counter. -/
structure WellTagged (m : ConsumerTagMap) : Prop where
  tags : (m.entries.map Prod.fst).Nodup
  ids : (m.entries.map Prod.snd).Nodup
  bound : ∀ e ∈ m.entries, e.2 ≤ m.nextConsumerId

variable {m : ConsumerTagMap} {tag : ShortStr} {id : Nat}

theorem wellTagged_empty : WellTagged .empty :=
  ⟨nodup_nil, nodup_nil, fun _ h => (nomatch h)⟩

theorem WellTagged.get_eq_some (h : WellTagged m) :
    m.get tag = some id ↔ (tag, id) ∈ m.entries := by
  obtain ⟨entries, next⟩ := m
  have htags := h.tags
  clear h
  simp only [get] at htags ⊢
  induction entries with
  | nil => simp
  | cons e entries ih =>
    obtain ⟨t, i⟩ := e
    simp only [map_cons, nodup_cons] at htags
    by_cases ht : tag = t
    · subst ht
      have hnot : (tag, id) ∉ entries := fun hin => htags.1 (mem_map.mpr ⟨_, hin, rfl⟩)
      simp [hnot, eq_comm]
    · have hne : (tag == t) = false := beq_false_of_ne ht
      simpa [lookup_cons, hne, ht] using ih htags.2

theorem WellTagged.tagFor_eq_some (h : WellTagged m) :
    m.tagFor id = some tag ↔ (tag, id) ∈ m.entries := by
  obtain ⟨entries, next⟩ := m
  have hids := h.ids
  clear h
  simp only [tagFor] at hids ⊢
  induction entries with
  | nil => simp
  | cons e entries ih =>
    obtain ⟨t, i⟩ := e
    simp only [map_cons, nodup_cons] at hids
    by_cases hi : i = id
    · subst hi
      have hnot : (tag, i) ∉ entries := fun hin => hids.1 (mem_map.mpr ⟨_, hin, rfl⟩)
      simp [hnot, eq_comm]
    · simpa [find?_cons, hi, Ne.symm hi] using ih hids.2

/-- A tag gets the id it has, or the next one. -/
theorem insert_cases (m : ConsumerTagMap) (tag : ShortStr) :
    (∃ id, m.get tag = some id ∧ m.insert tag = (m, id)) ∨
      m.get tag = none ∧ m.insert tag = (⟨m.entries ++ [(tag, m.nextConsumerId + 1)],
        m.nextConsumerId + 1⟩, m.nextConsumerId + 1) := by
  unfold insert
  cases hget : m.get tag with
  | some id => exact .inl ⟨id, rfl, rfl⟩
  | none => exact .inr ⟨rfl, rfl⟩

theorem WellTagged.insert (h : WellTagged m) (tag : ShortStr) :
    WellTagged (m.insert tag).1 ∧ (tag, (m.insert tag).2) ∈ (m.insert tag).1.entries ∧
      ∀ e ∈ m.entries, e ∈ (m.insert tag).1.entries := by
  rcases insert_cases m tag with ⟨id, hget, heq⟩ | ⟨hget, heq⟩
  · rw [heq]
    exact ⟨h, h.get_eq_some.mp hget, fun e he => he⟩
  · rw [heq]
    have hnew : tag ∉ m.entries.map Prod.fst := by
      intro hin
      obtain ⟨⟨t, id⟩, he, rfl⟩ := mem_map.mp hin
      rw [h.get_eq_some.mpr he] at hget
      cases hget
    have hfresh : m.nextConsumerId + 1 ∉ m.entries.map Prod.snd := by
      intro hin
      obtain ⟨e, he, heq⟩ := mem_map.mp hin
      have := h.bound e he
      omega
    refine ⟨⟨?_, ?_, fun e he => ?_⟩, by simp, fun e he => mem_append_left _ he⟩
    · rw [map_append]
      exact (perm_append_singleton ..).nodup_iff.mpr (nodup_cons.mpr ⟨hnew, h.tags⟩)
    · rw [map_append]
      exact (perm_append_singleton ..).nodup_iff.mpr (nodup_cons.mpr ⟨hfresh, h.ids⟩)
    · rcases mem_append.mp he with he | he
      · exact Nat.le_succ_of_le (h.bound e he)
      · obtain rfl := mem_singleton.mp he
        exact le_rfl

theorem mem_remove {e : ShortStr × Nat} :
    e ∈ (m.remove tag).entries ↔ e ∈ m.entries ∧ e.1 ≠ tag := by
  simp [remove]

theorem WellTagged.remove (h : WellTagged m) (tag : ShortStr) : WellTagged (m.remove tag) :=
  ⟨(filter_sublist.map _).nodup h.tags, (filter_sublist.map _).nodup h.ids,
    fun e he => h.bound e (mem_remove.mp he).1⟩

end ConsumerTagMap

/-! ## The parts of a session -/

/-- The delivery of a piece of output. -/
def Written.delivered : Written → Option Delivery
  | .delivery d => some d
  | .method _ _ => none

/-- The reply that a channel is open. -/
def AmqpMethod.isOpenOk : AmqpMethod → Bool
  | .channel .openOk => true
  | _ => false

/-- A piece of output, read for the deliveries on `channel`: they begin
anew when the channel is opened. -/
def trackOpen (channel : Nat) (ds : List Delivery) : Written → List Delivery
  | .delivery d => if d.channel = channel then ds ++ [d] else ds
  | .method ch m => if m.isOpenOk ∧ ch = channel then [] else ds

namespace AmqpSession

/-- The deliveries sent so far. -/
def sent (s : AmqpSession) : List Delivery := s.out.filterMap Written.delivered

/-- The deliveries sent on a channel since it was opened. -/
def sinceOpen (s : AmqpSession) (channel : Nat) : List Delivery :=
  s.out.foldl (trackOpen channel) []

def consumersOf (s : AmqpSession) (channel : Nat) : Option ConsumerTagMap :=
  (s.channels channel).map (·.consumers)

/-- The consumers a channel keeps for the tags it sent. -/
def tagsOf (s : AmqpSession) (channel : Nat) : Option (Nat → Option Nat) :=
  (s.channels channel).map (·.deliveryConsumers)

end AmqpSession

/-- Nothing changed but phases, settings, replies and content. -/
structure Same (s s' : AmqpSession) : Prop where
  consumers : s'.consumersOf = s.consumersOf
  tags : s'.tagsOf = s.tagsOf
  sent : s'.sent = s.sent
  since : s'.sinceOpen = s.sinceOpen
  store : s'.store = s.store
  handle : s'.nextPayloadHandle = s.nextPayloadHandle

/-- The tag a consumer gets: an empty one stands for the default. -/
def effectiveTag (tag : ShortStr) : ShortStr := if tag = [] then defaultTag else tag

/-- The `basic.consume` of a frame, with its channel. -/
def Frame.consumes : Frame → Option (Nat × BasicConsume)
  | .method channel (some (.basic (.consume m))) => some (channel, m)
  | _ => none

/-- The channel a frame opens. -/
def Frame.opens : Frame → Option Nat
  | .method channel (some (.channel (.open _))) => some channel
  | _ => none

/-- An outcome that asks for no command and starts no consumer. -/
def Outcome.plain : Outcome → Bool
  | .ask (.control _ (.consuming _ _ _)) | .ask (.command _ _) => false
  | _ => true

/-- The channel the answer to a command is sent on. The answer to a cancel
is dropped. -/
def CommandReply.channel : CommandReply → Option Nat
  | .consumed channel _ | .emitted channel => some channel
  | .cancelled _ _ => none

/-- The tag a settlement names, and its command for the consumer of the tag. -/
def BasicMethod.settles : BasicMethod → Option (Nat × (Nat → ShardCommandBatch))
  | .ack tag multiple =>
    some (tag, fun id => .ack id [.tag tag (settlementMode multiple)])
  | .nack tag multiple requeue =>
    some (tag, fun id => .nack id [.tag tag (settlementMode multiple)
      (requeueDisposition requeue)])
  | .reject tag requeue =>
    some (tag, fun id => .nack id [.tag tag .one (requeueDisposition requeue)])
  | _ => none

variable {s s' s'' : AmqpSession}

theorem Same.refl (s : AmqpSession) : Same s s := ⟨rfl, rfl, rfl, rfl, rfl, rfl⟩

theorem Same.trans (h : Same s s') (h' : Same s' s'') : Same s s'' :=
  ⟨h'.consumers.trans h.consumers, h'.tags.trans h.tags, h'.sent.trans h.sent,
    h'.since.trans h.since, h'.store.trans h.store, h'.handle.trans h.handle⟩

namespace AmqpSession

/-- Mapping over one updated entry. -/
theorem map_mapChannel {α : Type} (s : AmqpSession) (channel : Nat)
    (f : AmqpChannelState → AmqpChannelState) (g : AmqpChannelState → α) (ch : Nat) :
    ((s.mapChannel channel f).channels ch).map g =
      if ch = channel then (s.channels channel).map (g ∘ f) else (s.channels ch).map g := by
  by_cases h : ch = channel
  · subst h
    simp [mapChannel]
  · simp [mapChannel, h]

variable {f : AmqpChannelState → AmqpChannelState} {m : AmqpMethod} {channel : Nat}
  {ch : AmqpChannelState}

/-- A part of the channels that a change of one of them keeps. -/
theorem map_mapChannel_eq {α : Type} (s : AmqpSession) (channel : Nat) {g : AmqpChannelState → α}
    (h : ∀ c, g (f c) = g c) (ch : Nat) :
    ((s.mapChannel channel f).channels ch).map g = (s.channels ch).map g := by
  have hcomp : g ∘ f = g := funext h
  rw [map_mapChannel, hcomp]
  split
  · next heq => rw [heq]
  · rfl

theorem tagsOf_mapChannel (s : AmqpSession) (channel : Nat)
    (htags : ∀ c, (f c).deliveryConsumers = c.deliveryConsumers) :
    (s.mapChannel channel f).tagsOf = s.tagsOf :=
  funext (map_mapChannel_eq s channel htags)

theorem same_mapChannel (s : AmqpSession) (channel : Nat)
    (hcons : ∀ c, (f c).consumers = c.consumers)
    (htags : ∀ c, (f c).deliveryConsumers = c.deliveryConsumers) :
    Same s (s.mapChannel channel f) :=
  ⟨funext (map_mapChannel_eq s channel hcons), tagsOf_mapChannel s channel htags,
    rfl, rfl, rfl, rfl⟩

theorem sent_sendMethod (s : AmqpSession) (channel : Nat) (m : AmqpMethod) :
    (s.sendMethod channel m).sent = s.sent := by
  simp [sent, sendMethod, Written.delivered]

theorem sinceOpen_sendMethod (s : AmqpSession) (channel : Nat) (hm : m.isOpenOk = false) :
    (s.sendMethod channel m).sinceOpen = s.sinceOpen := by
  funext ch
  simp [sinceOpen, sendMethod, trackOpen, hm]

theorem same_sendMethod (s : AmqpSession) (channel : Nat) (hm : m.isOpenOk = false) :
    Same s (s.sendMethod channel m) :=
  ⟨rfl, rfl, sent_sendMethod s channel m, sinceOpen_sendMethod s channel hm, rfl, rfl⟩

theorem same_sendChannelClose (s : AmqpSession) (channel code : Nat) (text : ShortStr) :
    Same s (s.sendChannelClose channel code text) :=
  (same_sendMethod s channel rfl).trans (same_mapChannel _ _ (fun _ => rfl) fun _ => rfl)

theorem same_channelClose (s : AmqpSession) (channel code : Nat) :
    Same s (s.channelClose channel code) := same_sendChannelClose s channel code _

theorem same_connectionClose (s : AmqpSession) (code : Nat) : Same s (s.connectionClose code) :=
  (same_sendMethod s 0 rfl).trans ⟨rfl, rfl, rfl, rfl, rfl, rfl⟩

theorem same_onError (channel : Nat) (s : AmqpSession) (err : CommandError) :
    Same s (onError channel s err) := by
  unfold onError
  split
  · exact same_connectionClose s _
  · exact same_channelClose s _ _

theorem same_errors (channel : Nat) (errs : List CommandError) (s : AmqpSession) :
    Same s (errs.foldl (onError channel) s) := by
  induction errs generalizing s with
  | nil => exact .refl s
  | cons err errs ih => exact (same_onError channel s err).trans (ih _)

/-! ## Frames -/

/-- **What a session does with a frame.** -/
inductive Handles (order : HashOrder) (s : AmqpSession) : Frame → AmqpSession × Outcome → Prop
  | plain (f : Frame) (r : AmqpSession × Outcome) (hsame : Same s r.1)
      (hplain : r.2.plain = true) : Handles order s f r
  | opened (channel : Nat) (text : ShortStr) :
      Handles order s (.method channel (some (.channel (.open text))))
        (({ s with
          channels := Function.update s.channels channel (some (.opened s.opened))
          opened := s.opened + 1 }).sendMethod channel (.channel .openOk), .done)
  | consume (channel : Nat) (ch : AmqpChannelState) (m : BasicConsume)
      (hopen : s.openChannel channel = some ch) (hack : m.noAck = false) :
      Handles order s (.method channel (some (.basic (.consume m))))
        (s.mapChannel channel fun c =>
          { c with consumers := (ch.consumers.insert (effectiveTag m.consumerTag)).1 },
        .ask (.control (.resolveQueueId (toStringLossy m.queue))
          (.consuming channel (effectiveTag m.consumerTag)
            (ch.consumers.insert (effectiveTag m.consumerTag)).2)))
  | cancel (channel : Nat) (ch : AmqpChannelState) (tag : ShortStr) (noWait : Bool) (id : Nat)
      (hopen : s.openChannel channel = some ch) (hget : ch.consumers.get tag = some id) :
      Handles order s (.method channel (some (.basic (.cancel tag noWait))))
        (s, .ask (.command (.shard (.cancel [⟨id, .requeueUnacked⟩])) (.cancelled channel tag)))
  | settle (channel : Nat) (ch : AmqpChannelState) (m : BasicMethod) (tag : Nat)
      (cmd : Nat → ShardCommandBatch) (id : Nat) (hm : m.settles = some (tag, cmd))
      (hopen : s.openChannel channel = some ch)
      (hid : consumerForDeliveryTag order ch tag = some id) :
      Handles order s (.method channel (some (.basic m)))
        (s, .ask (.command (.shard (cmd id)) (.emitted channel)))

variable {order : HashOrder}

theorem Handles.same {f : Frame} {s' : AmqpSession} {o : Outcome} (h : Same s s')
    (ho : o.plain = true) : Handles order s f (s', o) := .plain f _ h ho

theorem handles_onSettle {m : BasicMethod} {tag : Nat} {cmd : Nat → ShardCommandBatch}
    (hm : m.settles = some (tag, cmd)) (hopen : s.openChannel channel = some ch) :
    Handles order s (.method channel (some (.basic m))) (onSettle order s channel ch tag cmd) := by
  unfold onSettle
  split
  · exact .same (.refl s) rfl
  · next id hid => exact .settle channel ch m tag cmd id hm hopen hid

theorem handles_onOpenChannel (hopen : s.openChannel channel = some ch) (m : AmqpMethod) :
    Handles order s (.method channel (some m)) (onOpenChannel order s channel ch m) := by
  unfold onOpenChannel
  split
  case h_1 => exact .same (.refl s) rfl
  case h_2 =>
    split
    · exact .same (same_channelClose s _ _) rfl
    · exact .same (.refl s) rfl
  case h_3 => exact .same (.refl s) rfl
  case h_4 =>
    refine .same (Same.trans ?_ (same_sendMethod _ _ rfl)) rfl
    exact same_mapChannel s _ (fun _ => rfl) fun _ => rfl
  case h_5 m =>
    unfold onConsume
    split
    · exact .same (same_channelClose s _ _) rfl
    · next hack => exact .consume channel ch m hopen (by simpa using hack)
  case h_6 tag noWait =>
    unfold onCancel
    split
    · exact .same (.refl s) rfl
    · next id hget => exact .cancel channel ch tag noWait id hopen hget
  case h_7 m =>
    unfold onPublish
    split
    · exact .same (same_channelClose s _ _) rfl
    · split
      · exact .same (same_channelClose s _ _) rfl
      · exact .same (same_mapChannel s _ (fun _ => rfl) fun _ => rfl) rfl
  case h_8 => exact handles_onSettle rfl hopen
  case h_9 => exact handles_onSettle rfl hopen
  case h_10 => exact handles_onSettle rfl hopen
  case h_11 => exact .same (same_sendMethod s _ rfl) rfl
  case h_12 => exact .same (same_channelClose s _ _) rfl

theorem handles_onChannelMethod (channel : Nat) (m : AmqpMethod) :
    Handles order s (.method channel (some m)) (onChannelMethod order s channel m) := by
  unfold onChannelMethod
  split
  · exact .same (same_connectionClose s _) rfl
  · split
    · split
      · exact .same (.refl s) rfl
      · next ch hopen => exact handles_onOpenChannel hopen m
    · split
      · next text _ => exact .opened channel text
      · exact .same (Same.trans (same_sendChannelClose s _ _ _)
          (same_mapChannel _ _ (fun _ => rfl) fun _ => rfl)) rfl
      · exact .same (same_mapChannel s _ (fun _ => rfl) fun _ => rfl) rfl
      · exact .same (same_channelClose s _ _) rfl

theorem handles_completePublish {f : Frame} (h : Same s s') (channel : Nat)
    (content : PendingPublishContent) : Handles order s f (s'.completePublish channel content) := by
  have hsame : Same s (s'.mapChannel channel fun ch => { ch with pendingPublish := none }) :=
    h.trans (same_mapChannel s' _ (fun _ => rfl) fun _ => rfl)
  unfold completePublish
  simp only
  split
  · exact .same (hsame.trans (same_channelClose _ _ _)) rfl
  · exact .same hsame rfl

theorem handles_onHeaderFrame (channel : Nat) (h : Option ContentHeader) :
    Handles order s (.header channel h) (s.onHeaderFrame channel h) := by
  unfold onHeaderFrame
  split
  · exact .same (.refl s) rfl
  · split
    · exact .same (same_channelClose s _ _) rfl
    · exact .same (.refl s) rfl
    · next pending header _ =>
      split
      · exact .same (same_channelClose s _ _) rfl
      · have hsame : ∀ content, Same s
            (s.mapChannel channel fun ch => { ch with pendingPublish := content }) :=
          fun content => same_mapChannel s _ (fun _ => rfl) fun _ => rfl
        simp only
        split
        · exact handles_completePublish (hsame _) _ _
        · exact .same (hsame _) rfl

theorem handles_onBodyFrame (channel : Nat) (payload : List UInt8) :
    Handles order s (.body channel payload) (s.onBodyFrame channel payload) := by
  unfold onBodyFrame
  split
  · exact .same (.refl s) rfl
  · split
    · exact .same (same_channelClose s _ _) rfl
    · have hsame : ∀ content, Same s
          (s.mapChannel channel fun ch => { ch with pendingPublish := content }) :=
        fun content => same_mapChannel s _ (fun _ => rfl) fun _ => rfl
      simp only
      split
      · exact .same ((hsame _).trans (same_channelClose _ _ _)) rfl
      · split
        · exact handles_completePublish (hsame _) _ _
        · exact .same (hsame _) rfl

variable (s)

theorem same_onConnectionMethod (m : AmqpMethod) :
    Same s (s.onConnectionMethod m).1 ∧ (s.onConnectionMethod m).2.plain = true := by
  have hconn : ∀ connection, Same s { s with connection := connection } :=
    fun _ => ⟨rfl, rfl, rfl, rfl, rfl, rfl⟩
  unfold onConnectionMethod
  split
  · split
    · exact ⟨(hconn _).trans (same_sendMethod _ _ rfl), rfl⟩
    · exact ⟨same_connectionClose s _, rfl⟩
  · exact ⟨hconn _, rfl⟩
  · exact ⟨(hconn _).trans (same_sendMethod _ _ rfl), rfl⟩
  · exact ⟨hconn _, rfl⟩
  · exact ⟨(same_sendMethod s _ rfl).trans ⟨rfl, rfl, rfl, rfl, rfl, rfl⟩, rfl⟩
  · exact ⟨same_connectionClose s _, rfl⟩
  · exact ⟨.refl s, rfl⟩

/-- **Every frame is handled in one of these ways.** -/
theorem handles_onFrame (order : HashOrder) (s : AmqpSession) (f : Frame) :
    Handles order s f (onFrame order s f) := by
  unfold onFrame
  split
  · split
    · exact .same (.refl s) rfl
    · exact .same ⟨rfl, rfl, sent_sendMethod _ _ _, sinceOpen_sendMethod _ _ rfl, rfl, rfl⟩ rfl
  · split
    · exact .same (.refl s) rfl
    · split
      · exact .same (.refl s) rfl
      · next channel m _ =>
        split
        · obtain ⟨hsame, hplain⟩ := same_onConnectionMethod s m
          exact .plain _ _ hsame hplain
        · exact handles_onChannelMethod channel m
      · exact handles_onHeaderFrame _ _
      · exact handles_onBodyFrame _ _
      · exact .same (.refl s) rfl
      · exact .same (.refl s) rfl

/-! ## Answers -/

/-- A control command leads to a reply, or to the command that starts the
consumer whose queue it looked up. -/
theorem onControl_cases (reply : ControlReply) (result : AmqpControlResult) :
    (Same s (s.onControl reply result).1 ∧ (s.onControl reply result).2 = .done) ∨
    ∃ channel tag id prefetch, reply = .consuming channel tag id ∧
      s.onControl reply result = (s, .ask (.command (.shard (.consume
        [⟨id, channel, result.queueId.getD 0, prefetch⟩])) (.consumed channel tag))) := by
  cases reply with
  | exchangeDeclared channel =>
    refine .inl ?_
    simp only [onControl]
    split
    · exact ⟨same_sendMethod s _ rfl, rfl⟩
    · exact ⟨same_channelClose s _ _, rfl⟩
  | queueDeclared channel queue =>
    refine .inl ?_
    simp only [onControl]
    split
    · exact ⟨same_sendMethod s _ rfl, rfl⟩
    · exact ⟨same_channelClose s _ _, rfl⟩
  | queueBound channel =>
    refine .inl ?_
    simp only [onControl]
    split
    · exact ⟨same_sendMethod s _ rfl, rfl⟩
    · exact ⟨same_channelClose s _ _, rfl⟩
  | consuming channel tag id => exact .inr ⟨channel, tag, id, _, rfl, rfl⟩

theorem onRouteVersion_cases (p : Publishing) (version : Nat) :
    s.onRouteVersion p version = (s, .ask (.resolveRoute p)) ∨
      ∃ target, s.onRouteVersion p version = s.publishTo p target := by
  unfold onRouteVersion
  simp only
  split
  · exact .inr ⟨_, rfl⟩
  · exact .inl rfl

theorem onResolved_cases (p : Publishing) (entry : Option RoutePublishTarget) :
    (Same s (s.onResolved p entry).1 ∧ (s.onResolved p entry).2 = .done) ∨
      ∃ s' target, Same s s' ∧ s.onResolved p entry = s'.publishTo p target := by
  unfold onResolved
  split
  · refine .inr ⟨_, _, ?_, rfl⟩
    exact same_mapChannel s _ (fun _ => rfl) fun _ => rfl
  · split
    · exact .inl ⟨same_channelClose s _ _, rfl⟩
    · exact .inl ⟨.refl s, rfl⟩

variable {s}

/-! ## Deliveries -/

/-- The table of a channel after a delivery. -/
def recordTag (channel : Nat) (tags : Nat → Option Nat) (d : Delivery) : Nat → Option Nat :=
  if d.channel = channel then Function.update tags d.method.deliveryTag (some d.consumerId)
  else tags

/-- **The deliveries `ds` were sent**, and nothing else happened. -/
structure Sends (s : AmqpSession) (ds : List Delivery) (s' : AmqpSession) : Prop where
  consumers : s'.consumersOf = s.consumersOf
  tags : ∀ ch, s'.tagsOf ch = (s.tagsOf ch).map fun tags => ds.foldl (recordTag ch) tags
  sent : s'.sent = s.sent ++ ds
  since : ∀ ch, s'.sinceOpen ch = s.sinceOpen ch ++ ds.filter (·.channel = ch)
  store : s'.store = s.store
  handle : s'.nextPayloadHandle = s.nextPayloadHandle

theorem sends_of_same (h : Same s s') : Sends s [] s' :=
  ⟨h.consumers, fun ch => by simp [h.tags], by simp [h.sent], fun ch => by simp [h.since],
    h.store, h.handle⟩

theorem Sends.trans {ds ds' : List Delivery} (h : Sends s ds s') (h' : Sends s' ds' s'') :
    Sends s (ds ++ ds') s'' where
  consumers := h'.consumers.trans h.consumers
  tags := fun ch => by
    rw [h'.tags, h.tags, Option.map_map]
    simp only [foldl_append, comp_def]
  sent := by rw [h'.sent, h.sent, List.append_assoc]
  since := fun ch => by rw [h'.since, h.since, filter_append, List.append_assoc]
  store := h'.store.trans h.store
  handle := h'.handle.trans h.handle

theorem sends_sendOne (s : AmqpSession) (d : Delivery) : Sends s [d] (s.sendOne d) where
  consumers := funext (map_mapChannel_eq s d.channel fun _ => rfl)
  tags := fun ch => by
    refine (map_mapChannel s d.channel _ (·.deliveryConsumers) ch).trans ?_
    simp only [tagsOf, foldl_cons, foldl_nil, recordTag, Option.map_map]
    split
    · next heq => simp [heq, comp_def]
    · next hne => simp [Ne.symm hne, comp_def]
  sent := by simp [sendOne, sent, mapChannel, Written.delivered]
  since := fun ch => by
    simp only [sinceOpen, sendOne, mapChannel, foldl_append, foldl_cons, foldl_nil,
      trackOpen]
    split <;> next h => simp [h]
  store := rfl
  handle := rfl

/-- The loop sends a first part of the deliveries, and all of them unless
it fails. -/
theorem sends_sendAll (s : AmqpSession) (ds : List Delivery) :
    ∃ sent, sent <+: ds ∧ Sends s sent (s.sendAll ds).1 ∧
      ((s.sendAll ds).2 = .done ∧ sent = ds ∨ (s.sendAll ds).2 = .failed .wire) := by
  induction ds generalizing s with
  | nil => exact ⟨[], prefix_refl _, sends_of_same (.refl s), .inl ⟨rfl, rfl⟩⟩
  | cons d ds ih =>
    simp only [sendAll]
    split
    · obtain ⟨sent, hpre, hsends, hend⟩ := ih (s.sendOne d)
      refine ⟨d :: sent, cons_prefix_cons.mpr ⟨rfl, hpre⟩,
        (sends_sendOne s d).trans hsends, ?_⟩
      exact hend.imp_left fun h => ⟨h.1, congrArg (d :: ·) h.2⟩
    · exact ⟨[d], ⟨ds, rfl⟩, sends_sendOne s d, .inr rfl⟩

/-- What a session would send for an output depends on its consumers, its
payloads and the frame size. -/
theorem outgoing_congr (hcons : s'.consumersOf = s.consumersOf) (hstore : s'.store = s.store)
    (hmax : s'.connection.frameMax = s.connection.frameMax) (channel : Nat)
    (batch : DeliveryEventBatch) : s'.outgoing channel batch = s.outgoing channel batch := by
  have htag : ((s'.channels channel).bind (·.consumers.tagFor batch.consumerId)) =
      (s.channels channel).bind (·.consumers.tagFor batch.consumerId) := by
    have h := congrArg (·.bind (ConsumerTagMap.tagFor · batch.consumerId)) (congrFun hcons channel)
    simpa [consumersOf, Option.bind_map] using h
  simp only [outgoing, htag, hstore, hmax]

/-- What a delivery says about its consumer. -/
theorem outgoing_consumer {batch : DeliveryEventBatch} {d : Delivery}
    (hd : d ∈ s.outgoing channel batch) : d.channel = channel ∧ d.consumerId = batch.consumerId ∧
      d.method.consumerTag =
        ((s.consumersOf channel).bind (·.tagFor batch.consumerId)).getD defaultTag := by
  simp only [outgoing, mem_map] at hd
  obtain ⟨m, -, rfl⟩ := hd
  simp [consumersOf, Option.bind_map]

theorem frameMax_errors (channel : Nat) (errs : List CommandError) (s : AmqpSession) :
    (errs.foldl (onError channel) s).connection.frameMax = s.connection.frameMax := by
  induction errs generalizing s with
  | nil => rfl
  | cons err errs ih =>
    rw [foldl_cons, ih, onError]
    split <;> rfl

/-- **An output is sent on one channel**: a first part of its deliveries,
and all of them unless a header cannot be encoded. -/
theorem sends_emitBrokerOutput (s : AmqpSession) (channel : Nat) (output : ShardOutputBatch) :
    ∃ sent, sent <+: output.deliveries.flatMap (s.outgoing channel) ∧
      Sends s sent (s.emitBrokerOutput channel output).1 ∧
      ((s.emitBrokerOutput channel output).2 = .done ∧
          sent = output.deliveries.flatMap (s.outgoing channel) ∨
        (s.emitBrokerOutput channel output).2 = .failed .wire) := by
  have hsame := same_errors channel output.errors s
  have hout : (output.errors.foldl (onError channel) s).outgoing channel = s.outgoing channel :=
    funext (outgoing_congr hsame.consumers hsame.store (frameMax_errors channel _ s) channel)
  obtain ⟨sent, hpre, hsends, hend⟩ := sends_sendAll (output.errors.foldl (onError channel) s)
    (output.deliveries.flatMap ((output.errors.foldl (onError channel) s).outgoing channel))
  rw [hout] at hpre hend
  refine ⟨sent, hpre, ?_, ?_⟩
  · simpa [emitBrokerOutput, encodeDeliveryBatches, hout] using (sends_of_same hsame).trans hsends
  · simpa [emitBrokerOutput, encodeDeliveryBatches, hout] using hend

theorem sends_onOutput (s : AmqpSession) {reply : CommandReply}
    (hreply : reply.channel = some channel) (output : ShardOutputBatch) :
    ∃ sent, sent <+: output.deliveries.flatMap (s.outgoing channel) ∧
      Sends s sent (s.onOutput reply output).1 ∧
      ((s.onOutput reply output).2 = .done ∧
          sent = output.deliveries.flatMap (s.outgoing channel) ∨
        (s.onOutput reply output).2 = .failed .wire) := by
  obtain ⟨sent, hpre, hsends, hend⟩ := sends_emitBrokerOutput s channel output
  cases reply with
  | cancelled _ _ => cases hreply
  | emitted _ =>
    obtain rfl := Option.some.inj hreply
    exact ⟨sent, hpre, hsends, hend⟩
  | consumed _ tag =>
    obtain rfl := Option.some.inj hreply
    simp only [onOutput]
    rcases hend with ⟨hdone, rfl⟩ | hfail
    · split
      · next s' heq =>
        rw [heq] at hsends
        refine ⟨_, hpre, ?_, .inl ⟨rfl, rfl⟩⟩
        simpa using hsends.trans (sends_of_same (same_sendMethod s' _ rfl))
      · next hne => exact (hne (s.emitBrokerOutput _ output).1 (Prod.ext rfl hdone)).elim
    · split
      · next s' heq =>
        rw [heq] at hfail
        cases hfail
      · exact ⟨sent, hpre, hsends, .inr hfail⟩

/-- Pushed output goes to channel 1. -/
theorem sends_onPushed (s : AmqpSession) (output : ShardOutputBatch) :
    ∃ sent, sent <+: output.deliveries.flatMap (s.outgoing 1) ∧
      Sends s sent (s.onPushed output) := by
  unfold onPushed
  split
  · obtain ⟨sent, hpre, hsends, -⟩ := sends_emitBrokerOutput s 1 output
    exact ⟨sent, hpre, hsends⟩
  · exact ⟨[], nil_prefix, sends_of_same (.refl s)⟩

end AmqpSession

end Aurum.Amqp
