import Aurum.Amqp.Handshake

/-!
# AMQP — content assembly

A message is assembled from a `basic.publish`, a header frame and body
frames. A session keeps the content under assembly with an expected size,
which is 0 before the header. So an empty body frame before the header
completes a message that has no header, and a later header replaces the
earlier one. Without these two the message handed to the broker is what
its frames say.
-/

namespace Aurum.Amqp

open Aurum.Routing Aurum.Protocol Aurum.Broker Aurum.Service Aurum.Runs List Function PortSession
open Publishing
open Port
open Option

variable {β : Type} {port : Port β} {order : HashOrder} {s s' : AmqpSession} {channel : Nat}
  {pending : PendingPublishContent}

/-! ## Content of a channel -/

variable {ch : Nat} {f : Frame} {r : AmqpSession × Outcome} {q : AmqpSession × Ask} {broker : β}
  {frames : List Frame}

namespace AmqpSession

theorem contentOf_eq_some : s.contentOf channel = some pending ↔
    ∃ c, s.channels channel = some c ∧ c.phase = .open ∧ c.pendingPublish = some pending := by
  rw [contentOf, openChannel]
  cases s.channels channel with
  | none => simp
  | some c =>
    by_cases hphase : c.phase = .open
    · simp [filter_some, hphase]
    · simp [filter_some, hphase]

theorem contentOf_iff : s.contentOf channel = some pending ↔
    s.phaseOf channel = some .open ∧ s.pendingOf channel = some (some pending) := by
  rw [contentOf_eq_some, phaseOf, pendingOf]
  cases s.channels channel with
  | none => simp
  | some c => simp

/-- A change of one channel. -/
theorem contentOf_mapChannel {f : AmqpChannelState → AmqpChannelState}
    (h : (s.mapChannel channel f).contentOf ch = some pending) :
    (ch ≠ channel ∧ s.contentOf ch = some pending) ∨
      (ch = channel ∧ ∃ c, (f c).phase = .open ∧ (f c).pendingPublish = some pending) := by
  obtain ⟨c, hc, hphase, hpending⟩ := contentOf_eq_some.mp h
  by_cases heq : ch = channel
  · subst heq
    rw [mapChannel] at hc
    simp only [update_self, map_eq_some_iff] at hc
    obtain ⟨c', -, rfl⟩ := hc
    exact .inr ⟨rfl, c', hphase, hpending⟩
  · rw [mapChannel] at hc
    simp only [update_of_ne heq] at hc
    exact .inl ⟨heq, contentOf_eq_some.mpr ⟨c, hc, hphase, hpending⟩⟩

end AmqpSession

open AmqpSession

theorem Loose.contentOf (h : Loose s s') (hcontent : s'.contentOf channel = some pending) :
    s.contentOf channel = some pending := by
  obtain ⟨hphase, hpending⟩ := contentOf_iff.mp hcontent
  rw [h.pending] at hpending
  rcases h.phases channel with hsame | hclosing
  · exact contentOf_iff.mpr ⟨hsame ▸ hphase, hpending⟩
  · rw [hclosing] at hphase
    cases hphase

/-- A channel that is closed waits for nothing. -/
theorem contentOf_channelClose {code : Nat}
    (h : (s.channelClose channel code).contentOf ch = some pending) :
    ch ≠ channel ∧ s.contentOf ch = some pending := by
  rcases contentOf_mapChannel (s := s.sendMethod channel _) h with h | ⟨-, c, hphase, -⟩
  · exact h
  · cases hphase

/-- A complete publish leaves its channel without content. -/
theorem contentOf_completePublish {content content' : PendingPublishContent}
    (h : ((s.setPending channel content).completePublish channel content').1.contentOf ch =
      some pending) : ch ≠ channel ∧ s.contentOf ch = some pending := by
  have hclear : ∀ t : AmqpSession, (t.mapChannel channel fun c =>
      { c with pendingPublish := none }).contentOf ch = some pending →
      ch ≠ channel ∧ t.contentOf ch = some pending := by
    intro t h
    rcases contentOf_mapChannel h with h | ⟨-, c, -, hpending⟩
    · exact h
    · cases hpending
  have hset : ch ≠ channel → (s.setPending channel content).contentOf ch = some pending →
      s.contentOf ch = some pending := by
    intro hne h
    rcases contentOf_mapChannel h with h | ⟨heq, -⟩
    · exact h.2
    · exact absurd heq hne
  rw [completePublish] at h
  split at h
  · obtain ⟨hne, h⟩ := contentOf_channelClose h
    exact ⟨hne, hset hne (hclear _ h).2⟩
  · obtain ⟨hne, h⟩ := hclear _ h
    exact ⟨hne, hset hne h⟩

/-- `basic.publish`. -/
def publishFrame (channel : Nat) (m : BasicPublish) : Frame :=
  .method channel (some (.basic (.publish m)))

/-- **What a frame does to the content of a channel.** -/
inductive Assembles (s : AmqpSession) (f : Frame) (channel : Nat) : PendingPublishContent → Prop
  | kept {pending : PendingPublishContent} (hcontent : s.contentOf channel = some pending)
      (hf : f.carries ≠ some channel) : Assembles s f channel pending
  | publish (m : BasicPublish) (hf : f = publishFrame channel m)
    (himmediate : m.immediate = false) :
      Assembles s f channel ⟨m, .empty, 0, []⟩
  | header (h : ContentHeader) (pending : PendingPublishContent) (hf : f = .header channel (some h))
      (hcontent : s.contentOf channel = some pending) (hsize : h.bodySize ≠ 0) :
      Assembles s f channel (pending.addHeader h)
  | body (payload : List UInt8) (pending : PendingPublishContent) (hf : f = .body channel payload)
      (hcontent : s.contentOf channel = some pending)
      (hsize : (pending.addBody payload).body.length < pending.expectedBodySize) :
      Assembles s f channel (pending.addBody payload)

theorem contentOf_onConnectionMethod (s : AmqpSession) (m : AmqpMethod) :
    (s.onConnectionMethod m).1.contentOf = s.contentOf := by
  unfold onConnectionMethod
  repeat' split
  all_goals rfl

theorem Turn.assembles (h : Turn order s f r)
    (hnew : s.protocolHeaderSeen = false → ∀ ch, s.contentOf ch = none)
    (hcontent : r.1.contentOf channel = some pending) : Assembles s f channel pending := by
  -- A frame of another channel carries nothing for this one.
  have hother : ∀ ch, f.channel = some ch → channel ≠ ch → f.carries ≠ some channel := by
    intro ch hch hne hcarries
    unfold Frame.carries at hcarries
    split at hcarries <;> simp_all [Frame.channel]
  have hmethod : ∀ ch (m : AmqpMethod), (Frame.method ch (some m)).carries ≠ some channel :=
    fun _ _ => nofun
  cases h with
  | early _ hseen =>
    rw [hnew hseen channel] at hcontent
    cases hcontent
  | start => exact .kept hcontent nofun
  | connection m =>
    rw [contentOf_onConnectionMethod] at hcontent
    exact .kept hcontent (hmethod _ _)
  | quiet _ _ _ _ hquiet hidle =>
    have hold := hquiet.loose.contentOf hcontent
    refine .kept hold fun hcarries => ?_
    rw [hidle channel hcarries] at hold
    cases hold
  | refused _ ch code _ _ hch =>
    obtain ⟨hne, hold⟩ := contentOf_channelClose hcontent
    exact .kept hold (hother ch hch hne)
  | unopened ch m => exact .kept hcontent (hmethod _ _)
  | opened ch text =>
    refine .kept ?_ (hmethod _ _)
    obtain ⟨c, hc, hphase, hpending⟩ := contentOf_eq_some.mp hcontent
    have hc : Function.update s.channels ch (some (.opened s.opened)) channel = some c := hc
    by_cases heq : channel = ch
    · rw [heq, update_self] at hc
      cases hc
      cases hpending
    · rw [update_of_ne heq] at hc
      exact contentOf_eq_some.mpr ⟨c, hc, hphase, hpending⟩
  | closed ch reason =>
    rcases contentOf_mapChannel hcontent with ⟨-, hold⟩ | ⟨-, c, hphase, -⟩
    · exact .kept ((loose_sendChannelClose s ch _ _).contentOf hold) (hmethod _ _)
    · cases hphase
  | closeOk ch =>
    rcases contentOf_mapChannel hcontent with ⟨-, hold⟩ | ⟨-, c, hphase, -⟩
    · exact .kept hold (hmethod _ _)
    · cases hphase
  | publish ch c m _ _ _ _ himmediate =>
    rcases contentOf_mapChannel hcontent with ⟨-, hold⟩ | ⟨rfl, c, -, hpending⟩
    · exact .kept hold (hmethod _ _)
    · cases hpending
      exact .publish m rfl himmediate
  | header ch h pending' _ hold hsize =>
    rcases contentOf_mapChannel hcontent with ⟨hne, hkept⟩ | ⟨rfl, c, -, hpending⟩
    · exact .kept hkept (hother ch rfl hne)
    · cases hpending
      exact .header h pending' rfl hold hsize
  | headerDone ch h pending' =>
    obtain ⟨hne, hold⟩ := contentOf_completePublish hcontent
    exact .kept hold (hother ch rfl hne)
  | body ch payload pending' _ hold hsize =>
    rcases contentOf_mapChannel hcontent with ⟨hne, hkept⟩ | ⟨rfl, c, -, hpending⟩
    · exact .kept hkept (hother ch rfl hne)
    · cases hpending
      exact .body payload pending' rfl hold hsize
  | bodyOver ch payload pending' =>
    obtain ⟨hne, hset⟩ := contentOf_channelClose hcontent
    rcases contentOf_mapChannel hset with ⟨-, hold⟩ | ⟨heq, -⟩
    · exact .kept hold (hother ch rfl hne)
    · exact absurd heq hne
  | bodyDone ch payload pending' =>
    obtain ⟨hne, hold⟩ := contentOf_completePublish hcontent
    exact .kept hold (hother ch rfl hne)

/-! ## Messages -/

/-- A message as the broker can look it up. -/
structure Message where
  channel : Nat
  metadata : DeliveryMetadata
  properties : BasicProperties
  body : List UInt8
deriving DecidableEq

/-- **The message a call hands to the broker**: a publish, with what the
payload store has under its handle. -/
def handsOver : AmqpSession × Ask → Option Message
  | (s, .command (.ingress (.publish batch)) (.emitted channel)) =>
    match batch.records with
    | [record] => do
        return ⟨channel, ← s.store.deliveryMetadata record.payload,
          ← s.store.deliveryProperties record.payload, ← s.store.payloads record.payload⟩
    | _ => none
  | _ => none

/-- The message of complete content. -/
def Publishing.message (p : Publishing) : Message :=
  ⟨p.channel, deliveryMetadataFrom p.content.publish.exchange p.content.publish.routingKey
    p.content.properties, p.content.properties, p.content.body⟩

/-- The content a call is on the way to publish. -/
def Ask.publishing : Ask → Option Publishing
  | .routeVersion p | .resolveRoute p => some p
  | .control _ _ | .command _ _ => none

/-- A frame that is done makes no more calls. -/
theorem Port.asked_done (port : Port β) (n : Nat) (broker : β) (h : r.2.calls = 0) :
    port.asked n broker r = [] := by
  obtain ⟨s, outcome⟩ := r
  cases n with
  | zero => rfl
  | succ n =>
    cases outcome with
    | ask call => exact absurd h (Outcome.calls_pos call).ne'
    | _ => rfl

/-- A command is the last call of a frame. -/
theorem Port.asked_command (port : Port β) (n : Nat) (broker : β) (s : AmqpSession)
    (cmd : BrokerCommandBatch) (reply : CommandReply)
    (hq : q ∈ port.asked n broker (s, .ask (.command cmd reply))) :
    q = (s, .command cmd reply) := by
  cases n with
  | zero => cases hq
  | succ n =>
    have hcalls : (port.answer broker s (.command cmd reply)).2.2.calls = 0 :=
      calls_onOutput s reply _
    rw [asked, port.asked_done n _ hcalls] at hq
    exact mem_singleton.mp hq

/-- What is published is the content. -/
theorem Port.asked_publishTo (port : Port β) (n : Nat) (broker : β) (s : AmqpSession)
    (p : Publishing) (target : RoutePublishTarget)
    (hq : q ∈ port.asked n broker (s.publishTo p target)) : handsOver q = some p.message := by
  rw [port.asked_command n broker _ _ _ hq]
  simp [handsOver, message]

/-- **The calls on the way to a publish** hand over that content. -/
theorem Port.asked_publishing (port : Port β) (n : Nat) (broker : β) (s : AmqpSession)
    {call : Ask} {p : Publishing} (hcall : call.publishing = some p)
    (hq : q ∈ port.asked n broker (s, .ask call)) {msg : Message} (hmsg : handsOver q = some msg) :
    msg = p.message := by
  induction n generalizing broker s call with
  | zero => cases hq
  | succ n ih =>
    rw [asked, mem_cons] at hq
    rcases hq with rfl | hq
    · cases call with
      | routeVersion p => cases hmsg
      | resolveRoute p => cases hmsg
      | _ => cases hcall
    · cases call with
      | routeVersion p' =>
        cases hcall
        rw [answer] at hq
        dsimp only at hq
        rcases onRouteVersion_cases s p (port.routeTableVersion broker) with h | ⟨target, h⟩
        · rw [h] at hq
          exact ih _ _ rfl hq
        · rw [h] at hq
          rw [port.asked_publishTo n _ s p target hq] at hmsg
          exact (some.inj hmsg).symm
      | resolveRoute p' =>
        cases hcall
        rw [answer] at hq
        dsimp only at hq
        cases hentry : (port.resolveRoute broker (toStringLossy p.content.publish.exchange)
            (toStringLossy p.content.publish.routingKey)).2 with
        | none =>
          rw [hentry, port.asked_done n _ (by rw [onResolved]; split <;> rfl)] at hq
          cases hq
        | some target =>
          rw [hentry] at hq
          rw [port.asked_publishTo n _ _ p target hq] at hmsg
          exact (some.inj hmsg).symm
      | _ => cases hcall

/-- Other calls hand over nothing. -/
theorem Port.asked_plain (port : Port β) (n : Nat) (broker : β) (s : AmqpSession) {call : Ask}
    (hcall : call.publishes = false) (hq : q ∈ port.asked n broker (s, .ask call)) :
    handsOver q = none := by
  cases call with
  | routeVersion p => cases hcall
  | resolveRoute p => cases hcall
  | command cmd reply =>
    rw [port.asked_command n broker s cmd reply hq]
    cases cmd with
    | ingress batch => cases hcall
    | shard batch => rfl
  | control cmd reply =>
    cases n with
    | zero => cases hq
    | succ n =>
      rw [asked, mem_cons] at hq
      rcases hq with rfl | hq
      · rfl
      · -- The answer is a reply, or the command that starts a consumer.
        rcases onControl_cases s reply (port.handleControl broker cmd).2 with
          ⟨-, hdone⟩ | ⟨channel, tag, id, prefetch, rfl, h⟩
        · rw [port.asked_done n _ (by
            rw [answer]
            dsimp only
            rw [hdone]
            rfl)] at hq
          cases hq
        · rw [answer] at hq
          dsimp only at hq
          rw [h] at hq
          rw [port.asked_command n _ _ _ _ hq]
          rfl

/-- The last frame of a message. -/
inductive Completes (s : AmqpSession) (channel : Nat) : Frame → PendingPublishContent → Prop
  | header (h : ContentHeader) (pending : PendingPublishContent)
      (hcontent : s.contentOf channel = some pending) (hsize : h.bodySize = 0) :
      Completes s channel (.header channel (some h)) (pending.addHeader h)
  | body (payload : List UInt8) (pending : PendingPublishContent)
      (hcontent : s.contentOf channel = some pending)
      (hsize : (pending.addBody payload).body.length = pending.expectedBodySize) :
      Completes s channel (.body channel payload) (pending.addBody payload)

theorem Port.asked_completePublish (port : Port β) (n : Nat) (broker : β) (s : AmqpSession)
    (channel : Nat) (content : PendingPublishContent)
    (hq : q ∈ port.asked n broker (s.completePublish channel content)) {msg : Message}
    (hmsg : handsOver q = some msg) : msg = message ⟨channel, content⟩ := by
  rw [completePublish] at hq
  split at hq
  · rw [port.asked_done n broker rfl] at hq
    cases hq
  · exact port.asked_publishing n broker _ rfl hq hmsg

/-- **A message is handed over by the frame that completes it.** -/
theorem Turn.completes (h : Turn order s f r) {n : Nat} (hq : q ∈ port.asked n broker r)
    {msg : Message} (hmsg : handsOver q = some msg) :
    ∃ channel content, Completes s channel f content ∧
      msg = message ⟨channel, content⟩ := by
  have hdone : ∀ t : AmqpSession, r = (t, .done) → False := by
    rintro t rfl
    rw [port.asked_done n broker rfl] at hq
    cases hq
  cases h with
  | early =>
    rw [port.asked_done n broker rfl] at hq
    cases hq
  | connection m =>
    rw [port.asked_done n broker (calls_onConnectionMethod s _)] at hq
    cases hq
  | quiet _ r _ _ _ _ hask =>
    obtain ⟨t, outcome⟩ := r
    cases outcome with
    | ask call =>
      rw [port.asked_plain n broker t (hask call rfl).2 hq] at hmsg
      cases hmsg
    | _ =>
      rw [port.asked_done n broker rfl] at hq
      cases hq
  | headerDone ch h pending _ hcontent hsize =>
    exact ⟨ch, _, .header h pending hcontent hsize,
      port.asked_completePublish n broker _ ch _ hq hmsg⟩
  | bodyDone ch payload pending _ hcontent hsize =>
    exact ⟨ch, _, .body payload pending hcontent hsize,
      port.asked_completePublish n broker _ ch _ hq hmsg⟩
  | _ => exact (hdone _ rfl).elim

/-! ## Runs -/

/-- **Content in sequence.** A header comes once for a message and can be
decoded, and no empty body frame comes before it. -/
def InSequence (s : AmqpSession) : Frame → Prop
  | .header channel h =>
    ∀ pending ∈ s.contentOf channel, h.isSome = true ∧ pending.expectedBodySize = 0
  | .body channel payload =>
    ∀ pending ∈ s.contentOf channel, payload = [] → pending.expectedBodySize ≠ 0
  | _ => True

instance (s : AmqpSession) : ∀ f : Frame, Decidable (InSequence s f)
  | .header channel h => inferInstanceAs
      (Decidable (∀ pending ∈ s.contentOf channel, h.isSome = true ∧ pending.expectedBodySize = 0))
  | .body channel payload => inferInstanceAs
      (Decidable (∀ pending ∈ s.contentOf channel, payload = [] → pending.expectedBodySize ≠ 0))
  | .protocolHeader | .method _ _ | .heartbeat => .isTrue trivial

/-- A header or body frame of the channel. -/
def Frame.isContent (channel : Nat) : Frame → Bool
  | .header ch _ | .body ch _ => ch = channel
  | _ => false

/-- The header and body frames of a channel. -/
def contentOn (channel : Nat) (frames : List Frame) : List Frame :=
  frames.filter (Frame.isContent channel)

/-- The content is what the frames say. -/
def Assembled (channel : Nat) (frames : List Frame) (pending : PendingPublishContent) : Prop :=
  (contentOn channel frames = [] ∧ pending.expectedBodySize = 0 ∧ pending.body = []) ∨
    ∃ (h : ContentHeader) (bodies : List (List UInt8)),
      contentOn channel frames = .header channel (some h) :: bodies.map (.body channel) ∧
      h.bodySize ≠ 0 ∧ pending.properties = h.properties ∧
      pending.expectedBodySize = h.bodySize ∧ pending.body = bodies.flatten

variable (port order) in
/-- The `basic.publish` was accepted after the frames `before`, and its
channel has waited for its content ever since. -/
def Waits (broker : β) (before : List Frame) (channel : Nat) (m : BasicPublish)
    (after : List Frame) : Prop :=
  ∀ a b, after = a ++ b → ∃ pending, ((new broker).run port order
    (before ++ publishFrame channel m :: a)).session.contentOf channel = some pending ∧
      pending.publish = m

variable (port order) in
/-- **All content waits for a publish and is what its frames say.** -/
structure Tracks (broker : β) (frames : List Frame) : Prop where
  fresh : ((new broker).run port order frames).session.protocolHeaderSeen = false →
    ∀ ch, ((new broker).run port order frames).session.contentOf ch = none
  content : ∀ ch pending,
    ((new broker).run port order frames).session.contentOf ch = some pending →
    ∃ before m after, frames = before ++ publishFrame ch m :: after ∧
      Waits port order broker before ch m after ∧ pending.publish = m ∧ Assembled ch after pending

theorem contentOn_snoc (channel : Nat) (frames : List Frame) (f : Frame) :
    contentOn channel (frames ++ [f]) =
      contentOn channel frames ++ if f.isContent channel then [f] else [] := by
  rw [contentOn, filter_append, filter_singleton, Bool.cond_eq_ite]
  rfl

/-- A frame that carries nothing for a channel that waits is none of its content. -/
theorem InSequence.isContent (h : InSequence s f) (hcontent : s.contentOf channel = some pending)
    (hf : f.carries ≠ some channel) : f.isContent channel = false := by
  cases f with
  | header ch header =>
    by_cases heq : ch = channel
    · subst heq
      -- A header that cannot be decoded is excluded.
      obtain ⟨header, rfl⟩ := isSome_iff_exists.mp (h pending hcontent).1
      exact absurd rfl hf
    · exact decide_eq_false heq
  | body ch payload => exact decide_eq_false fun heq => hf (congrArg some heq)
  | _ => rfl

theorem Assembled.header (h : Assembled channel frames pending)
    (hfirst : pending.expectedBodySize = 0) (header : ContentHeader) :
    contentOn channel (frames ++ [.header channel (some header)]) =
        [.header channel (some header)] ∧ pending.body = [] := by
  rw [contentOn_snoc]
  rcases h with ⟨hnone, -, hbody⟩ | ⟨_, _, -, hsize, -, hexpected, -⟩
  · rw [hnone]
    exact ⟨by simp [Frame.isContent], hbody⟩
  · exact absurd (hexpected.symm.trans hfirst) hsize

/-- A body frame comes after its header. -/
theorem Assembled.body (h : Assembled channel frames pending) {payload : List UInt8}
    (hfits : (pending.addBody payload).body.length ≤ pending.expectedBodySize)
    (hempty : payload = [] → pending.expectedBodySize ≠ 0) :
    ∃ (h : ContentHeader) (bodies : List (List UInt8)),
      contentOn channel (frames ++ [.body channel payload]) =
        .header channel (some h) :: bodies.map (.body channel) ∧
      h.bodySize ≠ 0 ∧ pending.properties = h.properties ∧
      pending.expectedBodySize = h.bodySize ∧ (pending.addBody payload).body = bodies.flatten := by
  rw [contentOn_snoc]
  rcases h with ⟨-, hzero, hbody⟩ | ⟨header, bodies, hframes, hsize, hproperties, hexpected, hbody⟩
  · -- Without a header only an empty payload would fit.
    rw [PendingPublishContent.addBody, hzero, hbody, nil_append, Nat.le_zero,
      length_eq_zero_iff] at hfits
    exact absurd hzero (hempty hfits)
  · refine ⟨header, bodies ++ [payload], ?_, hsize, hproperties, hexpected, ?_⟩
    · simp [hframes, Frame.isContent]
    · simp [PendingPublishContent.addBody, hbody]

/-- **One frame** in sequence starts content with a publish, or continues
what the channel waits for. -/
theorem Assembles.assembled (h : Assembles s f channel pending) (hseq : InSequence s f) :
    (∃ m, f = publishFrame channel m ∧ pending.publish = m ∧ Assembled channel [] pending) ∨
      ∃ old, s.contentOf channel = some old ∧ pending.publish = old.publish ∧
        ∀ frames, Assembled channel frames old → Assembled channel (frames ++ [f]) pending := by
  cases h with
  | publish m hf himmediate => exact .inl ⟨m, hf, rfl, .inl ⟨rfl, rfl, rfl⟩⟩
  | kept hcontent hf =>
    refine .inr ⟨pending, hcontent, rfl, fun frames hold => ?_⟩
    rw [Assembled, contentOn_snoc, hseq.isContent hcontent hf, if_neg Bool.false_ne_true,
      List.append_nil]
    exact hold
  | header header old hf hcontent hsize =>
    subst hf
    refine .inr ⟨old, hcontent, rfl, fun frames hold => ?_⟩
    obtain ⟨hframes, hbody⟩ := hold.header (hseq old hcontent).2 header
    exact .inr ⟨header, [], hframes, hsize, rfl, rfl, hbody⟩
  | body payload old hf hcontent hsize =>
    subst hf
    exact .inr ⟨old, hcontent, rfl, fun frames hold =>
      .inr (hold.body hsize.le (hseq old hcontent))⟩

theorem run_snoc (p : PortSession β) (frames : List Frame) (f : Frame) :
    p.run port order (frames ++ [f]) = ((p.run port order frames).handle port order f).2 := by
  rw [run, foldl_append]
  rfl

theorem Waits.snoc {before after : List Frame} {m : BasicPublish}
    (h : Waits port order broker before channel m after)
    (hlast : ((new broker).run port order
      (before ++ publishFrame channel m :: (after ++ [f]))).session.contentOf channel =
        some pending) (hpublish : pending.publish = m) :
    Waits port order broker before channel m (after ++ [f]) := by
  intro a b hab
  rcases append_eq_append_iff.mp hab.symm with ⟨rest, hafter, -⟩ | ⟨rest, rfl, hb⟩
  · exact h a rest hafter
  · rcases singleton_eq_append_iff.mp hb with ⟨rfl, -⟩ | ⟨rfl, -⟩
    · rw [List.append_nil]
      exact h after [] (List.append_nil _).symm
    · exact ⟨pending, hlast, hpublish⟩

theorem tracks_nil (broker : β) : Tracks port order broker [] :=
  ⟨fun _ _ => rfl, fun _ _ h => nomatch h⟩

/-- Before the protocol header a frame adds no content. -/
theorem Turn.contentOf_unseen (h : Turn order s f r) (hseen : s.protocolHeaderSeen = false) :
    r.1.contentOf = s.contentOf := by
  cases h with
  | early => rfl
  | start => rfl
  | _ => simp_all

/-- **One frame** of a run, in sequence. -/
theorem Tracks.snoc (h : Tracks port order broker frames)
    (hseq : InSequence ((new broker).run port order frames).session f) :
    Tracks port order broker (frames ++ [f]) := by
  have hrun := @run_snoc _ port order (new broker) frames f
  obtain ⟨r, hturn, hloose⟩ :=
    ((new broker).run port order frames).turn_handle port order f
  constructor
  · intro hseen ch
    rw [hrun, hloose.headerSeen] at hseen
    have hunseen : ((new broker).run port order frames).session.protocolHeaderSeen =
        false := by
      by_contra hseen'
      rw [hturn.headerSeen (Bool.eq_true_of_not_eq_false hseen')] at hseen
      cases hseen
    rw [hrun, eq_none_iff_forall_ne_some]
    intro pending hpending
    have hpending := hloose.contentOf hpending
    rw [hturn.contentOf_unseen hunseen, h.fresh hunseen ch] at hpending
    cases hpending
  · intro ch pending hpending
    have hlast := hpending
    rw [hrun] at hpending
    have hassembles := hturn.assembles h.fresh (hloose.contentOf hpending)
    rcases hassembles.assembled hseq with
      ⟨m, rfl, hpublish, hassembled⟩ | ⟨old, hold, hpublish, hassembled⟩
    · refine ⟨frames, m, [], rfl, ?_, hpublish, hassembled⟩
      intro a b hab
      obtain ⟨rfl, -⟩ := append_eq_nil_iff.mp hab.symm
      exact ⟨pending, hlast, hpublish⟩
    · obtain ⟨before, m, after, hframes, hwaits, hm, hafter⟩ := h.content ch old hold
      have hsplit : frames ++ [f] = before ++ publishFrame ch m :: (after ++ [f]) := by
        rw [hframes, List.append_assoc, cons_append]
      rw [hsplit] at hlast
      exact ⟨before, m, after ++ [f], hsplit, hwaits.snoc hlast (hpublish.trans hm),
        hpublish.trans hm, hassembled after hafter⟩

/-- **A run** in sequence. -/
theorem tracks_run (broker : β) (frames : List Frame)
    (hmeets : Meets (fun p f => (p.handle port order f).2) (fun p f => InSequence p.session f)
      (new broker) frames) : Tracks port order broker frames := by
  induction frames using reverseRecOn with
  | nil => exact tracks_nil broker
  | append_singleton frames f ih =>
    obtain ⟨hframes, hf⟩ := meets_append.mp hmeets
    exact (ih hframes).snoc hf.1

/-- The frames of complete content. -/
theorem Completes.assembled (h : Completes s channel f pending) (hseq : InSequence s f) :
    ∃ old, s.contentOf channel = some old ∧ pending.publish = old.publish ∧
      ∀ frames, Assembled channel frames old → ∃ (h : ContentHeader) (bodies : List (List UInt8)),
        contentOn channel (frames ++ [f]) =
          .header channel (some h) :: bodies.map (.body channel) ∧
        pending.body = bodies.flatten ∧ pending.body.length = h.bodySize ∧
        pending.properties = h.properties := by
  cases h with
  | header header old hcontent hsize =>
    refine ⟨old, hcontent, rfl, fun frames hold => ?_⟩
    obtain ⟨hframes, hbody⟩ := hold.header (hseq old hcontent).2 header
    exact ⟨header, [], hframes, hbody, (congrArg _ hbody).trans hsize.symm, rfl⟩
  | body payload old hcontent hsize =>
    refine ⟨old, hcontent, rfl, fun frames hold => ?_⟩
    obtain ⟨header, bodies, hframes, -, hproperties, hexpected, hbody⟩ :=
      hold.body hsize.le (hseq old hcontent)
    exact ⟨header, bodies, hframes, hbody, hsize.trans hexpected, hproperties⟩

/-- **Content is assembled from its frames.** In every run whose frames are
in sequence, a message handed to the broker is that of a `basic.publish`
for which its channel has waited ever since, and the content frames of the
channel since then are one header and the body frames of the message. -/
theorem message_is_its_frames (port : Port β) (order : HashOrder) (broker : β)
    (frames : List Frame) (f : Frame)
    (hmeets : Meets (fun p f => (p.handle port order f).2) (fun p f => InSequence p.session f)
      (PortSession.new broker) (frames ++ [f]))
    (q : AmqpSession × Ask)
    (hq : q ∈ ((PortSession.new broker).run port order frames).asked port order f)
    (msg : Message) (hmsg : handsOver q = some msg) :
    ∃ before m after, frames = before ++ publishFrame msg.channel m :: after ∧
      Waits port order broker before msg.channel m after ∧
      ∃ (h : ContentHeader) (bodies : List (List UInt8)),
        contentOn msg.channel (after ++ [f]) =
          .header msg.channel (some h) :: bodies.map (.body msg.channel) ∧
        msg.body = bodies.flatten ∧ msg.body.length = h.bodySize ∧
        msg.properties = h.properties ∧
        msg.metadata = deliveryMetadataFrom m.exchange m.routingKey h.properties := by
  obtain ⟨hframes, hf⟩ := meets_append.mp hmeets
  obtain ⟨channel, content, hcompletes, rfl⟩ :=
    (((PortSession.new broker).run port order frames).session.turn_onFrame order f).completes
      hq hmsg
  obtain ⟨old, hold, hpublish, hlast⟩ := hcompletes.assembled hf.1
  obtain ⟨before, m, after, hsplit, hwaits, hm, hafter⟩ :=
    (tracks_run broker frames hframes).content channel old hold
  obtain ⟨header, bodies, hcontent, hbody, hsize, hproperties⟩ := hlast after hafter
  refine ⟨before, m, after, hsplit, hwaits, header, bodies, hcontent, hbody, hsize, hproperties, ?_⟩
  rw [Publishing.message, hpublish, hm, hproperties]

/-- A broker that routes every message. -/
def Port.routing : Port Unit :=
  { silent with resolveRoute := fun _ _ _ => ((), some ⟨⟨0, 1⟩, 0⟩) }

/-- The handshake, and `channel.open` of channel 1. -/
def openedFrames : List Frame :=
  [.protocolHeader, .method 0 (some (.connection (.startOk ⟨.nil, [], [], []⟩))),
    .method 0 (some (.connection (.tuneOk ⟨0, 4096, 0⟩))),
    .method 0 (some (.connection (.open [47] false))), .method 1 (some (.channel (.open [])))]

/-- A header for a text of `size` bytes. -/
def textHeader (size : Nat) : ContentHeader :=
  ⟨classBasic, size, { BasicProperties.empty with contentType := some [116] }⟩

/-- What the last of some frames hands over. -/
def messagesBy (frames : List Frame) (f : Frame) : List Message :=
  (((new ()).run .routing .insertion frames).asked .routing .insertion f).filterMap
    handsOver

theorem two_bodies_are_assembled :
    let frames := openedFrames ++ [publishFrame 1 ⟨[], [113], false, false⟩,
      .header 1 (some (textHeader 2)), .body 1 [7]]
    ∃ before m after, frames = before ++ publishFrame 1 m :: after ∧
      Waits .routing .insertion () before 1 m after ∧
      ∃ (h : ContentHeader) (bodies : List (List UInt8)),
        contentOn 1 (after ++ [.body 1 [9]]) = .header 1 (some h) :: bodies.map (.body 1) ∧
        [7, 9] = bodies.flatten ∧ 2 = h.bodySize ∧ (textHeader 2).properties = h.properties ∧
        deliveryMetadataFrom [] [113] (textHeader 2).properties =
          deliveryMetadataFrom m.exchange m.routingKey h.properties := by
  intro frames
  have hhanded : ⟨1, deliveryMetadataFrom [] [113] (textHeader 2).properties,
      (textHeader 2).properties, [7, 9]⟩ ∈ messagesBy frames (.body 1 [9]) := by
    decide +kernel
  obtain ⟨q, hq, hmsg⟩ := mem_filterMap.mp hhanded
  exact message_is_its_frames .routing .insertion () frames (.body 1 [9]) (by decide +kernel)
    q hq _ hmsg

/-- An empty body frame completes a message that has no header, and a
second header takes the place of the first. -/
theorem message_without_header : let m : BasicPublish := ⟨[], [113], false, false⟩
    let second : ContentHeader := ⟨classBasic, 1, .empty⟩
    let twice := [publishFrame 1 m, .header 1 (some (textHeader 2)), .header 1 (some second)]
    messagesBy (openedFrames ++ [publishFrame 1 m]) (.body 1 []) =
        [⟨1, deliveryMetadataFrom [] [113] .empty, .empty, []⟩] ∧
      contentOn 1 (openedFrames ++ [publishFrame 1 m] ++ [.body 1 []]) = [.body 1 []] ∧
    messagesBy (openedFrames ++ twice) (.body 1 [7]) =
        [⟨1, deliveryMetadataFrom [] [113] .empty, .empty, [7]⟩] ∧
      contentOn 1 (openedFrames ++ twice ++ [.body 1 [7]]) =
        [.header 1 (some (textHeader 2)), .header 1 (some second), .body 1 [7]] := by
  decide +kernel

end Aurum.Amqp
