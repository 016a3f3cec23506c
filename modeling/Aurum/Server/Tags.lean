import Aurum.Server.Channels

/-!
# Server — the delivery tags of a channel

The broker numbers the deliveries of every consumer from 1 on. A session
passes these numbers on as the delivery tags of its channel, and keeps for
every tag the consumer it was last sent for. `channel_tags` says when the
tags of a channel are distinct and a settlement finds the message that was
delivered under its tag: as long as there is one consumer at a time.
`second_consumer_reuses_tag` shows two consumers that are both sent tag 1.
-/

namespace Aurum.Server

open Aurum.Runs Aurum.Protocol Aurum.Broker Aurum.Service Aurum.Amqp AmqpSession BrokerService
open AmqpServerSession
  InMemoryShardExecutor List Function

variable {σ : Type}

/-! ## Definitions -/

/-- The acts of one AMQP session, that of connection `k`. -/
def Act.ofSession (k : Nat) : Act → Bool
  | .accept j amqp => j = k && amqp
  | .receive j _ | .advance j => j = k
  | .receiveNative _ _ => false

/-- The deliveries sent on channel `ch` of connection `k` since the channel
was opened. -/
def sentSinceOpen (s : BrokerServer σ) (k ch : Nat) : List Delivery :=
  match s.peers k with
  | some (.amqp p) => p.session.sinceOpen ch
  | _ => []

/-- **What the client has to respect**: a `basic.consume` is handled only
while no consumer is live and nothing was sent on the channel since it was
opened. -/
def ConsumesAlone (order : Nat → HashOrder) (k ch : Nat) (w : Watched σ) : Act → Prop
  | .advance _ => ∀ x ∈ (w.server.peers k).bind Peer.nextFrame,
      issues (x.1.onFrame (order k) x.2).2 ≠ none →
        (∀ y ∈ w.origins, w.server.system.owner y.1 = none) ∧
          sentSinceOpen w.server k ch = []
  | _ => True

/-- The connection and the channel are open. -/
def Ready (session : AmqpSession) (ch : Nat) : Prop :=
  session.protocolHeaderSeen = true ∧ session.connection.phase = .open ∧ ch ≠ 0 ∧
    (session.openChannel ch).isSome

/-- The tag a method settles on its own, and whether its message is
requeued. -/
def settlesOne : BasicMethod → Option (Nat × Bool)
  | .ack tag false => some (tag, false)
  | .nack tag false requeue | .reject tag requeue => some (tag, requeue)
  | _ => none

/-- **The settlement of one tag.** If the next frame of connection `k` is
a settlement of the tag of `d`, which its consumer still holds, three steps
later the shard has settled the message of `d` there, and after that only
delivered and reported. -/
def SettlesDelivery (store : ShardStorage σ) (order : Nat → HashOrder) (k ch : Nat)
    (s : BrokerServer σ) (d : Delivery) : Prop :=
  ∀ session rest draining m t requeue,
    s.peers k = some (.amqp ⟨session, .method ch (some (.basic m)) :: rest, none, draining⟩) →
    Ready session ch → settlesOne m = some (t, requeue) →
    d.method.deliveryTag = t → s.system.shard.Holds d.consumerId d.queueId t d.seq →
    ∃ shard, GivesUp d.consumerId d.queueId t d.seq requeue s.system.shard shard ∧
      Reaches (fun a => a.plain = true) shard
        (s.run store order [.advance k, .advance k, .advance k]).system.shard

instance (order : Nat → HashOrder) (k ch : Nat) (w : Watched σ) :
    ∀ a, Decidable (ConsumesAlone order k ch w a)
  | .advance _ =>
    have : Decidable (sentSinceOpen w.server k ch = []) :=
      decidable_of_iff ((sentSinceOpen w.server k ch).isEmpty = true) isEmpty_iff
    inferInstanceAs (Decidable (∀ x ∈ _, _))
  | .accept _ _ | .receive _ _ | .receiveNative _ _ => .isTrue trivial

/-! ## Deliveries and announcements -/

/-- What a delivery announces. -/
def announcementOf (d : Delivery) : Announcement :=
  ⟨d.consumerId, d.queueId, d.method.deliveryTag, d.seq⟩

theorem segmentMessages_entries (seg : DeliveryEventSegment) :
    (segmentMessages seg).map (fun m => (m.tag, m.seq)) = seg.entries := by
  cases seg with
  | range r =>
    refine ext_getElem? fun i => ?_
    by_cases hi : i < r.len <;>
      simp [segmentMessages, DeliveryEventSegment.entries, Aurum.Consumer.tagged, hi]
  | mask m =>
    rw [← m.iterHandles_eq]
    simp [segmentMessages, comp_def]

/-- A session announces to its client what a batch announces. -/
theorem map_announcementOf_outgoing (session : AmqpSession) (ch : Nat)
    (batch : DeliveryEventBatch) :
    (session.outgoing ch batch).map announcementOf = announcements (.delivery batch) := by
  have hentries : batch.entries =
      (batch.segments.flatMap segmentMessages).map fun m => (m.tag, m.seq) := by
    rw [map_flatMap]
    exact flatMap_congr fun seg _ => (segmentMessages_entries seg).symm
  simp only [announcements, hentries, outgoing, map_map]
  rfl

theorem map_announcementOf_flatMap (session : AmqpSession) (ch : Nat)
    (ds : List DeliveryEventBatch) :
    (ds.flatMap (session.outgoing ch)).map announcementOf =
      ds.flatMap fun d => announcements (.delivery d) := by
  rw [map_flatMap]
  exact flatMap_congr fun d _ => map_announcementOf_outgoing session ch d

/-! ## The invariant -/

/-- What was announced to the connections and not answered yet. -/
def pending (s : System σ) : List Announcement :=
  s.waiting.flatMap fun e => e.output.deliveries.flatMap fun d => announcements (.delivery d)

/-- Nobody consumes, and nothing was sent on channel `ch` since it was
opened. -/
def Fresh (ch : Nat) (s : System σ) (session : AmqpSession) : Prop :=
  (∀ c, s.owner c = none) ∧ session.sinceOpen ch = []

/-- **There is one consumer at most**, and what was sent on channel `ch`
since it was opened was announced to one consumer since it was started.
`ids` are the ids the session gave out. -/
structure Numbered (k ch : Nat) (ids : List Nat) (s : System σ) (session : AmqpSession) :
    Prop where
  registry : ∀ c j, s.service.registry c = some j → j = k
  outbox : s.service.outboxes k = []
  known : ∀ c, s.owner c ≠ none → c ∈ ids
  numbers : ∃ c, (∀ c', s.owner c' ≠ none → c' = c) ∧
    ((session.sinceOpen ch).map announcementOf ++ pending s).Sublist (latest c s.shard.sink)
  tags : ∀ tags ∈ session.tagsOf ch, ∀ d ∈ session.sinceOpen ch,
    tags d.method.deliveryTag = some d.consumerId

/-- A consumer is about to be started only if there is none. -/
def StartsAlone (ch : Nat) (ids : List Nat) (s : System σ) (session : AmqpSession) :
    Option Ask → Prop
  | some (.control _ (.consuming _ _ id)) => id ∈ ids ∧ Fresh ch s session
  | some (.command cmd _) => ∀ c ∈ cmd.starts, c ∈ ids ∧ (∀ c' ∈ cmd.starts, c' = c) ∧
      cmd.cancels = [] ∧ (s.waiting = [] → Fresh ch s session)
  | _ => True

variable {c t : Nat} {cmd : BrokerCommandBatch} {session : AmqpSession} {reply : CommandReply}
  {rest : List Frame} {draining : Bool}

section

variable {k ch : Nat} {ids : List Nat} {s s' : System σ} {session' : AmqpSession}
  {store : ShardStorage σ}

/-- A session that kept its tags and deliveries, and ids that were added. -/
theorem Numbered.same (h : Numbered k ch ids s session)
    (hsince : session'.sinceOpen ch = session.sinceOpen ch)
    (htags : session'.tagsOf ch = session.tagsOf ch) {ids' : List Nat} (hids : ids ⊆ ids') :
    Numbered k ch ids' s session' where
  registry := h.registry
  outbox := h.outbox
  known := fun c hc => hids (h.known c hc)
  numbers := by rw [hsince]; exact h.numbers
  tags := by rw [hsince, htags]; exact h.tags

theorem Fresh.same (h : Fresh ch s session) (howner : s'.owner = s.owner)
    (hsince : session'.sinceOpen ch = session.sinceOpen ch) : Fresh ch s' session' :=
  ⟨fun c => by rw [howner]; exact h.1 c, by rw [hsince]; exact h.2⟩

/-- The channel is opened, and there is nothing to compare any more. -/
theorem Numbered.reopened (h : Numbered k ch ids s session)
    (hsince : session'.sinceOpen ch = []) : Numbered k ch ids s session' where
  registry := h.registry
  outbox := h.outbox
  known := h.known
  numbers := by
    obtain ⟨c, honly, hsub⟩ := h.numbers
    refine ⟨c, honly, ?_⟩
    rw [hsince]
    exact (sublist_append_right _ _).trans hsub
  tags := by
    rw [hsince]
    exact fun _ _ _ hd => (nomatch hd)

/-- Deliveries to one consumer, in the table of a channel. -/
theorem foldl_recordTag :
    ∀ (ds : List Delivery) (tags : Nat → Option Nat), (∀ d ∈ ds, d.consumerId = c) →
      (tags t = some c ∨ ∃ d ∈ ds, d.channel = ch ∧ d.method.deliveryTag = t) →
      ds.foldl (recordTag ch) tags t = some c := by
  intro ds
  induction ds with
  | nil =>
    rintro tags - (h | ⟨d, hd, -⟩)
    · exact h
    · cases hd
  | cons d ds ih =>
    intro tags hall h
    rw [foldl_cons]
    refine ih _ (fun d' hd' => hall d' (mem_cons_of_mem d hd')) ?_
    have hc := hall d mem_cons_self
    by_cases hd : d.channel = ch ∧ d.method.deliveryTag = t
    · -- this one is recorded now
      left
      rw [recordTag, if_pos hd.1, hd.2, update_self, hc]
    · rcases h with h | ⟨d', hd', hch, ht⟩
      · left
        rw [recordTag]
        split
        · next hch =>
          rw [update_of_ne fun heq => hd ⟨hch, heq.symm⟩]
          exact h
        · exact h
      · rcases mem_cons.mp hd' with rfl | hin
        · exact absurd ⟨hch, ht⟩ hd
        · exact .inr ⟨d', hin, hch, ht⟩

/-- **An answer.** What the output announced is sent, or a part of it. -/
theorem Numbered.answered (h : Numbered k ch ids s session) {e : Executed} {sent : List Delivery}
    (hwaiting : s.waiting = [e])
    (hsent : (sent.map announcementOf).Sublist
      (e.output.deliveries.flatMap fun d => announcements (.delivery d)))
    (hsends : Sends session sent session') (he : e.source = k) :
    Numbered k ch ids (s.route e) session' := by
  have hroute : (s.route e).service = (s.service.routeOutput e.source e.output).1 := rfl
  have hpending : pending s =
      e.output.deliveries.flatMap fun d => announcements (.delivery d) := by
    simp [pending, hwaiting]
  have hpending' : pending (s.route e) = [] := by
    simp [pending, System.route, hwaiting]
  obtain ⟨c, honly, hsub⟩ := h.numbers
  rw [hpending] at hsub
  constructor
  case registry =>
    rw [hroute, routeOutput_eq]
    exact h.registry
  case outbox =>
    rw [hroute, routeOutput_eq]
    simp only [outboxAfter, he, true_or, if_true]
    exact h.outbox
  case known => exact h.known
  case numbers =>
    refine ⟨c, honly, ?_⟩
    have hshard : (s.route e).shard = s.shard := by
      change (s.route e).service.shard = _
      rw [hroute, routeOutput_eq]
      rfl
    rw [hshard, hpending', List.append_nil, hsends.since, map_append]
    refine (List.Sublist.append_left ?_ _).trans hsub
    exact (filter_sublist.map _).trans hsent
  case tags =>
    intro tags htags d hd
    rw [hsends.tags] at htags
    obtain ⟨tags0, htags0, rfl⟩ := Option.map_eq_some_iff.mp htags
    -- everything was sent to the one consumer
    have hall : ∀ d ∈ session.sinceOpen ch ++ sent, d.consumerId = c := by
      intro d' hd'
      have hin : announcementOf d' ∈ (session.sinceOpen ch).map announcementOf ++
          e.output.deliveries.flatMap fun d => announcements (.delivery d) := by
        rcases mem_append.mp hd' with hd' | hd'
        · exact mem_append_left _ (mem_map_of_mem hd')
        · exact mem_append_right _ (hsent.subset (mem_map_of_mem hd'))
      exact consumerId_of_latest (hsub.subset hin)
    rw [hsends.since] at hd
    have hdc : d.consumerId = c := hall d
      (mem_append.mpr ((mem_append.mp hd).imp_right fun h => (mem_filter.mp h).1))
    rw [hdc]
    refine foldl_recordTag sent tags0 (fun d' hd' => hall d' (mem_append_right _ hd')) ?_
    rcases mem_append.mp hd with hold | hnew
    · left
      rw [h.tags tags0 htags0 d hold, hdc]
    · obtain ⟨hin, hch⟩ := mem_filter.mp hnew
      exact .inr ⟨d, hin, by simpa using hch, rfl⟩

/-- A step of the service that concerns neither the shard nor what waits. -/
theorem Numbered.congr (h : Numbered k ch ids s session)
    (hregistry : ∀ c j, s'.service.registry c = some j → j = k)
    (houtbox : s'.service.outboxes k = []) (howner : s'.owner = s.owner)
    (hwaiting : s'.waiting = s.waiting) (hshard : s'.shard = s.shard) :
    Numbered k ch ids s' session where
  registry := hregistry
  outbox := houtbox
  known := by rw [howner]; exact h.known
  numbers := by
    obtain ⟨c, honly, hsub⟩ := h.numbers
    refine ⟨c, by rw [howner]; exact honly, ?_⟩
    rw [pending, hwaiting, hshard]
    exact hsub
  tags := h.tags

theorem ne_none_of_seat (hledger : Ledger s) : s.shard.view.seat c ≠ none ↔ s.owner c ≠ none := by
  rw [← Option.isSome_iff_ne_none, ← Option.isSome_iff_ne_none, hledger.live]

/-- A control command may drive a queue as far as the numbers go. -/
theorem Numbered.control (h : Numbered k ch ids s session) (hledger : Ledger s)
    (cmd : AmqpControlCommand) : Numbered k ch ids (s.step store (.control cmd)) session := by
  have hreach : Reaches (fun a => a.plain = true) s.shard (s.step store (.control cmd)).shard :=
    reaches_control store s.service.broker cmd
  obtain ⟨c, honly, hsub⟩ := h.numbers
  obtain ⟨-, es, -, hsub'⟩ := Reaches.onlyConsumer hledger.sound.coherent hreach False
    (fun a j ha hrep => absurd hrep (not_reports_of_plain ha _ _))
    (fun a j ha hrep => absurd hrep (not_reports_of_plain ha _ _))
    (fun j hj => honly j ((ne_none_of_seat hledger).mp hj)) False.elim hsub
  exact ⟨h.registry, h.outbox, h.known,
    ⟨c, honly, (sublist_append_left _ _).trans hsub'⟩, h.tags⟩

/-- **A command is executed.** It may start a consumer only if there is
none and nothing was sent. -/
theorem Numbered.execute (h : Numbered k ch ids s session) (hledger : Ledger s)
    (hwaiting : s.waiting = [])
    (hstarts : ∀ c ∈ cmd.starts, c ∈ ids ∧ (∀ c' ∈ cmd.starts, c' = c) ∧ cmd.cancels = [] ∧
      Fresh ch s session) : Numbered k ch ids (s.execute store k cmd) session := by
  obtain ⟨hreach, es, hsink, hout⟩ := s.service.performs_execute store cmd
  obtain ⟨es', htracked, hout', howner, hwaiting'⟩ := hledger.executed store k cmd
  have hpending : pending s = [] := by simp [pending, hwaiting]
  have hpending' : pending (s.execute store k cmd) = announced es := by
    rw [announced_eq, ← hout]
    simp [pending, hwaiting', hwaiting]
  -- the consumer that is there, or the one that is started
  obtain ⟨c, hc, honly, hsub⟩ : ∃ c, (∀ c' ∈ cmd.starts, c' = c ∧ Fresh ch s session) ∧
      (∀ c', s.owner c' ≠ none → c' = c) ∧
      ((session.sinceOpen ch).map announcementOf).Sublist (latest c s.shard.sink) := by
    by_cases hnil : cmd.starts = []
    · obtain ⟨c, honly, hsub⟩ := h.numbers
      rw [hpending, List.append_nil] at hsub
      exact ⟨c, by simp [hnil], honly, hsub⟩
    · obtain ⟨c, hc⟩ := exists_mem_of_ne_nil _ hnil
      obtain ⟨-, hsame, -, hfresh⟩ := hstarts c hc
      refine ⟨c, fun c' hc' => ⟨hsame c' hc', hfresh⟩, fun c' hc' => absurd (hfresh.1 c') hc', ?_⟩
      rw [hfresh.2]
      exact nil_sublist _
  obtain ⟨honly', es1, hsink1, hsub'⟩ := Reaches.onlyConsumer hledger.sound.coherent hreach
    (cmd.starts ≠ [])
    (fun a j ha hrep => ⟨(hc j (ha.starts hrep)).1, ne_nil_of_mem (ha.starts hrep)⟩)
    (fun a j ha hrep hfresh => by
      obtain ⟨c', hc'⟩ := exists_mem_of_ne_nil _ hfresh
      have hin := ha.cancels hrep
      rw [(hstarts c' hc').2.2.1] at hin
      cases hin)
    (fun j hj => honly j ((ne_none_of_seat hledger).mp hj))
    (fun hfresh => by
      obtain ⟨c', hc'⟩ := exists_mem_of_ne_nil _ hfresh
      obtain ⟨-, hnone, hempty⟩ := hc c' hc'
      refine ⟨?_, by rw [hempty]; rfl⟩
      by_contra hne
      exact (ne_none_of_seat hledger).mp hne (hnone c)) hsub
  obtain rfl : es1 = es := append_cancel_left (hsink1.symm.trans hsink)
  constructor
  case registry => exact h.registry
  case outbox => exact h.outbox
  case known =>
    intro c' hc'
    rw [howner] at hc'
    rcases htracked.changes c' with heq | ⟨hin, -⟩ | ⟨-, heq⟩
    · rw [heq] at hc'
      exact h.known c' hc'
    · exact (hstarts c' hin).1
    · exact absurd heq hc'
  case numbers =>
    refine ⟨c, fun c' hc' => ?_, ?_⟩
    · have hseat := (ne_none_of_seat (hledger.execute store k cmd)).mpr hc'
      exact honly' c' hseat
    · rw [hpending']
      exact hsub'
  case tags => exact h.tags

end

/-! ## One step of the session -/

/-- The invariant of the session of connection `k`. -/
structure SoloOk (k ch : Nat) (ids : List Nat) (s : System σ) (p : AmqpServerSession) : Prop where
  numbered : Numbered k ch ids s p.session
  ask : StartsAlone ch ids s p.session p.ask

/-- Only connection `k` calls the service. -/
structure Solo (k : Nat) (s : System σ) : Prop where
  once : Once s
  calls : ∀ call ∈ s.calls, call.source = k ∧ ∀ u ∈ call.updates, u ∈ call.cmd.updates k
  waiting : ∀ e ∈ s.waiting, e.source = k

section

variable {k ch : Nat} {ids ids' : List Nat} {s s' : System σ} {p p' : AmqpServerSession}
  {store : ShardStorage σ} {order : HashOrder}

theorem Solo.waiting_nil (h : Solo k s) {call : Call} (hcall : call ∈ s.calls) :
    s.waiting = [] := by
  refine eq_nil_iff_forall_not_mem.mpr fun e he => h.once.apart hcall he ?_
  rw [h.waiting e he, (h.calls call hcall).1]

theorem Solo.waiting_eq (h : Solo k s) {e : Executed} (he : e ∈ s.waiting) : s.waiting = [e] := by
  have hnodup : (s.waiting.map Executed.source).Nodup := (nodup_append.mp h.once).2.1
  have hsame := h.waiting
  match hw : s.waiting, he with
  | [e'], he => rw [mem_singleton.mp he]
  | e1 :: e2 :: rest, _ =>
    rw [hw] at hnodup hsame
    have h1 := hsame e1 mem_cons_self
    have h2 := hsame e2 (mem_cons_of_mem _ mem_cons_self)
    simp [h1, h2] at hnodup

theorem register_updates {j : Nat} (h : RegistryUpdate.register c j ∈ cmd.updates k) : j = k := by
  cases cmd with
  | ingress _ => cases h
  | shard batch =>
    cases batch with
    | consume items =>
      obtain ⟨item, -, heq⟩ := mem_map.mp h
      exact (RegistryUpdate.register.inj heq).2.symm
    | cancel items =>
      obtain ⟨item, -, heq⟩ := mem_map.mp h
      cases heq
    | _ => cases h

theorem Numbered.track (h : Numbered k ch ids s session) {u : RegistryUpdate}
    (hu : u ∈ cmd.updates k) (calls : List Call) :
    Numbered k ch ids { s with service := s.service.updateRegistry u, calls := calls } session := by
  cases u with
  | register c j =>
    obtain rfl := register_updates hu
    refine h.congr (fun c' i hi => ?_) h.outbox rfl rfl rfl
    by_cases hc : c' = c
    · subst hc
      simpa [updateRegistry, eq_comm] using hi
    · exact h.registry c' i (by simpa [updateRegistry, hc] using hi)
  | unregister c =>
    refine h.congr (fun c' i hi => ?_) h.outbox rfl rfl rfl
    by_cases hc : c' = c
    · subst hc
      simp [updateRegistry] at hi
    · exact h.registry c' i (by simpa [updateRegistry, hc] using hi)

/-- What a plain outcome leaves to do starts nobody. -/
theorem startsAlone_plain {r : AmqpSession × Outcome} (hplain : r.2.plain = true) :
    StartsAlone ch ids s session (p.resume r).ask := by
  obtain ⟨session', outcome⟩ := r
  cases outcome with
  | ask call =>
    cases call with
    | control cmd reply => cases reply <;> trivial
    | command cmd reply => cases hplain
    | _ => trivial
  | _ => trivial

/-- A command that starts nobody. -/
theorem startsAlone_command (hcmd : cmd.starts = []) (reply : CommandReply) :
    StartsAlone ch ids s session (some (.command cmd reply)) := by
  intro c hc
  rw [hcmd] at hc
  cases hc

/-- **A step of a call** that is not the last one. -/
theorem SoloOk.waits (h : SoloOk k ch ids s p) (hask : p.ask = some (.command cmd reply))
    (hledger : Ledger s) (hsolo : Solo k s) (hserves : Serves store s k cmd s' none) :
    SoloOk k ch ids s' p := by
  have hstarts := h.ask
  rw [hask] at hstarts
  cases hserves with
  | call hidle =>
    refine ⟨h.numbered.congr h.numbered.registry h.numbered.outbox rfl rfl rfl, ?_⟩
    rw [hask]
    exact hstarts
  | track u us hcall =>
    refine ⟨h.numbered.track ((hsolo.calls _ hcall).2 u mem_cons_self) _, ?_⟩
    rw [hask]
    exact hstarts
  | execute hcall =>
    have hnil := hsolo.waiting_nil hcall
    obtain ⟨es, -, -, -, hwaiting⟩ := hledger.executed store k cmd
    refine ⟨h.numbered.execute hledger hnil fun c hc => ?_, ?_⟩
    · obtain ⟨hin, hsame, hcancels, hfresh⟩ := hstarts c hc
      exact ⟨hin, hsame, hcancels, hfresh hnil⟩
    · rw [hask]
      intro c hc
      obtain ⟨hin, hsame, hcancels, -⟩ := hstarts c hc
      refine ⟨hin, hsame, hcancels, fun hempty => ?_⟩
      rw [hwaiting] at hempty
      simp at hempty

/-- The last step of a call, as the connection sees it. -/
theorem Solo.answer (hsolo : Solo k s) {output : ShardOutputBatch}
    (hregistry : ∀ c j, s.service.registry c = some j → j = k)
    (hserves : Serves store s k cmd s' (some output)) :
    ∃ e, s.waiting = [e] ∧ e.source = k ∧ s' = s.route e ∧
      output.deliveries = e.output.deliveries := by
  cases hserves with
  | route e he hcalls =>
    have hin := mem_of_find?_eq_some he
    have hk := hsolo.waiting e hin
    refine ⟨e, hsolo.waiting_eq hin, hk, rfl, ?_⟩
    -- whoever is registered is the caller
    rw [routeOutput_eq]
    refine filter_eq_self.mpr fun d _ => ?_
    simp only [routeTarget, decide_eq_true_eq, hk]
    cases hreg : s.service.registry d.consumerId with
    | none => rfl
    | some j => exact hregistry _ j hreg

/-- **A frame.** -/
theorem SoloOk.frame {f : Frame} (h : SoloOk k ch ids s ⟨session, f :: rest, none, draining⟩)
    {r : AmqpSession × Outcome} (hh : AmqpSession.Handles order session f r) (hids : ids ⊆ ids')
    (hissued : ∀ y ∈ issues r.2, y.1 ∈ ids' ∧ Fresh ch s session) :
    SoloOk k ch ids' s (resume ⟨session, rest, none, draining⟩ r) := by
  have hnum : Numbered k ch ids' s session := h.numbered.same rfl rfl hids
  cases hh with
  | plain f r hsame hplain =>
    refine ⟨?_, startsAlone_plain hplain⟩
    rw [resume_session]
    exact hnum.same (congrFun hsame.since ch) (congrFun hsame.tags ch) fun _ hc => hc
  | opened channel text =>
    refine ⟨?_, trivial⟩
    simp only [resume]
    by_cases hch : channel = ch
    · -- nothing was sent since
      subst hch
      refine hnum.reopened ?_
      simp [AmqpSession.sinceOpen, AmqpSession.sendMethod, trackOpen, AmqpMethod.isOpenOk]
    · refine hnum.same ?_ ?_ fun _ hc => hc
      · simp [AmqpSession.sinceOpen, AmqpSession.sendMethod, trackOpen, hch]
      · simp [AmqpSession.tagsOf, AmqpSession.sendMethod, Ne.symm hch]
  | consume channel st m hopen hack =>
    obtain ⟨hin, hfresh⟩ := hissued _ rfl
    refine ⟨hnum.same (by rfl) ?_ fun _ hc => hc, hin, hfresh.same rfl (by rfl)⟩
    exact congrFun (AmqpSession.tagsOf_mapChannel session channel (by intro c; rfl)) ch
  | cancel channel st tag noWait id hopen hget =>
    exact ⟨hnum, startsAlone_command rfl _⟩
  | settle channel st m tag cmd id hm hopen hid =>
    exact ⟨hnum, startsAlone_command (starts_settles hm id) _⟩

/-- **Every step of the session keeps the invariant.** -/
theorem SoloOk.step (h : SoloOk k ch ids s p) (hledger : Ledger s) (hsolo : Solo k s)
    (hserves : ∀ cmd reply, p.ask = some (.command cmd reply) →
      Serves store s k cmd (serve store s k cmd).1 (serve store s k cmd).2)
    (hids : ids ⊆ ids')
    (hissued : ∀ x ∈ (Peer.amqp p).nextFrame, ∀ y ∈ issues (x.1.onFrame order x.2).2,
      y.1 ∈ ids' ∧ Fresh ch s p.session)
    (hstep : AmqpStep store order s k p s' p') : SoloOk k ch ids' s' p' := by
  have hmono : ∀ {s : System σ} {p : AmqpServerSession}, SoloOk k ch ids s p →
      SoloOk k ch ids' s p := by
    rintro s ⟨session, inbox, ask, draining⟩ ⟨hnum, hask⟩
    refine ⟨hnum.same rfl rfl hids, ?_⟩
    cases ask with
    | none => trivial
    | some call =>
      cases call with
      | control cmd reply => cases reply <;> first | trivial | exact ⟨hids hask.1, hask.2⟩
      | command cmd reply => exact fun c hc => ⟨hids (hask c hc).1, (hask c hc).2⟩
      | _ => trivial
  have hnum : Numbered k ch ids' s p.session := h.numbered.same rfl rfl hids
  -- a session that differs in its replies
  have hsame : ∀ {s : System σ} {session session' : AmqpSession}, Same session session' →
      Numbered k ch ids' s session → Numbered k ch ids' s session' := fun hsame hn =>
    hn.same (congrFun hsame.since ch) (congrFun hsame.tags ch) fun _ hc => hc
  cases hstep with
  | idle session => exact hmono h
  | frame session f rest draining hh => exact h.frame hh hids (hissued _ rfl)
  | drain session session' sent hpre hsends =>
    -- the outbox was empty
    have hsent : sent = [] := by
      simpa [drainConnectionOutputs, h.numbered.outbox, ShardOutputBatch.empty]
        using hpre
    subst hsent
    refine ⟨?_, trivial⟩
    have hdrained : Numbered k ch ids' (s.step store (.drain k)) session := by
      simp only [System.step]
      split
      · exact hnum.congr hnum.registry (update_self ..) rfl rfl rfl
      · exact hnum
    refine hdrained.same (by simp [hsends.since]) ?_ fun _ hc => hc
    rw [hsends.tags]
    simp
  | replied session session' inbox cmd reply draining hs =>
    exact ⟨hsame hs (hnum.control hledger cmd), trivial⟩
  | consuming session inbox cmd channel tag id queueId prefetch draining =>
    obtain ⟨hin, hfresh⟩ := (hmono h).ask
    refine ⟨hnum.control hledger cmd, fun c hc => ?_⟩
    obtain rfl : c = id := mem_singleton.mp hc
    exact ⟨hin, fun c' hc' => mem_singleton.mp hc', rfl, fun _ => hfresh.same rfl rfl⟩
  | resolve session inbox q draining => exact ⟨hnum, trivial⟩
  | unrouted session session' inbox q draining hs => exact ⟨hsame hs hnum, trivial⟩
  | publish session session' inbox call q target draining hcall hs =>
    refine ⟨?_, startsAlone_command rfl _⟩
    exact (hsame hs hnum).same (by rfl) (by rfl) fun _ hc => hc
  | waits session inbox cmd reply draining hnone =>
    have hcall := hserves cmd reply rfl
    rw [hnone] at hcall
    exact hmono (h.waits rfl hledger hsolo hcall)
  | answer session session' inbox inbox' cmd reply channel output sent draining hreply hanswer
      hpre hsends =>
      have hcall := hserves cmd reply rfl
      rw [hanswer] at hcall
      obtain ⟨e, hwaiting, hk, heq, hout⟩ := hsolo.answer hnum.registry hcall
      refine ⟨?_, trivial⟩
      rw [heq]
      refine hnum.answered hwaiting ?_ hsends hk
      rw [← hout, ← map_announcementOf_flatMap session channel]
      exact hpre.sublist.map _
  | cancelled session inbox cmd channel tag output draining hanswer =>
    have hcall := hserves cmd _ rfl
    rw [hanswer] at hcall
    obtain ⟨e, hwaiting, hk, heq, hout⟩ := hsolo.answer hnum.registry hcall
    refine ⟨?_, trivial⟩
    rw [heq]
    have hsent := @Numbered.answered σ session k ch ids' s session hnum e [] hwaiting
      (nil_sublist _) (sends_of_same (.refl session)) hk
    have hsince : (afterCancel session channel tag).sinceOpen = session.sinceOpen :=
      sinceOpen_sendMethod _ _ rfl
    have htags : (afterCancel session channel tag).tagsOf = session.tagsOf :=
      @tagsOf_mapChannel (fun st => { st with consumers := st.consumers.remove tag })
        session channel fun _ => rfl
    exact hsent.same (congrFun hsince ch) (congrFun htags ch) fun _ hc => hc

end

/-! ## Runs -/

/-- **The invariant of a server with one connection.** Before it is
accepted, the connection counts as one that did nothing. -/
structure TagsOk (k ch : Nat) (w : Watched σ) : Prop where
  aligned : Aligned w.server
  alone : ∀ j, j ≠ k → w.server.peers j = none
  session : ∃ p, (w.server.peers k).getD (.amqp .new) = .amqp p ∧
    SoloOk k ch (w.origins.map Prod.fst) w.server.system p

section

variable {k ch : Nat} {w : Watched σ} {store : ShardStorage σ} {order : Nat → HashOrder}

theorem TagsOk.solo (h : TagsOk k ch w) : Solo k w.server.system := by
  have hk : ∀ {j p}, w.server.peers j = some p → j = k := by
    intro j p hp
    by_contra hne
    rw [h.alone j hne] at hp
    cases hp
  refine ⟨h.aligned.once, fun call hcall => ?_, fun e he => ?_⟩
  · obtain ⟨⟨p, hp, -⟩, hupdates⟩ := h.aligned.calls call hcall
    have hsource := hk hp
    exact ⟨hsource, hsource ▸ hupdates⟩
  · obtain ⟨p, cmd, hp, -⟩ := h.aligned.waiting e he
    exact hk hp

/-- What the session is, once it is there. -/
theorem TagsOk.soloOk (h : TagsOk k ch w) {q : Peer} (hq : w.server.peers k = some q) :
    ∃ p, q = .amqp p ∧ SoloOk k ch (w.origins.map Prod.fst) w.server.system p := by
  obtain ⟨p, hp, hok⟩ := h.session
  rw [hq] at hp
  exact ⟨p, hp, hok⟩

/-- Who has no id has no consumer. -/
theorem SoloOk.fresh {s : System σ} {p : AmqpServerSession}
    {origins : List (Nat × Nat × ShortStr)} (h : SoloOk k ch (origins.map Prod.fst) s p)
    (hnone : ∀ y ∈ origins, s.owner y.1 = none) (hsince : p.session.sinceOpen ch = []) :
    Fresh ch s p.session := by
  refine ⟨fun c => ?_, hsince⟩
  by_contra hc
  obtain ⟨y, hy, rfl⟩ := mem_map.mp (h.numbered.known c hc)
  exact hc (hnone y hy)

/-- An act that puts the connection into a state. -/
theorem TagsOk.put (h : TagsOk k ch w) {system : System σ} {p' : AmqpServerSession}
    {origins : List (Nat × Nat × ShortStr)}
    (hm : Moves store w.server k (w.server.put k system (.amqp p')))
    (hok : SoloOk k ch (origins.map Prod.fst) system p') :
    TagsOk k ch ⟨w.server.put k system (.amqp p'), origins⟩ where
  aligned := h.aligned.moves hm
  alone := fun j hj => by
    simp only [BrokerServer.put, update_of_ne hj]
    exact h.alone j hj
  session := ⟨p', by simp [BrokerServer.put], hok⟩

/-- **Every act of the session keeps the invariant.** -/
theorem TagsOk.step (h : TagsOk k ch w) {a : Act} (hcond : ConsumesAlone order k ch w a)
    (ha : a.ofSession k = true) : TagsOk k ch (w.step store order k a) := by
  have hacts := @acts_step σ store order w.server a
  have hmoves := hacts.moves
  generalize hs' : w.server.step store order a = s' at hacts hmoves
  cases hacts with
  | stays a hnone =>
    have hissued : issued order k w.server a = none := by
      cases a with
      | advance j =>
        obtain rfl : j = k := by simpa [Act.ofSession] using ha
        simp [issued, hnone j rfl]
      | _ => rfl
    rw [Watched.step, hs', hissued]
    exact h
  | accepts j amqp hnone =>
    obtain ⟨rfl, rfl⟩ : j = k ∧ amqp = true := by simpa [Act.ofSession] using ha
    obtain ⟨p, hp, hok⟩ := h.session
    rw [hnone] at hp
    obtain rfl : AmqpServerSession.new = p := by simpa using hp
    rw [Watched.step, hs']
    exact h.put hmoves hok
  | receives j frames session hp =>
    obtain rfl : j = k := by simpa [Act.ofSession] using ha
    obtain ⟨p, hpeq, hok⟩ := h.soloOk hp
    obtain rfl := Peer.amqp.inj hpeq
    rw [Watched.step, hs']
    exact h.put hmoves ⟨hok.numbered, hok.ask⟩
  | receivesNative j frames inbound out hp => cases ha
  | advancesNative j p hp =>
    obtain rfl : j = k := by simpa [Act.ofSession] using ha
    obtain ⟨q, hq, -⟩ := h.soloOk hp
    cases hq
  | advances j p hq =>
    obtain rfl : j = k := by simpa [Act.ofSession] using ha
    obtain ⟨q, hpeq, hok⟩ := h.soloOk hq
    obtain rfl := Peer.amqp.inj hpeq
    obtain ⟨system, p', hstep, heq⟩ := amqpStep store (order j) hq
    rw [heq] at hmoves hs'
    rw [Watched.step, hs']
    refine h.put hmoves (hok.step h.aligned.ledger h.solo (fun cmd reply hask => ?_)
      (fun c hc => ?_) (fun x hx y hy => ?_) hstep)
    · refine h.aligned.serves hq ?_
      obtain ⟨session, inbox, ask, draining⟩ := p
      obtain rfl : ask = some (.command cmd reply) := hask
      rfl
    · rw [map_append]
      exact mem_append_right _ hc
    · have hbind : x ∈ (w.server.peers j).bind Peer.nextFrame := by
        rw [hq]
        exact hx
      have hissued : issued order j w.server (.advance j) = some y := by
        simp only [issued, if_true, Option.mem_def.mp hbind]
        exact hy
      refine ⟨?_, ?_⟩
      · rw [hissued, Option.toList_some, map_append]
        exact mem_append_left _ mem_cons_self
      · have hne : issues (x.1.onFrame (order j) x.2).2 ≠ none := by
          rw [Option.mem_def.mp hy]
          simp
        obtain ⟨hnone, hsince⟩ := hcond x hbind hne
        refine hok.fresh hnone ?_
        simpa only [sentSinceOpen, hq] using hsince

/-! ## Settlements -/

theorem onFrame_method (order : HashOrder) (session : AmqpSession) (m : AmqpMethod) :
    session.onFrame order (.method ch (some m)) =
      if !session.protocolHeaderSeen then (session, .failed .protocol)
      else if ch = 0 then session.onConnectionMethod m
      else session.onChannelMethod order ch m := rfl

/-- A settlement asks for the consumer of its tag. -/
theorem onFrame_settles {order : HashOrder} {st : AmqpChannelState} {m : BasicMethod} {id : Nat}
    {cmd : Nat → ShardCommandBatch} (hready : Ready session ch)
    (hopen : session.openChannel ch = some st) (hm : m.settles = some (t, cmd))
    (hid : st.deliveryConsumers t = some id) :
    session.onFrame order (.method ch (some (.basic m))) =
      (session, .ask (.command (.shard (cmd id)) (.emitted ch))) := by
  obtain ⟨hheader, hphase, hch, -⟩ := hready
  have hconsumer : consumerForDeliveryTag order st t = some id := by
    simp [consumerForDeliveryTag, hid]
  cases m with
  | ack _ _ | nack _ _ _ | reject _ _ =>
    obtain ⟨rfl, rfl⟩ := Prod.mk.inj (Option.some.inj hm)
    simp [onFrame_method, hheader, hch, onChannelMethod, hphase,
      needsOpen, hopen, onOpenChannel, onSettle, hconsumer]
  | _ => cases hm

/-- **A settlement of one tag settles the message held under it.** -/
theorem settlesOne_givesUp {m : BasicMethod} {requeue : Bool}
    (hm : settlesOne m = some (t, requeue)) :
    ∃ cmd, m.settles = some (t, cmd) ∧
      (∀ c, (BrokerCommandBatch.shard (cmd c)).updates k = []) ∧
      ∀ {shard : InMemoryShardExecutor σ} {c q x : Nat}, Sound shard → shard.Holds c q t x →
        ∃ shard', GivesUp c q t x requeue shard shard' ∧
          Reaches (fun a => a.plain = true) shard' (shard.execute store (cmd c)) := by
  have hreason : ∀ requeue : Bool,
      decide (toReason (requeueDisposition requeue) = .requeue) = requeue := by decide
  match m, hm with
  | .ack _ false, rfl =>
    exact ⟨_, rfl, fun _ => rfl, fun hs hx => execute_ack_one store hs.coherent hx⟩
  | .nack _ false requeue, rfl =>
    refine ⟨_, rfl, fun _ => rfl, fun hs hx => ?_⟩
    have h := execute_nack_one store hs.coherent hx
      (requeueDisposition requeue)
    rwa [hreason] at h
  | .reject _ requeue, rfl =>
    refine ⟨_, rfl, fun _ => rfl, fun hs hx => ?_⟩
    have h := execute_nack_one store hs.coherent hx
      (requeueDisposition requeue)
    rwa [hreason] at h

/-- Three steps of a connection: the frame, the call and its execution. -/
theorem shard_settled {s : BrokerServer σ} (h : Aligned s) {session' : AmqpSession} {f : Frame}
    {batch : ShardCommandBatch}
    (hp : s.peers k = some (.amqp ⟨session, f :: rest, none, draining⟩))
    (hf : session.onFrame (order k) f = (session', .ask (.command (.shard batch) reply)))
    (hupdates : (BrokerCommandBatch.shard batch).updates k = []) :
    (s.run store order [.advance k, .advance k, .advance k]).system.shard =
      s.system.shard.execute store batch := by
  obtain ⟨hcalls, hwaiting⟩ := h.free (no_command hp rfl)
  have hframe : s.step store order (.advance k) = s.put k s.system
      (.amqp ⟨session', rest, some (.command (.shard batch) reply), draining⟩) := by
    simp only [BrokerServer.step, hp, BrokerServer.advanceAmqp, hf]
    rfl
  let called : System σ :=
    { s.system with calls := s.system.calls ++ [⟨k, [], .shard batch⟩] }
  have hcall : serve store s.system k (.shard batch) = (called, none) := by
    have hidle : s.system.Idle k := ⟨hcalls, hwaiting⟩
    rw [serve, if_pos hidle, System.step, if_pos hidle, hupdates]
  have hexecute : serve store called k (.shard batch) =
      (called.execute store k (.shard batch), none) := by
    have hfind : called.calls.find? (fun call => call.source = k) = some ⟨k, [], .shard batch⟩ := by
      rw [find?_append, find?_eq_none.mpr fun call hin => by simpa using hcalls call hin]
      simp
    have hbusy : ¬ called.Idle k := fun hidle =>
      hidle.1 ⟨k, [], .shard batch⟩ (by simp [called]) rfl
    rw [serve, if_neg hbusy]
    simp only [hfind, System.step]
  have hsecond : ∀ (system : System σ) (p : AmqpServerSession) (system' : System σ),
      p.ask = some (.command (.shard batch) reply) →
      serve store system k (.shard batch) = (system', none) →
      BrokerServer.step store order (s.put k system (.amqp p)) (.advance k) =
        s.put k system' (.amqp p) := by
    rintro system ⟨session, inbox, ask, draining⟩ system' rfl heq
    simp [BrokerServer.step, BrokerServer.put, BrokerServer.advanceAmqp, heq]
  simp only [BrokerServer.run, foldl_cons, foldl_nil, hframe,
    hsecond _ ⟨session', rest, some (.command (.shard batch) reply), draining⟩ _ rfl hcall,
    hsecond _ ⟨session', rest, some (.command (.shard batch) reply), draining⟩ _ rfl hexecute]
  rfl

theorem TagsOk.settles (h : TagsOk k ch w) {d : Delivery}
    (hd : d ∈ sentSinceOpen w.server k ch) : SettlesDelivery store order k ch w.server d := by
  intro session rest draining m t requeue hp hready hm ht hx
  obtain ⟨p, hpeq, hok⟩ := h.soloOk hp
  obtain rfl := Peer.amqp.inj hpeq
  obtain ⟨cmd, hsettles, hupdates, hgives⟩ := @settlesOne_givesUp σ t k store m requeue hm
  obtain ⟨st, hopen⟩ := Option.isSome_iff_exists.mp hready.2.2.2
  -- the channel remembers whom the tag was sent for
  have htags : session.tagsOf ch = some st.deliveryConsumers := by
    simp [AmqpSession.tagsOf, openChannel_some hopen]
  have hid : st.deliveryConsumers t = some d.consumerId := by
    rw [← ht]
    refine hok.numbered.tags _ htags d ?_
    simpa only [sentSinceOpen, hp] using hd
  rw [shard_settled h.aligned hp (onFrame_settles hready hopen hsettles hid) (hupdates _)]
  exact hgives h.aligned.ledger.sound hx

theorem TagsOk.nodup (h : TagsOk k ch w) :
    ((sentSinceOpen w.server k ch).map fun d => d.method.deliveryTag).Nodup := by
  cases hq : w.server.peers k with
  | none => simp [sentSinceOpen, hq]
  | some q =>
    obtain ⟨p, rfl, hok⟩ := h.soloOk hq
    obtain ⟨c, -, hsub⟩ := hok.numbered.numbers
    -- the tags of one incarnation count up from 1
    have hlatest : ((latest c w.server.system.shard.sink).map Announcement.tag).Nodup := by
      have htags := h.aligned.ledger.sound.logged.tags c
      cases hinc : incarnations c w.server.system.shard.sink with
      | nil => simp [latest, hinc]
      | cons inc incs =>
        rw [latest, hinc, headD_cons, htags inc (by rw [hinc]; exact mem_cons_self)]
        exact nodup_range'
    have hsent := ((sublist_append_left _ _).trans hsub).map Announcement.tag
    rw [map_map] at hsent
    simp only [sentSinceOpen, hq]
    exact hsent.nodup hlatest

end

/-- **The delivery tags of a channel.** In every run of one session that
meets the condition, the tags sent on a channel since it was opened are
distinct, and a settlement of one of them settles the message that was
delivered under it, at its consumer, if it is outstanding there. -/
theorem channel_tags (store : ShardStorage σ) (order : Nat → HashOrder)
    {routing : RoutingBootstrapConfig} {durable : Option σ} {broker : SingleNodeBroker σ}
    (hnew : SingleNodeBroker.new routing durable = .ok broker) {k ch : Nat} {acts : List Act}
    (hacts : ∀ a ∈ acts, a.ofSession k = true)
    (hmeets : Meets (Watched.step store order k) (ConsumesAlone order k ch)
      ⟨.new broker, []⟩ acts) :
    let s := (Watched.run store order k ⟨.new broker, []⟩ acts).server
    ((sentSinceOpen s k ch).map fun d => d.method.deliveryTag).Nodup ∧
      ∀ d ∈ sentSinceOpen s k ch, SettlesDelivery store order k ch s d := by
  have hinit : TagsOk k ch (⟨.new broker, []⟩ : Watched σ) := by
    refine ⟨aligned_new (SingleNodeBroker.new_shard hnew), fun _ _ => rfl, .new, rfl, ?_, trivial⟩
    refine ⟨fun _ _ hc => (nomatch hc), rfl, fun c hc => absurd rfl hc, ⟨0, ?_, ?_⟩, ?_⟩
    · exact fun c hc => absurd rfl hc
    · exact nil_sublist _
    · exact fun _ htags => (nomatch htags)
  have hrun := (hmeets.and hacts).invariant
    (fun w a (h : TagsOk k ch w) hcond => h.step hcond.1 hcond.2) hinit
  exact ⟨hrun.nodup, fun d hd => hrun.settles hd⟩

/-- `basic.ack` of one tag. -/
def ackFrame (channel tag : Nat) : Frame := .method channel (some (.basic (.ack tag false)))

/-- A session with one consumer, two messages, and an ack of the second. -/
def oneConsumer : List Act :=
  .accept 1 true :: talks 1 (handshake ++ [openFrame 1, declareFrame 1, consumeFrame 1 [97]] ++
    publishFrames 1 [5] ++ publishFrames 1 [6]) ++ [.receive 1 [ackFrame 1 2]]

/-- The tags are 1 and 2, and the ack that comes next finds the second
message outstanding. -/
theorem channel_tags_one_consumer :
    let s := (Watched.run .null (fun _ => .insertion) 1 ⟨.new .dev, []⟩ oneConsumer).server
    (sentSinceOpen s 1 1).map (fun d => (d.method.deliveryTag, d.queueId, d.seq)) =
        [(1, 1, 0), (2, 1, 1)] ∧
      ((s.peers 1).bind Peer.nextFrame).map Prod.snd = some (ackFrame 1 2) ∧
      s.system.shard.Holds 1 1 2 1 ∧
      ((sentSinceOpen s 1 1).map fun d => d.method.deliveryTag).Nodup ∧
      ∀ d ∈ sentSinceOpen s 1 1, SettlesDelivery .null (fun _ => .insertion) 1 1 s d :=
  ⟨by decide +kernel, by decide +kernel, by decide +kernel,
    @channel_tags _ .null (fun _ => .insertion) _ _ _ SingleNodeBroker.new_dev 1 1 oneConsumer
      (by decide +kernel) (by decide +kernel)⟩

/-- Two consumers on channel 1 are both sent tag 1, and the ack of the
first message settles the second. -/
theorem second_consumer_reuses_tag :
    let acts := .accept 1 true :: talks 1 (handshake ++ [openFrame 1, declareFrame 1,
      consumeFrame 1 [97], consumeFrame 1 [98]] ++ publishFrames 1 [5] ++ publishFrames 1 [6])
    let s := (Watched.run .null (fun _ => .insertion) 1 ⟨.new .dev, []⟩ acts).server
    let s' := s.run .null (fun _ => .insertion) (talks 1 [ackFrame 1 1])
    (sentSinceOpen s 1 1).map (fun d => (d.method.deliveryTag, d.consumerId, d.seq)) =
        [(1, 1, 0), (1, 2, 1)] ∧
      s'.system.shard.stateOf 1 0 = some .inflight ∧
      s'.system.shard.stateOf 1 1 = some .acked := by
  decide +kernel

end Aurum.Server
