import Aurum.Server.Sessions

/-!
# Server — deliveries and channels

A session is told on which channel a command came in, and sends all the
deliveries the command caused there; what other connections caused goes to
channel 1. Nothing looks at the channel a consumer was started on, and its
tag is looked up on the channel that is used. `deliveries_on_channel` says
when that is the channel of the consumer; `publish_channel_delivers` shows
a message that goes out on the channel of its publisher.
-/

namespace Aurum.Server

open Aurum.Runs Aurum.Protocol Aurum.Broker Aurum.Service Aurum.Amqp List AmqpSession Option
open ConsumerTagMap

variable {σ : Type}

/-! ## Definitions -/

/-- The step of the service that the call `cmd` of connection `k` takes. -/
def serveStep (s : System σ) (k : Nat) (cmd : BrokerCommandBatch) : Step :=
  if s.Idle k then .call k cmd
  else
    match s.calls.find? (·.source = k) with
    | some ⟨_, _ :: _, _⟩ => .track k
    | some ⟨_, [], _⟩ => .execute k
    | none => .route k

/-- The consumer a session gives an id to: id, channel and tag. -/
def issues : Outcome → Option (Nat × Nat × ShortStr)
  | .ask (.control _ (.consuming channel tag id)) => some (id, channel, tag)
  | _ => none

/-- The consumer connection `k` is given an id for in an act. -/
def issued (order : Nat → HashOrder) (k : Nat) (s : BrokerServer σ) :
    Act → Option (Nat × Nat × ShortStr)
  | .advance j =>
    if j = k then ((s.peers k).bind Peer.nextFrame).bind fun x =>
      issues (x.1.onFrame (order k) x.2).2
    else none
  | _ => none

/-- A server, and where the consumers of one of its connections come from:
by id, the channel and the tag of the latest `basic.consume`. -/
structure Watched (σ : Type) where
  server : BrokerServer σ
  origins : List (Nat × Nat × ShortStr)

namespace Watched

/-- One act, watched at connection `k`. -/
def step (store : ShardStorage σ) (order : Nat → HashOrder) (k : Nat) (w : Watched σ) (a : Act) :
    Watched σ :=
  ⟨w.server.step store order a, (issued order k w.server a).toList ++ w.origins⟩

/-- A sequence of acts. -/
def run (store : ShardStorage σ) (order : Nat → HashOrder) (k : Nat) (w : Watched σ)
    (acts : List Act) : Watched σ :=
  acts.foldl (step store order k) w

/-- The channel and the tag of a consumer. -/
def origin (w : Watched σ) (c : Nat) : Option (Nat × ShortStr) := w.origins.lookup c

end Watched

/-- The deliveries sent to connection `k` so far. -/
def sentTo (s : BrokerServer σ) (k : Nat) : List Delivery :=
  match s.peers k with
  | some (.amqp p) => p.session.sent
  | _ => []

/-- A delivery for consumer `c` that another connection caused is on its
way to connection `k`. -/
def OnWay (s : System σ) (k c : Nat) : Prop :=
  (∃ d ∈ deliveriesOf (s.service.outboxes k), d.consumerId = c) ∨
    ∃ e ∈ s.waiting, e.source ≠ k ∧ ∃ d ∈ e.ownedBy k, d.consumerId = c

instance (s : System σ) (k c : Nat) : Decidable (OnWay s k c) := inferInstanceAs (Decidable (_ ∨ _))

/-- The channel on which a connection sends the answer to its command. -/
def Peer.replyChannel : Peer → Option Nat
  | .amqp ⟨_, _, some (.command _ reply), _⟩ => reply.channel
  | _ => none

/-- Every live consumer of connection `k` was started on channel `ch`. -/
def OnChannel (k : Nat) (w : Watched σ) (ch : Nat) : Prop :=
  ∀ x ∈ w.origins, w.server.system.owner x.1 = some k → (w.origin x.1).map Prod.fst = some ch

/-- The condition on the commands of connection `j`. They respect the
owners of consumers. A command is executed only if all live consumers of
`k` are on the channel where its output is sent; and a cancelled consumer
is forgotten only when nothing is on its way to it. -/
def CommandSendsHome (k : Nat) (w : Watched σ) (j : Nat) (p : Peer) (cmd : BrokerCommandBatch) :
    Prop :=
  let s := w.server.system
  RespectsOwners s (serveStep s j cmd) ∧
    (serveStep s j cmd = .execute j →
      ∀ ch ∈ (if j = k then p.replyChannel else some 1), OnChannel k w ch) ∧
    (serveStep s j cmd = .route j → j = k → p.replyChannel = none →
      ∀ c ∈ cmd.cancels, ¬ OnWay s k c)

/-- The condition on the frames of connection `k`. A channel is opened
again only when none of its consumers is live or has a delivery on its
way, and so is an id given. -/
def FrameSendsHome (order : Nat → HashOrder) (k : Nat) (w : Watched σ) (session : AmqpSession)
    (f : Frame) : Prop :=
  let s := w.server.system
  (∀ channel ∈ f.opens, ∀ x ∈ w.origins, (w.origin x.1).map Prod.fst = some channel →
      s.owner x.1 ≠ some k ∧ ¬ OnWay s k x.1) ∧
    ∀ x ∈ issues (session.onFrame (order k) f).2, s.owner x.1 = none ∧ ¬ OnWay s k x.1

/-- **What the clients have to respect** for deliveries to go out on the
channel of their consumer. -/
def SendsHome (order : Nat → HashOrder) (k : Nat) (w : Watched σ) : Act → Prop
  | .accept j amqp => j = k → amqp = true
  | .advance j =>
    (∀ p ∈ w.server.peers j, ∀ cmd ∈ p.command, CommandSendsHome k w j p cmd) ∧
      (j = k → ∀ x ∈ (w.server.peers k).bind Peer.nextFrame, FrameSendsHome order k w x.1 x.2)
  | .receive _ _ => True
  | .receiveNative _ _ => True

instance (k : Nat) (w : Watched σ) (ch : Nat) : Decidable (OnChannel k w ch) :=
  inferInstanceAs (Decidable (∀ x ∈ _, _))

instance (k : Nat) (w : Watched σ) (j : Nat) (p : Peer) (cmd : BrokerCommandBatch) :
    Decidable (CommandSendsHome k w j p cmd) := inferInstanceAs (Decidable (_ ∧ _))

instance (order : Nat → HashOrder) (k : Nat) (w : Watched σ) (session : AmqpSession) (f : Frame) :
    Decidable (FrameSendsHome order k w session f) := inferInstanceAs (Decidable (_ ∧ _))

instance (order : Nat → HashOrder) (k : Nat) (w : Watched σ) :
    ∀ a, Decidable (SendsHome order k w a)
  | .accept _ _ => inferInstanceAs (Decidable (_ → _))
  | .advance _ => inferInstanceAs (Decidable (_ ∧ _))
  | .receive _ _ | .receiveNative _ _ => .isTrue trivial

/-! ## The service, seen from one connection -/

/-- A step of the service that brings nothing new for connection `k`. -/
structure Seen (k : Nat) (s s' : System σ) : Prop where
  owner : ∀ c, s'.owner c = some k → s.owner c = some k
  onWay : ∀ c, OnWay s' k c → OnWay s k c
  answer : ∀ e ∈ s'.waiting, e.source = k → e ∈ s.waiting

section

variable {store : ShardStorage σ} {s s' : System σ} {j k : Nat} {cmd : BrokerCommandBatch}
  {answer : Option ShardOutputBatch}

theorem seen_of_eq (howner : s'.owner = s.owner) (hwaiting : s'.waiting = s.waiting)
    (houtboxes : s'.service.outboxes = s.service.outboxes) : Seen k s s' :=
  ⟨fun c hc => howner ▸ hc, fun c hc => by simpa only [OnWay, hwaiting, houtboxes] using hc,
    fun e he _ => hwaiting ▸ he⟩

theorem Seen.refl (s : System σ) : Seen k s s := seen_of_eq rfl rfl rfl

theorem seen_drain (store : ShardStorage σ) (j : Nat) : Seen k s (s.step store (.drain j)) := by
  simp only [System.step]
  split
  · refine ⟨fun c hc => hc, fun c hc => ?_, fun e he _ => he⟩
    refine hc.imp_left fun hsent => ?_
    obtain ⟨d, hd, hdc⟩ := hsent
    refine ⟨d, ?_, hdc⟩
    by_cases hk : k = j
    · simp [BrokerService.drainConnectionOutputs, hk, deliveriesOf] at hd
    · simpa [BrokerService.drainConnectionOutputs, hk] using hd
  · exact .refl s

/-- Routing moves deliveries from one place on their way to another. -/
theorem seen_route (h : OwnersOk s) {e : Executed} (he : e ∈ s.waiting) : Seen k s (s.route e) := by
  have hreaches := h.reaches he
  have hsub : ∀ e' ∈ (s.route e).waiting, e' ∈ s.waiting := by
    simp only [System.route, BrokerService.routeOutput_eq]
    exact fun e' he' => mem_of_mem_eraseP he'
  have howner : (s.route e).owner = s.owner := by
    simp only [System.route, BrokerService.routeOutput_eq]
  refine ⟨fun c hc => howner ▸ hc, fun c hc => ?_, fun e' he' _ => hsub e' he'⟩
  rcases hc with ⟨d, hd, hdc⟩ | ⟨e', he', hne, hd⟩
  · have houtbox : (s.route e).service = (s.service.routeOutput e.source e.output).1 := rfl
    rw [houtbox] at hd
    by_cases hk : k = e.source
    · -- an answer leaves the outbox alone
      rw [BrokerService.routeOutput_eq, BrokerService.deliveriesOf_outboxAfter, if_pos hk,
        List.append_nil] at hd
      exact .inl ⟨d, hd, hdc⟩
    · rw [hreaches.outboxes k hk] at hd
      rcases mem_append.mp hd with hd | hd
      · exact .inl ⟨d, hd, hdc⟩
      · exact .inr ⟨e, he, Ne.symm hk, d, hd, hdc⟩
  · exact .inr ⟨e', hsub e' he', hne, hd⟩

theorem mem_ownedBy {e : Executed} {d : DeliveryEventBatch} :
    d ∈ e.ownedBy k ↔ (d, some k) ∈ e.output.deliveries.zip e.owners := by
  simp [Executed.ownedBy]

/-- **What executing a command of connection `j` brings for `k`**: only
live consumers of `k`, and those the command starts, are concerned. -/
theorem executed_seen (store : ShardStorage σ) (h : Ledger s) (j : Nat) (cmd : BrokerCommandBatch) :
    (∀ c, (s.execute store j cmd).owner c = some k →
      s.owner c = some k ∨ j = k ∧ c ∈ cmd.starts) ∧
    (∀ c, OnWay (s.execute store j cmd) k c → OnWay s k c ∨ j ≠ k ∧ s.owner c = some k) ∧
    ∀ e ∈ (s.execute store j cmd).waiting, e.source = k → e ∈ s.waiting ∨
      j = k ∧ ∀ d ∈ e.ownedBy k, s.owner d.consumerId = some k ∨ d.consumerId ∈ cmd.starts := by
  obtain ⟨es, htracked, hout, howner, hwaiting⟩ := h.executed store j cmd
  have hnew : ∀ d, (d, some k) ∈ (s.service.execute store cmd).2.deliveries.zip
      (es.foldl (trackOwner j) (s.owner, [])).2 →
      s.owner d.consumerId = some k ∨ d.consumerId ∈ cmd.starts ∧ k = j := by
    intro d hd
    rw [hout] at hd
    obtain ⟨i, hi, hown⟩ := (forall₂_iff_zip.mp htracked.owners).2 hd
    rwa [some.inj hi]
  refine ⟨fun c hc => ?_, fun c hc => ?_, fun e he hk => ?_⟩
  · rw [howner] at hc
    rcases htracked.changes c with heq | ⟨hin, heq⟩ | ⟨-, heq⟩
    · exact .inl (heq ▸ hc)
    · exact .inr ⟨some.inj (heq.symm.trans hc), hin⟩
    · rw [heq] at hc
      cases hc
  · rcases hc with hbox | ⟨e, he, hne, d, hd, hdc⟩
    · exact .inl (.inl hbox)
    · rw [hwaiting] at he
      rcases mem_append.mp he with he | he
      · exact .inl (.inr ⟨e, he, hne, d, hd, hdc⟩)
      · obtain rfl := mem_singleton.mp he
        rcases hnew d (mem_ownedBy.mp hd) with hown | ⟨-, hkj⟩
        · exact .inr ⟨hne, hdc ▸ hown⟩
        · exact absurd hkj.symm hne
  · rw [hwaiting] at he
    rcases mem_append.mp he with he | he
    · exact .inl he
    · obtain rfl := mem_singleton.mp he
      exact .inr ⟨hk, fun d hd => (hnew d (mem_ownedBy.mp hd)).imp_right And.left⟩

end

/-! ## One step of a call -/

section

variable {store : ShardStorage σ} {s : System σ} {k : Nat} {cmd : BrokerCommandBatch}

theorem serve_eq_step (store : ShardStorage σ) (s : System σ) (k : Nat) (cmd : BrokerCommandBatch) :
    (serve store s k cmd).1 = s.step store (serveStep s k cmd) := by
  unfold serve serveStep
  split
  · rfl
  · split <;> next heq => simp only [heq]

theorem serveStep_execute (honce : Once s) (hcall : ⟨k, [], cmd⟩ ∈ s.calls) :
    serveStep s k cmd = .execute k := by
  have hbusy : ¬ s.Idle k := fun hidle => hidle.1 _ hcall rfl
  have hfind : s.calls.find? (·.source = k) = some ⟨k, [], cmd⟩ := by
    cases hfound : s.calls.find? (·.source = k) with
    | none => exact absurd (find?_eq_none.mp hfound _ hcall) (by simp)
    | some call =>
      have hk : call.source = k := by simpa using find?_some hfound
      exact congrArg some (inj_on_of_nodup_map (nodup_append.mp honce).1
        (mem_of_find?_eq_some hfound) hcall hk)
  rw [serveStep, if_neg hbusy, hfind]

theorem serveStep_route {e : Executed} (he : s.waiting.find? (·.source = k) = some e)
    (hcalls : ∀ call ∈ s.calls, call.source ≠ k) : serveStep s k cmd = .route k := by
  have hk : e.source = k := by simpa using find?_some he
  have hbusy : ¬ s.Idle k := fun hidle => hidle.2 _ (mem_of_find?_eq_some he) hk
  have hfind : s.calls.find? (·.source = k) = none :=
    find?_eq_none.mpr fun call hin => by simpa using hcalls call hin
  rw [serveStep, if_neg hbusy, hfind]

end

section

variable {store : ShardStorage σ} {s s' : BrokerServer σ} {j k : Nat}

/-- **What an act of connection `j` brings for `k`**: nothing, unless it
executes a command. -/
theorem Moves.seen (h : Aligned s) (howners : OwnersOk s.system) (hm : Moves store s j s') :
    Seen k s.system s'.system ∨ ∃ p cmd, s.peers j = some p ∧ p.command = some cmd ∧
      ⟨j, [], cmd⟩ ∈ s.system.calls ∧ s'.system = s.system.execute store j cmd := by
  cases hm with
  | stay => exact .inl (.refl _)
  | own p' hnone => exact .inl (.refl _)
  | control cmd p p' hp hnone => exact .inl (seen_of_eq rfl rfl rfl)
  | drain p p' hp hnone => exact .inl (seen_drain store j)
  | serves cmd p p' hp hcmd hstay =>
    have hserves : Serves store s.system j cmd _ _ := h.serves hp hcmd
    simp only [BrokerServer.put]
    generalize (serve store s.system j cmd).1 = system at hserves
    generalize (serve store s.system j cmd).2 = answer at hserves
    cases hserves with
    | call hidle => exact .inl (seen_of_eq rfl rfl rfl)
    | track u us hcall => cases u <;> exact .inl (seen_of_eq rfl rfl rfl)
    | execute hcall => exact .inr ⟨p, cmd, hp, hcmd, hcall, rfl⟩
    | route e he hcalls => exact .inl (seen_route howners (mem_of_find?_eq_some he))

theorem Moves.ownersOk (howners : OwnersOk s.system) (hm : Moves store s j s')
    (hcond : ∀ p ∈ s.peers j, ∀ cmd ∈ p.command,
      RespectsOwners s.system (serveStep s.system j cmd)) : OwnersOk s'.system := by
  cases hm with
  | stay => exact howners
  | own p' hnone => exact howners
  | control cmd p p' hp hnone => exact @OwnersOk.step _ _ store howners (.control cmd) trivial
  | drain p p' hp hnone => exact @OwnersOk.step _ _ store howners (.drain j) trivial
  | serves cmd p p' hp hcmd hstay =>
    simp only [BrokerServer.put]
    rw [serve_eq_step]
    exact howners.step (hcond p hp cmd hcmd)

end

/-! ## The invariant -/

/-- The consumers of a channel of connection `k`. -/
def consumersAt (s : BrokerServer σ) (k ch : Nat) : Option ConsumerTagMap :=
  match s.peers k with
  | some (.amqp p) => p.session.consumersOf ch
  | _ => none

/-- Consumer `c` was started on channel `ch` under `tag`, and the channel
knows it. -/
structure Placed (k : Nat) (w : Watched σ) (c ch : Nat) (tag : ShortStr) : Prop where
  origin : w.origin c = some (ch, tag)
  tagged : (consumersAt w.server k ch).bind (·.tagFor c) = some tag

/-- The channel of a consumer. -/
def PlacedOn (k : Nat) (w : Watched σ) (c ch : Nat) : Prop := ∃ tag, Placed k w c ch tag

/-- A consumer that is started is on the channel of the answer, and a
cancel is for the consumer of its tag. -/
def AskOk (k : Nat) (w : Watched σ) : Option Ask → Prop
  | some (.control _ (.consuming channel tag id)) => Placed k w id channel tag
  | some (.command cmd reply) =>
    (∀ c ∈ cmd.starts, ∃ ch, reply.channel = some ch ∧ PlacedOn k w c ch) ∧
    ∀ ch tag, reply = .cancelled ch tag → ∀ m ∈ consumersAt w.server k ch, ∀ id ∈ m.get tag,
      id ∈ cmd.cancels ∧ ((∃ e ∈ w.server.system.waiting, e.source = k) →
        w.server.system.owner id ≠ some k)
  | _ => True

/-- A delivery for `c` can reach connection `k` yet. -/
def Concerns (s : System σ) (k c : Nat) : Prop :=
  s.owner c = some k ∨ OnWay s k c ∨
    ∃ e ∈ s.waiting, e.source = k ∧ ∃ d ∈ e.ownedBy k, d.consumerId = c

/-- **Every consumer that can get a delivery is where it was started**,
and what is on its way goes out there. -/
structure HomeOk (k : Nat) (w : Watched σ) : Prop where
  aligned : Aligned w.server
  owners : OwnersOk w.server.system
  amqp : ∀ p, w.server.peers k = some p → ∃ q, p = .amqp q ∧ AskOk k w q.ask
  tags : ∀ ch m, consumersAt w.server k ch = some m → m.WellTagged
  live : ∀ c, w.server.system.owner c = some k → ∃ ch, PlacedOn k w c ch
  onWay : ∀ c, OnWay w.server.system k c → PlacedOn k w c 1
  answer : ∀ e ∈ w.server.system.waiting, e.source = k → ∀ p, w.server.peers k = some p →
    ∀ ch, p.replyChannel = some ch → ∀ d ∈ e.ownedBy k, PlacedOn k w d.consumerId ch

section

variable {k c ch : Nat} {w w' : Watched σ} {tag : ShortStr} {p p' : AmqpServerSession}
  {store : ShardStorage σ} {system : System σ} {r : AmqpSession × Outcome} {order : Nat → HashOrder}
  {session : AmqpSession} {draining : Bool} {inbox : List Frame} {cmd : BrokerCommandBatch}
  {output : ShardOutputBatch}

theorem Placed.mem_origins (h : Placed k w c ch tag) : (c, ch, tag) ∈ w.origins := by
  obtain ⟨l, l', heq, -⟩ := lookup_eq_some_iff.mp h.origin
  rw [heq]
  exact mem_append_right _ mem_cons_self

/-- What the session of the connection asks for. -/
theorem HomeOk.ask (h : HomeOk k w) (hp : w.server.peers k = some (.amqp p)) : AskOk k w p.ask := by
  obtain ⟨q, hq, hask⟩ := h.amqp _ hp
  exact Peer.amqp.inj hq ▸ hask

theorem HomeOk.not_native (h : HomeOk k w) (p : NativeServerSession) :
    w.server.peers k ≠ some (.native p) := by
  intro hp
  obtain ⟨q, hq, -⟩ := h.amqp _ hp
  cases hq

/-- On the only channel with live consumers. -/
theorem HomeOk.onChannel (h : HomeOk k w) (hch : OnChannel k w ch)
    (hc : w.server.system.owner c = some k) : PlacedOn k w c ch := by
  obtain ⟨ch', tag, hplaced⟩ := h.live c hc
  have heq := hch _ hplaced.mem_origins hc
  rw [hplaced.origin] at heq
  obtain rfl : ch' = ch := by simpa using heq
  exact ⟨tag, hplaced⟩

theorem Placed.congr (hat : consumersAt w'.server k = consumersAt w.server k)
    (horigins : w'.origins = w.origins) (h : Placed k w c ch tag) : Placed k w' c ch tag :=
  ⟨by simpa only [Watched.origin, horigins] using h.origin, by rw [hat]; exact h.tagged⟩

theorem AskOk.congr {ask : Option Ask} (hat : consumersAt w'.server k = consumersAt w.server k)
    (horigins : w'.origins = w.origins)
    (hwaiting : ∀ e ∈ w'.server.system.waiting, e.source = k → e ∈ w.server.system.waiting)
    (howner : ∀ c, w'.server.system.owner c = some k → w.server.system.owner c = some k)
    (h : AskOk k w ask) : AskOk k w' ask := by
  cases ask with
  | none => trivial
  | some call =>
    cases call with
    | control cmd reply =>
      cases reply with
      | consuming channel tag id => exact Placed.congr hat horigins h
      | _ => trivial
    | command cmd reply =>
      refine ⟨fun c hc => ?_, fun ch tag hreply m hm id hid => ?_⟩
      · obtain ⟨ch, hch, tag, hplaced⟩ := h.1 c hc
        exact ⟨ch, hch, tag, hplaced.congr hat horigins⟩
      · rw [hat] at hm
        obtain ⟨hin, hnot⟩ := h.2 ch tag hreply m hm id hid
        exact ⟨hin, fun ⟨e, he, hk⟩ hown => hnot ⟨e, hwaiting e he hk, hk⟩ (howner id hown)⟩
    | _ => trivial

/-- **An act of another connection.** -/
theorem HomeOk.foreign {s' : BrokerServer σ} {j : Nat} (h : HomeOk k w) (hj : j ≠ k)
    (hm : Moves store w.server j s') (hcond : s'.system = w.server.system ∨
      ∀ p ∈ w.server.peers j, ∀ cmd ∈ p.command, CommandSendsHome k w j p cmd) :
    HomeOk k ⟨s', w.origins⟩ := by
  have hpeers : s'.peers k = w.server.peers k := (hm.others h.aligned (Ne.symm hj)).1
  have hat : consumersAt s' k = consumersAt w.server k := by
    funext ch
    simp only [consumersAt, hpeers]
  have hplaced : ∀ {c ch}, PlacedOn k w c ch → PlacedOn k ⟨s', w.origins⟩ c ch :=
    fun ⟨tag, hp⟩ => ⟨tag, hp.congr hat rfl⟩
  -- live consumers stay, and what is new is for them
  obtain ⟨howner, honWay, hanswer⟩ :
      (∀ c, s'.system.owner c = some k → w.server.system.owner c = some k) ∧
      (∀ c, OnWay s'.system k c → PlacedOn k w c 1) ∧
      ∀ e ∈ s'.system.waiting, e.source = k → e ∈ w.server.system.waiting := by
    rcases hcond with heq | hcond
    · rw [heq]
      exact ⟨fun _ hc => hc, h.onWay, fun _ he _ => he⟩
    rcases hm.seen h.aligned h.owners with hseen | ⟨p, cmd, hp, hcmd, hcall, heq⟩
    · exact ⟨hseen.owner, fun c hc => h.onWay c (hseen.onWay c hc), hseen.answer⟩
    · obtain ⟨howner, honWay, hanswer⟩ := executed_seen (k := k) store h.owners.ledger j cmd
      rw [heq]
      refine ⟨fun c hc => ?_, fun c hc => ?_, fun e he hk => ?_⟩
      · exact (howner c hc).resolve_right fun hne => hj hne.1
      · rcases honWay c hc with hold | ⟨-, hlive⟩
        · exact h.onWay c hold
        · have hexec := (hcond p hp cmd hcmd).2.1 (serveStep_execute h.aligned.once hcall) 1
            (by rw [if_neg hj]; rfl)
          exact h.onChannel hexec hlive
      · exact (hanswer e he hk).resolve_right fun hne => hj hne.1
  constructor
  case aligned => exact h.aligned.moves hm
  case owners =>
    rcases hcond with heq | hcond
    · rw [heq]
      exact h.owners
    · exact hm.ownersOk h.owners fun p hp cmd hcmd => (hcond p hp cmd hcmd).1
  case amqp =>
    intro p hp
    obtain ⟨q, rfl, hask⟩ := h.amqp p (hpeers ▸ hp)
    exact ⟨q, rfl, hask.congr hat rfl hanswer howner⟩
  case tags => exact fun ch m hm' => h.tags ch m (hat ▸ hm')
  case live =>
    intro c hc
    obtain ⟨ch, hp⟩ := h.live c (howner c hc)
    exact ⟨ch, hplaced hp⟩
  case onWay => exact fun c hc => hplaced (honWay c hc)
  case answer =>
    intro e he hk p hp ch hch d hd
    exact hplaced (h.answer e (hanswer e he hk) hk p (hpeers ▸ hp) ch hch d hd)

/-- **An act of the connection itself** that brings nothing new: what its
session forgets must not concern it any more. -/
theorem HomeOk.own {origins : List (Nat × Nat × ShortStr)} (h : HomeOk k w)
    (hp : w.server.peers k = some (.amqp p))
    (haligned : Aligned (w.server.put k system (.amqp p'))) (howners : OwnersOk system)
    (hseen : Seen k w.server.system system)
    (hplaced : ∀ c ch tag, Concerns system k c → Placed k w c ch tag →
      Placed k ⟨w.server.put k system (.amqp p'), origins⟩ c ch tag)
    (htags : ∀ ch m, p'.session.consumersOf ch = some m → m.WellTagged)
    (hask : AskOk k ⟨w.server.put k system (.amqp p'), origins⟩ p'.ask)
    (hreply : (∃ e ∈ system.waiting, e.source = k) →
      ∀ ch, (Peer.amqp p').replyChannel = some ch → (Peer.amqp p).replyChannel = some ch) :
    HomeOk k ⟨w.server.put k system (.amqp p'), origins⟩ := by
  refine ⟨haligned, howners, fun q hq => ?_, fun ch m hm' => ?_, fun c hc => ?_, fun c hc => ?_,
    fun e he hk q hq ch hch d hd => ?_⟩
  · exact ⟨p', some.inj (hq.symm.trans (put_peers ..)), hask⟩
  · simp only [consumersAt, put_peers] at hm'
    exact htags ch m hm'
  · obtain ⟨ch, tag, hpl⟩ := h.live c (hseen.owner c hc)
    exact ⟨ch, tag, hplaced c ch tag (.inl hc) hpl⟩
  · obtain ⟨tag, hpl⟩ := h.onWay c (hseen.onWay c hc)
    exact ⟨tag, hplaced c 1 tag (.inr (.inl hc)) hpl⟩
  · obtain rfl := some.inj (hq.symm.trans (put_peers ..))
    obtain ⟨tag, hpl⟩ :=
      h.answer e (hseen.answer e he hk) hk _ hp ch (hreply ⟨e, he, hk⟩ ch hch) d hd
    exact ⟨tag, hplaced _ ch tag (.inr (.inr ⟨e, he, hk, d, hd, rfl⟩)) hpl⟩

theorem consumersAt_put :
    consumersAt (w.server.put k system (.amqp p')) k = p'.session.consumersOf := by
  funext ch
  simp [consumersAt, BrokerServer.put]

theorem consumersAt_eq {s : BrokerServer σ} (hp : s.peers k = some (.amqp p)) :
    consumersAt s k = p.session.consumersOf := by
  funext ch
  simp only [consumersAt, hp]

/-- An act that leaves the consumers of the session alone. -/
theorem HomeOk.quiet (h : HomeOk k w) (hp : w.server.peers k = some (.amqp p))
    (haligned : Aligned (w.server.put k system (.amqp p'))) (howners : OwnersOk system)
    (hseen : Seen k w.server.system system)
    (hcons : p'.session.consumersOf = p.session.consumersOf)
    (hask : AskOk k w p.ask → AskOk k ⟨w.server.put k system (.amqp p'), w.origins⟩ p'.ask)
    (hreply : (∃ e ∈ system.waiting, e.source = k) →
      ∀ ch, (Peer.amqp p').replyChannel = some ch → (Peer.amqp p).replyChannel = some ch) :
    HomeOk k ⟨w.server.put k system (.amqp p'), w.origins⟩ := by
  have hat : consumersAt (w.server.put k system (.amqp p')) k = consumersAt w.server k := by
    rw [consumersAt_put, consumersAt_eq hp, hcons]
  refine h.own hp haligned howners hseen (fun c ch tag _ hpl => hpl.congr hat rfl)
    (fun ch m hm' => ?_) (hask (h.ask hp)) hreply
  exact h.tags ch m (by rw [consumersAt_eq hp, ← hcons]; exact hm')

/-- Without a command, nothing of the connection waits. -/
theorem HomeOk.no_answer (h : HomeOk k w) (hp : w.server.peers k = some (.amqp p))
    (hnone : (Peer.amqp p).command = none) : ¬ ∃ e ∈ w.server.system.waiting, e.source = k := by
  rintro ⟨e, he, hk⟩
  exact (h.aligned.free (no_command hp hnone)).2 e he hk

theorem askOk_resume_plain (p : AmqpServerSession) (h : r.2.plain = true) :
    AskOk k w' (p.resume r).ask := by
  obtain ⟨session, o⟩ := r
  cases o with
  | done => trivial
  | failed error => trivial
  | ask call =>
    cases call with
    | control cmd reply => cases reply <;> trivial
    | command cmd reply => cases h
    | _ => trivial

theorem issues_plain {o : Outcome} (h : o.plain = true) : issues o = none := by
  cases o with
  | done => rfl
  | failed error => rfl
  | ask call =>
    cases call with
    | control cmd reply => cases reply <;> first | rfl | cases h
    | _ => rfl

/-- **A frame.** -/
theorem HomeOk.frame (h : HomeOk k w) {f : Frame} {rest : List Frame}
    (hp : w.server.peers k = some (.amqp ⟨session, f :: rest, none, draining⟩))
    (hcond : FrameSendsHome order k w session f)
    (hh : Handles (order k) session f (session.onFrame (order k) f)) :
    HomeOk k ⟨w.server.put k w.server.system (.amqp (AmqpServerSession.resume
        ⟨session, rest, none, draining⟩ (session.onFrame (order k) f))),
      (issues (session.onFrame (order k) f).2).toList ++ w.origins⟩ := by
  have hal : ∀ p', Aligned (w.server.put k w.server.system p') :=
    fun p' => aligned_aside h.aligned (no_command hp rfl) p' h.aligned.ledger rfl rfl
  have hfree := h.no_answer hp rfl
  obtain ⟨hopens, hissues⟩ := hcond
  have hat := consumersAt_eq hp
  generalize session.onFrame (order k) f = r at hh hissues
  cases hh with
  | plain f r hsame hplain =>
    rw [issues_plain hplain]
    refine h.quiet hp (hal _) h.owners (.refl _) ?_ (fun _ => askOk_resume_plain _ hplain)
      fun hwait => absurd hwait hfree
    rw [resume_session]
    exact hsame.consumers
  | opened channel text =>
    have hcons : ∀ ch, ch ≠ channel → consumersOf (({ session with
        channels := Function.update session.channels channel (some (.opened session.opened))
        opened := session.opened + 1 }).sendMethod channel (.channel .openOk)) ch =
        session.consumersOf ch := by
      intro ch hch
      simp [consumersOf, sendMethod, hch]
    refine h.own hp (hal _) h.owners (.refl _) (fun c ch tag hconc hpl => ?_) (fun ch m hm' => ?_)
      trivial fun hwait => absurd hwait hfree
    · -- the channel that is opened has no consumer that matters
      have hch : ch ≠ channel := by
        rintro rfl
        obtain ⟨hlive, honWay⟩ := hopens ch rfl _ hpl.mem_origins (by rw [hpl.origin]; rfl)
        rcases hconc with hc | hc | ⟨e, he, hk, -⟩
        · exact hlive hc
        · exact honWay hc
        · exact hfree ⟨e, he, hk⟩
      refine ⟨hpl.origin, ?_⟩
      rw [consumersAt_put]
      have := hpl.tagged
      rw [hat] at this
      rwa [← hcons ch hch] at this
    · by_cases hch : ch = channel
      · subst hch
        obtain rfl : empty = m := by
          simpa [AmqpServerSession.resume, consumersOf, sendMethod,
            AmqpChannelState.opened] using hm'
        exact wellTagged_empty
      · exact h.tags ch m (by rw [hat, ← hcons ch hch]; exact hm')
  | consume channel ch m hopen hack =>
    have hch := openChannel_some hopen
    have hwell : ch.consumers.WellTagged :=
      h.tags channel _ (by rw [hat]; simp [consumersOf, hch])
    obtain ⟨hwell', hnew, hkeep⟩ := hwell.insert (effectiveTag m.consumerTag)
    obtain ⟨howner, honWay⟩ := hissues _ rfl
    generalize effectiveTag m.consumerTag = tag at *
    generalize ch.consumers.insert tag = inserted at *
    obtain ⟨map, id⟩ := inserted
    have hcons : ∀ i, consumersOf
        (session.mapChannel channel fun c => { c with consumers := map }) i =
        if i = channel then some map else session.consumersOf i := by
      intro i
      simp only [consumersOf, map_mapChannel, hch]
      split <;> simp [Function.comp_def]
    refine h.own hp (hal _) h.owners (.refl _) (fun c i tag' hconc hpl => ?_) (fun i m' hm' => ?_)
      ⟨?_, ?_⟩ fun hwait => absurd hwait hfree
    · -- the id is given to nobody who matters
      have hc : c ≠ id := by
        rintro rfl
        rcases hconc with hc | hc | ⟨e, he, hk, -⟩
        · exact absurd (howner.symm.trans hc) (by simp)
        · exact honWay hc
        · exact hfree ⟨e, he, hk⟩
      refine ⟨?_, ?_⟩
      · show List.lookup c ((id, channel, tag) :: w.origins) = some (i, tag')
        rw [lookup_cons, beq_false_of_ne hc]
        exact hpl.origin
      · have htagged := hpl.tagged
        rw [hat] at htagged
        rw [consumersAt_put, resume_session, hcons]
        split
        · next hi =>
          subst hi
          simp only [consumersOf, hch, map_some, bind_some] at htagged ⊢
          exact hwell'.tagFor_eq_some.mpr (hkeep _ (hwell.tagFor_eq_some.mp htagged))
        · exact htagged
    · rw [resume_session, hcons] at hm'
      split at hm'
      · obtain rfl := some.inj hm'
        exact hwell'
      · exact h.tags i m' (by rw [hat]; exact hm')
    · exact lookup_cons_self
    · rw [consumersAt_put, resume_session, hcons, if_pos rfl]
      exact hwell'.tagFor_eq_some.mpr hnew
  | cancel channel ch tag noWait id hopen hget =>
    refine h.quiet hp (hal _) h.owners (.refl _) rfl (fun _ => ⟨fun c hc => (by cases hc), ?_⟩)
      fun hwait => absurd hwait hfree
    intro ch' tag' hreply m hm' id' hid'
    obtain ⟨rfl, rfl⟩ := CommandReply.cancelled.inj hreply
    have hmap : m = ch.consumers := by
      rw [consumersAt_put] at hm'
      simpa [AmqpServerSession.resume, consumersOf, openChannel_some hopen, eq_comm]
        using hm'
    subst hmap
    obtain rfl : id = id' := some.inj (hget.symm.trans hid')
    exact ⟨mem_cons_self, fun hwait => absurd hwait hfree⟩
  | settle channel ch m tag cmd id hset hopen hid =>
    refine h.quiet hp (hal _) h.owners (.refl _) rfl (fun _ => ⟨fun c hc => ?_, ?_⟩)
      fun hwait => absurd hwait hfree
    · rw [starts_settles hset] at hc
      cases hc
    · exact fun ch' tag' hreply => by cases hreply

/-- **The connection's own command is executed.** -/
theorem HomeOk.executes (h : HomeOk k w) {reply : CommandReply}
    (hpeq : p = ⟨session, inbox, some (.command cmd reply), draining⟩)
    (hp : w.server.peers k = some (.amqp p)) (hcall : ⟨k, [], cmd⟩ ∈ w.server.system.calls)
    (hcond : CommandSendsHome k w k (.amqp p) cmd)
    (haligned : Aligned (w.server.put k (w.server.system.execute store k cmd) (.amqp p)))
    (howners : OwnersOk (w.server.system.execute store k cmd)) :
    HomeOk k ⟨w.server.put k (w.server.system.execute store k cmd) (.amqp p), w.origins⟩ := by
  obtain ⟨hlive, honWay, hanswer⟩ := executed_seen (k := k) store h.owners.ledger k cmd
  have hat : consumersAt (w.server.put k (w.server.system.execute store k cmd) (.amqp p)) k =
      consumersAt w.server k := by
    rw [consumersAt_put, consumersAt_eq hp]
  have hplaced : ∀ {c ch}, PlacedOn k w c ch →
      PlacedOn k ⟨w.server.put k (w.server.system.execute store k cmd) (.amqp p), w.origins⟩ c ch :=
    fun ⟨tag, hpl⟩ => ⟨tag, hpl.congr hat rfl⟩
  subst hpeq
  obtain ⟨hstarts, hcancel⟩ := h.ask hp
  constructor
  case aligned => exact haligned
  case owners => exact howners
  case amqp =>
    intro q hq
    obtain rfl := some.inj ((put_peers ..).symm.trans hq)
    refine ⟨_, rfl, fun c hc => ?_, fun ch tag hreply m hm' id hid => ?_⟩
    · obtain ⟨ch, hch, hpl⟩ := hstarts c hc
      exact ⟨ch, hch, hplaced hpl⟩
    · rw [hat] at hm'
      obtain ⟨hin, -⟩ := hcancel ch tag hreply m hm' id hid
      refine ⟨hin, fun _ hown => ?_⟩
      -- the executor has dropped the consumer
      have hgone : (w.server.system.execute store k cmd).shard.consumers id = none := by
        match cmd, hin with
        | .shard (.cancel items), hin =>
          exact execute_cancel_absent store h.owners.ledger.sound.coherent hin
      have hseat := howners.ledger.live id
      rw [show (w.server.system.execute store k cmd).owner id = some k from hown] at hseat
      simp [InMemoryShardExecutor.view, hgone] at hseat
  case tags => exact fun ch m hm' => h.tags ch m (hat ▸ hm')
  case live =>
    intro c hc
    rcases hlive c hc with hold | ⟨-, hin⟩
    · obtain ⟨ch, hpl⟩ := h.live c hold
      exact ⟨ch, hplaced hpl⟩
    · obtain ⟨ch, -, hpl⟩ := hstarts c hin
      exact ⟨ch, hplaced hpl⟩
  case onWay =>
    intro c hc
    exact hplaced (h.onWay c ((honWay c hc).resolve_right fun hne => hne.1 rfl))
  case answer =>
    intro e he hk q hq ch hch d hd
    obtain rfl := some.inj ((put_peers ..).symm.trans hq)
    rcases hanswer e he hk with hold | ⟨-, hown⟩
    · -- nothing of the connection waited before
      exact absurd hk (h.aligned.once.apart hcall hold)
    · rcases hown d hd with hlive | hin
      · have hchannel := hcond.2.1 (serveStep_execute h.aligned.once hcall) ch
          (by rw [if_pos rfl]; exact hch)
        exact hplaced (h.onChannel hchannel hlive)
      · obtain ⟨ch', hch', hpl⟩ := hstarts _ hin
        obtain rfl : ch' = ch := some.inj (hch'.symm.trans hch)
        exact hplaced hpl

/-- The answer to a command of connection `k`. -/
theorem HomeOk.answered (h : HomeOk k w) {p : Peer} (hp : w.server.peers k = some p)
    (hcmd : p.command = some cmd) (hanswer : (serve store w.server.system k cmd).2 = some output) :
    Seen k w.server.system (serve store w.server.system k cmd).1 ∧
      (¬ ∃ e ∈ (serve store w.server.system k cmd).1.waiting, e.source = k) ∧
      serveStep w.server.system k cmd = .route k ∧
      ∃ e ∈ w.server.system.waiting, e.source = k ∧
        output = (w.server.system.service.routeOutput e.source e.output).2 := by
  have hserves : Serves store w.server.system k cmd _ _ := h.aligned.serves hp hcmd
  rw [hanswer] at hserves
  have hframe := (hserves.frame h.aligned.once fun call hin => (h.aligned.calls call hin).2).2
  generalize (serve store w.server.system k cmd).1 = system at hserves hframe
  cases hserves with
  | route e he hcalls =>
    have hin := mem_of_find?_eq_some he
    refine ⟨seen_route h.owners hin, fun ⟨e', he', hk⟩ => ?_, serveStep_route he hcalls, e, hin,
      by simpa using find?_some he, rfl⟩
    rcases hframe e' he' with ⟨-, hne⟩ | ⟨-, hnone⟩
    · exact hne hk
    · cases hnone

theorem consumersOf_afterCancel (session : AmqpSession) (channel : Nat)
    (tag : ShortStr) (ch : Nat) :
    (afterCancel session channel tag).consumersOf ch =
      if ch = channel then (session.consumersOf channel).map (·.remove tag)
      else session.consumersOf ch := by
  have hmap := session.map_mapChannel channel
    (fun c => { c with consumers := c.consumers.remove tag }) (·.consumers) ch
  simpa [consumersOf, afterCancel, sendMethod, Function.comp_def] using hmap

/-- A consumer is forgotten. -/
theorem HomeOk.forgets (h : HomeOk k w) {channel : Nat} (hp : w.server.peers k = some (.amqp
      ⟨session, inbox, some (.command cmd (.cancelled channel tag)), draining⟩))
    (hanswer : (serve store w.server.system k cmd).2 = some output)
    (hcond : CommandSendsHome k w k (.amqp
      ⟨session, inbox, some (.command cmd (.cancelled channel tag)), draining⟩) cmd)
    (haligned : Aligned (w.server.put k (serve store w.server.system k cmd).1 (.amqp
      ⟨afterCancel session channel tag, inbox, none, draining⟩)))
    (howners : OwnersOk (serve store w.server.system k cmd).1) :
    HomeOk k ⟨w.server.put k (serve store w.server.system k cmd).1 (.amqp
      ⟨afterCancel session channel tag, inbox, none, draining⟩), w.origins⟩ := by
  obtain ⟨hseen, hfree, hroute, e, he, hk, -⟩ := h.answered hp rfl hanswer
  have hat := consumersAt_eq hp
  obtain ⟨-, hcancel⟩ := h.ask hp
  refine h.own hp haligned howners hseen (fun c ch tag' hconc hpl => ⟨hpl.origin, ?_⟩)
    (fun ch m hm' => ?_) trivial fun hwait => absurd hwait hfree
  · have htagged := hpl.tagged
    rw [hat] at htagged
    rw [consumersAt_put, consumersOf_afterCancel]
    split
    · next hch =>
      subst hch
      obtain ⟨m, hm', htag⟩ := bind_eq_some_iff.mp htagged
      have hwell := h.tags ch m (by rw [hat]; exact hm')
      have hin := hwell.tagFor_eq_some.mp htag
      -- it is not the consumer that is forgotten
      have hne : tag' ≠ tag := by
        rintro rfl
        obtain ⟨hcin, hdead⟩ := hcancel ch tag' rfl m (by rw [hat]; exact hm') c
          (hwell.get_eq_some.mpr hin)
        rcases hconc with hc | hc | hc
        · exact hdead ⟨e, he, hk⟩ (hseen.owner c hc)
        · exact hcond.2.2 hroute rfl rfl c hcin (hseen.onWay c hc)
        · obtain ⟨e', he', hk', -⟩ := hc
          exact hfree ⟨e', he', hk'⟩
      rw [hm']
      exact (hwell.remove tag).tagFor_eq_some.mpr (mem_remove.mpr ⟨hin, hne⟩)
    · exact htagged
  · rw [consumersOf_afterCancel] at hm'
    split at hm'
    · next hch =>
      subst hch
      obtain ⟨m', hm'', rfl⟩ := map_eq_some_iff.mp hm'
      exact (h.tags ch m' (by rw [hat]; exact hm'')).remove tag
    · exact h.tags ch m (by rw [hat]; exact hm')

/-- **A step of the connection itself.** -/
theorem HomeOk.advance (h : HomeOk k w) (hp : w.server.peers k = some (.amqp p))
    (hcond : SendsHome order k w (.advance k)) : HomeOk k (w.step store order k (.advance k)) := by
  obtain ⟨system, p', hstep, heq⟩ := amqpStep store (order k) hp
  have hm : Moves store w.server k (w.server.put k system (.amqp p')) :=
    heq ▸ moves_advanceAmqp hp
  have hal := h.aligned.moves hm
  have how : OwnersOk system := hm.ownersOk h.owners fun p hp cmd hcmd => (hcond.1 p hp cmd hcmd).1
  have hserver : w.server.step store order (.advance k) = w.server.put k system (.amqp p') := by
    simp only [BrokerServer.step, hp, heq]
  have hissued : issued order k w.server (.advance k) =
      ((Peer.amqp p).nextFrame).bind fun x => issues (x.1.onFrame (order k) x.2).2 := by
    simp only [issued, if_pos, hp, bind_some]
  simp only [Watched.step, hserver, hissued]
  cases hstep with
  | idle session =>
    exact h.quiet hp hal how (.refl _) rfl (fun _ => trivial) fun _ ch hch => by cases hch
  | frame session f rest draining hh =>
    exact h.frame hp (hcond.2 rfl (session, f) (by rw [hp]; rfl)) hh
  | drain session session' sent hpre hsends =>
    exact h.quiet hp hal how (seen_drain store k) hsends.consumers (fun _ => trivial)
      fun _ ch hch => by cases hch
  | replied session session' inbox cmd reply draining hsame =>
    exact h.quiet hp hal how (seen_of_eq rfl rfl rfl) hsame.consumers (fun _ => trivial)
      fun _ ch hch => by cases hch
  | consuming session inbox cmd channel tag id queueId prefetch draining =>
    refine h.quiet hp hal how (seen_of_eq rfl rfl rfl) rfl (fun hpl => ⟨fun c hc => ?_, ?_⟩)
      fun hwait => absurd hwait (h.no_answer hp rfl)
    · obtain rfl := mem_singleton.mp hc
      have hplaced : Placed k w c channel tag := hpl
      exact ⟨channel, rfl, tag, hplaced.congr (consumersAt_put.trans (consumersAt_eq hp).symm) rfl⟩
    · exact fun ch' tag' hreply => by cases hreply
  | resolve session inbox q draining =>
    exact h.quiet hp hal how (.refl _) rfl (fun _ => trivial) fun _ ch hch => by cases hch
  | unrouted session session' inbox q draining hsame =>
    exact h.quiet hp hal how (.refl _) hsame.consumers (fun _ => trivial)
      fun _ ch hch => by cases hch
  | publish session session' inbox call q target draining hcall hsame =>
    have hnone : (Peer.amqp ⟨session, inbox, some call, draining⟩).command = none := by
      rcases hcall with rfl | rfl <;> rfl
    refine h.quiet hp hal how (.refl _) ?_ (fun _ => ⟨fun c hc => (by cases hc), ?_⟩)
      fun hwait => absurd hwait (h.no_answer hp hnone)
    · rw [resume_session]
      exact hsame.consumers
    · exact fun ch' tag' hreply => by cases hreply
  | waits session inbox cmd reply draining hnone =>
    have hserves : Serves store w.server.system k cmd _ _ := h.aligned.serves hp rfl
    rw [hnone] at hserves
    -- what the session asked for stays as it is
    have hquiet : Seen k w.server.system (serve store w.server.system k cmd).1 →
        HomeOk k ⟨w.server.put k (serve store w.server.system k cmd).1 (.amqp
          ⟨session, inbox, some (.command cmd reply), draining⟩), w.origins⟩ := by
      intro hseen
      exact h.quiet hp hal how hseen rfl
        (fun hask => hask.congr (consumersAt_put.trans (consumersAt_eq hp).symm) rfl hseen.answer
          hseen.owner) fun _ ch hch => hch
    generalize (serve store w.server.system k cmd).1 = system at hserves hquiet hal how
    cases hserves with
    | call hidle => exact hquiet (seen_of_eq rfl rfl rfl)
    | track u us hcall => cases u <;> exact hquiet (seen_of_eq rfl rfl rfl)
    | execute hcall => exact h.executes rfl hp hcall (hcond.1 _ hp cmd rfl) hal how
  | answer session session' inbox inbox' cmd reply channel output sent draining hreply hanswer
      hpre hsends =>
      exact h.quiet hp hal how (h.answered hp rfl hanswer).1 hsends.consumers (fun _ => trivial)
        fun _ ch hch => by cases hch
  | cancelled session inbox cmd channel tag output draining hanswer =>
    exact h.forgets hp hanswer (hcond.1 _ hp cmd rfl) hal how

/-! ## Runs -/

/-- Connection `k` is accepted: it has no consumers yet. -/
theorem HomeOk.accepted (h : HomeOk k w) (hnone : w.server.peers k = none)
    (haligned : Aligned (w.server.put k w.server.system (.amqp .new))) :
    HomeOk k ⟨w.server.put k w.server.system (.amqp .new), w.origins⟩ := by
  have hnowhere : ∀ {c ch}, ¬ PlacedOn k w c ch := by
    rintro c ch ⟨tag, hpl⟩
    have := hpl.tagged
    simp [consumersAt, hnone] at this
  refine ⟨haligned, h.owners, fun p hp => ?_, fun ch m hm' => ?_, fun c hc => ?_,
    fun c hc => absurd (h.onWay c hc) hnowhere, fun e he hk p hp ch hch => ?_⟩
  · exact ⟨_, some.inj (hp.symm.trans (put_peers ..)), trivial⟩
  · simp [consumersAt_put, AmqpServerSession.new, new, consumersOf] at hm'
  · obtain ⟨ch, hpl⟩ := h.live c hc
    exact absurd hpl hnowhere
  · obtain rfl := some.inj ((put_peers ..).symm.trans hp)
    cases hch

theorem HomeOk.step (h : HomeOk k w) {a : Act} (hcond : SendsHome order k w a) :
    HomeOk k (w.step store order k a) := by
  have hacts := @acts_step _ store order w.server a
  by_cases hk : a.connection = k
  · have hal := h.aligned.moves hacts.moves
    generalize hs' : w.server.step store order a = s' at hacts hal
    cases hacts with
    | stays a hnone =>
      have hissued : issued order k w.server a = none := by
        cases a with
        | advance j => simp [issued, show j = k from hk, hnone k (by rw [show j = k from hk])]
        | _ => rfl
      rw [Watched.step, hs', hissued]
      exact h
    | accepts j amqp hnone =>
      obtain rfl : j = k := hk
      obtain rfl : amqp = true := hcond rfl
      rw [Watched.step, hs']
      exact h.accepted hnone hal
    | receives j frames session hp =>
      obtain rfl : j = k := hk
      rw [Watched.step, hs']
      exact h.quiet hp hal h.owners (.refl _) rfl (fun _ => trivial) fun _ ch hch => by cases hch
    | receivesNative j frames inbound out hp =>
      obtain rfl : j = k := hk
      exact absurd hp (h.not_native _)
    | advances j p hp =>
      obtain rfl : j = k := hk
      exact h.advance hp hcond
    | advancesNative j p hp =>
      obtain rfl : j = k := hk
      exact absurd hp (h.not_native _)
  · have hissued : issued order k w.server a = none := by
      cases a with
      | advance j => simp only [issued, if_neg (show ¬ j = k from hk)]
      | _ => rfl
    simp only [Watched.step, hissued, toList_none, nil_append]
    refine h.foreign hk hacts.moves ?_
    cases a with
    | advance j => exact .inr hcond.1
    | _ => exact .inl (hacts.system fun j hj => by cases hj)

/-- A frame sends no deliveries. -/
theorem sent_handles {order : HashOrder} {f : Frame} (hh : Handles order session f r) :
    r.1.sent = session.sent := by
  cases hh with
  | plain f r hsame hplain => exact hsame.sent
  | opened channel text => exact sent_sendMethod _ _ _
  | consume channel ch m hopen hack => rfl
  | cancel channel ch tag noWait id hopen hget => rfl
  | settle channel ch m tag cmd id hset hopen hid => rfl

theorem Placed.sent {batch : DeliveryEventBatch} {d : Delivery}
    (hp : w.server.peers k = some (.amqp p)) (hpl : PlacedOn k w batch.consumerId ch)
    (hd : d ∈ p.session.outgoing ch batch) :
    w.origin d.consumerId = some (d.channel, d.method.consumerTag) := by
  obtain ⟨tag, horigin, htagged⟩ := hpl
  obtain ⟨hch, hc, htag⟩ := outgoing_consumer hd
  rw [consumersAt_eq hp] at htagged
  rw [hch, hc, htag, horigin, htagged]
  rfl

/-- **What a step sends goes out at home.** -/
theorem HomeOk.sends (h : HomeOk k w) (a : Act) :
    ∃ ds, sentTo (w.server.step store order a) k = sentTo w.server k ++ ds ∧
      ∀ d ∈ ds, w.origin d.consumerId = some (d.channel, d.method.consumerTag) := by
  -- most acts send nothing
  have hnothing : ∀ {l}, l = sentTo w.server k → ∃ ds, l = sentTo w.server k ++ ds ∧
      ∀ d ∈ ds, w.origin d.consumerId = some (d.channel, d.method.consumerTag) :=
    fun h => ⟨[], by rw [h, List.append_nil], fun _ h => (nomatch h)⟩
  have hacts := @acts_step _ store order w.server a
  by_cases hk : a.connection = k
  · generalize w.server.step store order a = s' at hacts
    cases hacts with
    | stays a hnone => exact hnothing rfl
    | accepts j amqp hnone =>
      obtain rfl : j = k := hk
      refine hnothing ?_
      cases amqp <;> simp [sentTo, BrokerServer.put, hnone, AmqpServerSession.new,
        new, sent]
    | receives j frames session hp =>
      obtain rfl : j = k := hk
      exact hnothing (by simp only [sentTo, put_peers, hp])
    | receivesNative j frames inbound out hp =>
      obtain rfl : j = k := hk
      exact hnothing (by simp only [sentTo, put_peers, hp])
    | advancesNative j p hp =>
      obtain rfl : j = k := hk
      exact absurd hp (h.not_native _)
    | advances j p hpeer =>
      obtain rfl : j = k := hk
      obtain ⟨system, p', hstep, heq⟩ := amqpStep store (order j) hpeer
      have hsent : sentTo (w.server.put j system (.amqp p')) j = p'.session.sent := by
        simp only [sentTo, put_peers]
      have hbefore : sentTo w.server j = p.session.sent := by simp only [sentTo, hpeer]
      rw [heq, hsent]
      cases hstep with
      | idle session => exact hnothing hbefore.symm
      | frame session f rest draining hh =>
        refine hnothing ?_
        rw [resume_session, sent_handles hh, hbefore]
      | replied session session' inbox cmd reply draining hsame =>
        exact hnothing (hsame.sent.trans hbefore.symm)
      | consuming => exact hnothing hbefore.symm
      | resolve => exact hnothing hbefore.symm
      | unrouted session session' inbox q draining hsame =>
        exact hnothing (hsame.sent.trans hbefore.symm)
      | publish session session' inbox call q target draining hcall hsame =>
        refine hnothing ?_
        rw [resume_session, hbefore]
        exact hsame.sent
      | waits => exact hnothing hbefore.symm
      | cancelled session inbox cmd channel tag output draining hanswer =>
        refine hnothing (Eq.trans ?_ hbefore.symm)
        exact sent_sendMethod _ _ _
      | drain session session' sent hpre hsends =>
        refine ⟨sent, by rw [hbefore, hsends.sent], fun d hd => ?_⟩
        obtain ⟨batch, hbatch, hin⟩ := mem_flatMap.mp (hpre.subset hd)
        refine Placed.sent hpeer (h.onWay _ (.inl ⟨batch, ?_, rfl⟩)) hin
        simpa [BrokerService.drainConnectionOutputs, deliveries_foldl_merge,
          ShardOutputBatch.empty] using hbatch
      | answer session session' inbox inbox' cmd reply channel output sent draining hreply
          hanswer hpre hsends =>
          refine ⟨sent, by rw [hbefore, hsends.sent], fun d hd => ?_⟩
          obtain ⟨batch, hbatch, hin⟩ := mem_flatMap.mp (hpre.subset hd)
          obtain ⟨-, -, -, e, he, hek, rfl⟩ := h.answered hpeer rfl hanswer
          rw [(h.owners.reaches he).immediate, hek] at hbatch
          exact Placed.sent hpeer (h.answer e he hek _ hpeer channel hreply batch hbatch) hin
  · refine hnothing ?_
    have hpeers := (hacts.moves.others h.aligned (Ne.symm hk)).1
    simp only [sentTo, hpeers]

end

/-- **Deliveries go out on the channel of their consumer**, under its tag.
In every run that meets the condition, whatever the next act sends to
connection `k` is sent on the channel on which the consumer was started,
with the tag it was started under. -/
theorem deliveries_on_channel (store : ShardStorage σ) (order : Nat → HashOrder)
    {routing : RoutingBootstrapConfig} {durable : Option σ} {broker : SingleNodeBroker σ}
    (hnew : SingleNodeBroker.new routing durable = .ok broker) {k : Nat} {acts : List Act}
    (hmeets : Meets (Watched.step store order k) (SendsHome order k) ⟨.new broker, []⟩ acts)
    (a : Act) :
    let w := Watched.run store order k ⟨.new broker, []⟩ acts
    ∃ ds, sentTo (w.server.step store order a) k = sentTo w.server k ++ ds ∧
      ∀ d ∈ ds, w.origin d.consumerId = some (d.channel, d.method.consumerTag) := by
  have hinit : HomeOk k (⟨.new broker, []⟩ : Watched σ) := by
    have hshard := SingleNodeBroker.new_shard hnew
    constructor
    case aligned => exact aligned_new hshard
    case owners => exact ownersOk_new hshard
    case amqp => exact fun p hp => by cases hp
    case tags => exact fun ch m hm => by cases hm
    case live => exact fun c hc => by cases hc
    case onWay =>
      rintro c (⟨d, hd, -⟩ | ⟨e, he, -⟩)
      · cases hd
      · cases he
    case answer => exact fun e he => by cases he
  exact (hmeets.invariant (fun w a h hcond => h.step hcond) hinit).sends a

/-- Connection 1 consumes and publishes on channel 1, and connection 2
publishes as well. -/
def oneChannel : List Act :=
  [.accept 1 true, .accept 2 true] ++
    talks 1 (handshake ++ [openFrame 1, declareFrame 1, consumeFrame 1 [97]] ++
      publishFrames 1 [5]) ++
    talks 2 (handshake ++ [openFrame 3] ++ publishFrames 3 [6]) ++ talks 1 []

/-- What a delivery says about its consumer. -/
def addressed (d : Delivery) : Nat × Nat × ShortStr :=
  (d.consumerId, d.channel, d.method.consumerTag)

/-- The last step sends the message of connection 2. -/
theorem deliveries_on_channel_one :
    let w := Watched.run .null (fun _ => .insertion) 1 ⟨.new .dev, []⟩ oneChannel.dropLast
    let s' := w.server.step .null (fun _ => .insertion) (.advance 1)
    (sentTo w.server 1).map addressed = [(1, 1, [97])] ∧
      (sentTo s' 1).map addressed = [(1, 1, [97]), (1, 1, [97])] ∧
      ∃ ds, sentTo s' 1 = sentTo w.server 1 ++ ds ∧
        ∀ d ∈ ds, w.origin d.consumerId = some (d.channel, d.method.consumerTag) :=
  ⟨by decide +kernel, by decide +kernel, @deliveries_on_channel _ .null (fun _ => .insertion) _ _ _
    SingleNodeBroker.new_dev 1 oneChannel.dropLast (by decide +kernel) (.advance 1)⟩

/-- The consumer is on channel 2, and the message is published on channel
1: it is sent on channel 1, under the tag `ctag-1`. -/
theorem publish_channel_delivers :
    let acts := .accept 1 true :: talks 1 (handshake ++ [openFrame 1, openFrame 2, declareFrame 1,
      consumeFrame 2 [97]] ++ publishFrames 1 [5])
    let w := Watched.run .null (fun _ => .insertion) 1 ⟨.new .dev, []⟩ acts
    w.origin 1 = some (2, [97]) ∧ (sentTo w.server 1).map addressed = [(1, 1, defaultTag)] := by
  decide +kernel

end Aurum.Server
