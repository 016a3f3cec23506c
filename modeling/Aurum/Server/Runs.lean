import Aurum.Lib.Runs
import Aurum.Server.Basic
import Aurum.Service.Owners

/-!
# Server — runs

What the acts of a server are made of. `Serves` lists the steps of a call,
`Moves` what an act of one connection can do to the service; a session
that is in the middle of a call always finds that very call in the
service (`Aligned`).
-/

namespace Aurum.Server

open Aurum.Runs Aurum.Protocol Aurum.Broker Aurum.Service Aurum.Amqp Aurum.Native List BrokerServer
open Executed

variable {σ : Type} {store : ShardStorage σ}

/-- The frame an AMQP session handles next. -/
def Peer.nextFrame : Peer → Option (AmqpSession × Frame)
  | .amqp ⟨session, inbox, none, _⟩ => inbox.head?.map fun f => (session, f)
  | _ => none

/-- The frame a native session handles next. -/
def Peer.nextNative : Peer → Option (NativeInboundAdapter × NativeFrame)
  | .native ⟨inbound, inbox, none, _⟩ => inbox.head?.map fun f => (inbound, f)
  | _ => none

/-! ## One step of a call -/

/-- The steps of the call `cmd` of connection `k`, each with the answer it
gives. -/
inductive Serves (store : ShardStorage σ) (s : System σ) (k : Nat) (cmd : BrokerCommandBatch) :
    System σ → Option ShardOutputBatch → Prop
  | call (hidle : s.Idle k) :
      Serves store s k cmd { s with calls := s.calls ++ [⟨k, cmd.updates k, cmd⟩] } none
  | track (u : RegistryUpdate) (us : List RegistryUpdate) (hcall : ⟨k, u :: us, cmd⟩ ∈ s.calls) :
      Serves store s k cmd
        { s with
          service := s.service.updateRegistry u
          calls := s.calls.filter (·.source ≠ k) ++ [⟨k, us, cmd⟩] } none
  | execute (hcall : ⟨k, [], cmd⟩ ∈ s.calls) :
      Serves store s k cmd (s.execute store k cmd) none
  | route (e : Executed) (he : s.waiting.find? (·.source = k) = some e)
      (hcalls : ∀ call ∈ s.calls, call.source ≠ k) :
      Serves store s k cmd (s.route e) (some (s.service.routeOutput e.source e.output).2)

variable {k : Nat} {cmd : BrokerCommandBatch} {s s' : BrokerServer σ} {p : Peer}
  {answer : Option ShardOutputBatch} {order : Nat → HashOrder} {broker : SingleNodeBroker σ}
  {durable : Option σ}

theorem serves {s : System σ} (hcmd : ∀ call ∈ s.calls, call.source = k → call.cmd = cmd) :
    Serves store s k cmd (serve store s k cmd).1 (serve store s k cmd).2 := by
  unfold serve
  split
  · next hidle =>
    simp only [System.step, if_pos hidle]
    exact .call hidle
  · next hbusy =>
    have hfound : ∀ j us cmd', s.calls.find? (·.source = k) = some ⟨j, us, cmd'⟩ →
        ⟨k, us, cmd⟩ ∈ s.calls ∧ j = k ∧ cmd' = cmd := by
      intro j us cmd' hfind
      obtain rfl : j = k := by simpa using find?_some hfind
      have hin := mem_of_find?_eq_some hfind
      obtain rfl : cmd' = cmd := hcmd _ hin rfl
      exact ⟨hin, rfl, rfl⟩
    split
    · next j u us cmd' hfind =>
      obtain ⟨hin, rfl, rfl⟩ := hfound _ _ _ hfind
      simp only [System.step, hfind]
      exact .track u us hin
    · next j cmd' hfind =>
      obtain ⟨hin, rfl, rfl⟩ := hfound _ _ _ hfind
      simp only [System.step, hfind]
      exact .execute hin
    · next hnone =>
      have hcalls : ∀ call ∈ s.calls, call.source ≠ k := by
        intro call hin
        simpa using find?_eq_none.mp hnone call hin
      cases he : s.waiting.find? (·.source = k) with
      | none =>
        -- then the connection was idle
        refine absurd ⟨hcalls, fun e hin => ?_⟩ hbusy
        simpa using find?_eq_none.mp he e hin
      | some e =>
        simp only [System.step, he]
        exact .route e he hcalls

/-! ## One act -/

/-- **What an act of connection `k` does.** Only a connection with a
command moves its call; one that gets no answer keeps the command. -/
inductive Moves (store : ShardStorage σ) (s : BrokerServer σ) (k : Nat) : BrokerServer σ → Prop
  | stay : Moves store s k s
  | own (p' : Peer) (hnone : ∀ p, s.peers k = some p → p.command = none) :
      Moves store s k (s.put k s.system p')
  | control (cmd : AmqpControlCommand) (p p' : Peer) (hp : s.peers k = some p)
      (hnone : p.command = none) :
      Moves store s k (s.put k (s.system.step store (.control cmd)) p')
  | drain (p p' : Peer) (hp : s.peers k = some p) (hnone : p.command = none) :
      Moves store s k (s.put k (s.system.step store (.drain k)) p')
  | serves (cmd : BrokerCommandBatch) (p p' : Peer) (hp : s.peers k = some p)
      (hcmd : p.command = some cmd)
      (hstay : (serve store s.system k cmd).2 = none → p'.command = some cmd) :
      Moves store s k (s.put k (serve store s.system k cmd).1 p')

theorem put_peers (system : System σ) (p : Peer) :
    (s.put k system p).peers k = some p := Function.update_self ..

def Act.connection : Act → Nat
  | .accept k _ | .receive k _ | .receiveNative k _ | .advance k => k

/-- A connection is its peer. -/
theorem no_command (hp : s.peers k = some p) (hnone : p.command = none) :
    ∀ q, s.peers k = some q → q.command = none :=
  fun _ hq => Option.some.inj (hp.symm.trans hq) ▸ hnone

/-- A step of a call, and the state it leaves the connection in. -/
theorem moves_serve (p' : Peer) {system : System σ} (hp : s.peers k = some p)
    (hcmd : p.command = some cmd) (heq : serve store s.system k cmd = (system, answer))
    (hstay : answer = none → p'.command = some cmd) : Moves store s k (s.put k system p') := by
  have h : Moves store s k (s.put k (serve store s.system k cmd).1 p') :=
    .serves cmd p p' hp hcmd (by rw [heq]; exact hstay)
  rwa [heq] at h

theorem moves_advanceAmqp {order : HashOrder} {p : AmqpServerSession}
    (hp : s.peers k = some (.amqp p)) : Moves store s k (s.advanceAmqp store order k p) := by
  obtain ⟨session, inbox, ask, draining⟩ := p
  cases ask with
  | none =>
    cases inbox with
    | cons f rest => exact .own _ (no_command hp rfl)
    | nil =>
      cases draining with
      | true => exact .drain _ _ hp rfl
      | false => exact .stay
  | some call =>
    cases call with
    | control cmd reply => exact .control cmd _ _ hp rfl
    | routeVersion q => exact .own _ (no_command hp rfl)
    | resolveRoute q => exact .own _ (no_command hp rfl)
    | command cmd reply =>
      simp only [advanceAmqp]
      split
      · next system heq => exact moves_serve _ hp rfl heq fun _ => rfl
      · next system output heq => exact moves_serve _ hp rfl heq fun h => nomatch h

theorem moves_advanceNative {p : NativeServerSession} (hp : s.peers k = some (.native p)) :
    Moves store s k (s.advanceNative store k p) := by
  obtain ⟨inbound, inbox, task, out⟩ := p
  cases task with
  | none =>
    cases inbox with
    | cons f rest => exact .own _ (no_command hp rfl)
    | nil => exact .stay
  | some task =>
    cases task with
    | drain f immediate => exact .drain _ _ hp rfl
    | command f cmd =>
      simp only [advanceNative]
      split
      · next system heq => exact moves_serve _ hp rfl heq fun _ => rfl
      · next system output heq => exact moves_serve _ hp rfl heq fun h => nomatch h

/-- **What an act does**, if its connection is ready for it. -/
inductive Acts (store : ShardStorage σ) (order : Nat → HashOrder) (s : BrokerServer σ) :
    Act → BrokerServer σ → Prop
  | stays (a : Act) (hnone : ∀ k, a = .advance k → s.peers k = none) : Acts store order s a s
  | accepts (k : Nat) (amqp : Bool) (hnone : s.peers k = none) :
      Acts store order s (.accept k amqp)
        (s.put k s.system (if amqp then .amqp .new else .native (.new k)))
  | receives (k : Nat) (frames : List Frame) (session : AmqpSession)
      (hp : s.peers k = some (.amqp ⟨session, [], none, false⟩)) :
      Acts store order s (.receive k frames)
        (s.put k s.system (.amqp ⟨session, frames, none, true⟩))
  | receivesNative (k : Nat) (frames : List NativeFrame) (inbound : NativeInboundAdapter)
      (out : List NativeWritten) (hp : s.peers k = some (.native ⟨inbound, [], none, out⟩)) :
      Acts store order s (.receiveNative k frames)
        (s.put k s.system (.native ⟨inbound, frames, none, out⟩))
  | advances (k : Nat) (p : AmqpServerSession) (hp : s.peers k = some (.amqp p)) :
      Acts store order s (.advance k) (s.advanceAmqp store (order k) k p)
  | advancesNative (k : Nat) (p : NativeServerSession) (hp : s.peers k = some (.native p)) :
      Acts store order s (.advance k) (s.advanceNative store k p)

theorem acts_step (order : Nat → HashOrder) (s : BrokerServer σ) (a : Act) :
    Acts store order s a (s.step store order a) := by
  cases a with
  | accept k amqp =>
    simp only [step]
    split
    · next hnone => exact .accepts k amqp hnone
    · exact .stays _ fun _ h => nomatch h
  | receive k frames =>
    simp only [step]
    split
    · next p hp =>
      obtain ⟨session, inbox, ask, draining⟩ := p
      split
      · next hidle =>
        obtain ⟨⟨rfl, rfl⟩, rfl⟩ : (inbox = [] ∧ ask = none) ∧ draining = false := by
          simpa [Peer.idle] using hidle
        exact .receives k frames session hp
      · exact .stays _ fun _ h => nomatch h
    · exact .stays _ fun _ h => nomatch h
  | receiveNative k frames =>
    simp only [step]
    split
    · next p hp =>
      obtain ⟨inbound, inbox, task, out⟩ := p
      split
      · next hidle =>
        obtain ⟨rfl, rfl⟩ : inbox = [] ∧ task = none := by simpa [Peer.idle] using hidle
        exact .receivesNative k frames inbound out hp
      · exact .stays _ fun _ h => nomatch h
    · exact .stays _ fun _ h => nomatch h
  | advance k =>
    simp only [step]
    split
    · next p hp => exact .advances k p hp
    · next p hp => exact .advancesNative k p hp
    · next hnone => exact .stays _ fun j h => Act.advance.inj h ▸ hnone

/-- **Every act is a move of its connection.** -/
theorem Acts.moves {a : Act} (h : Acts store order s a s') : Moves store s a.connection s' := by
  cases h with
  | stays _ _ => exact .stay
  | accepts k amqp hnone => exact .own _ fun q hq => absurd (hnone.symm.trans hq) (by simp)
  | receives k frames session hp => exact .own _ (no_command hp rfl)
  | receivesNative k frames inbound out hp => exact .own _ (no_command hp rfl)
  | advances k p hp => exact moves_advanceAmqp hp
  | advancesNative k p hp => exact moves_advanceNative hp

/-- Only the thread of a connection calls the service. -/
theorem Acts.system {a : Act} (h : Acts store order s a s') (ha : ∀ k, a ≠ .advance k) :
    s'.system = s.system := by
  cases h with
  | advances k p hp => exact absurd rfl (ha k)
  | advancesNative k p hp => exact absurd rfl (ha k)
  | _ => rfl

theorem moves_step (order : Nat → HashOrder) (s : BrokerServer σ) (a : Act) :
    Moves store s a.connection (s.step store order a) := (acts_step order s a).moves

/-! ## Calls and their connections -/

/-- A connection is in at most one place of a call. -/
def Once (s : System σ) : Prop :=
  (s.calls.map Call.source ++ s.waiting.map source).Nodup

/-- A connection with a call does not wait. -/
theorem Once.apart {s : System σ} (h : Once s) {call : Call} (hcall : call ∈ s.calls) {e : Executed}
    (he : e ∈ s.waiting) : e.source ≠ call.source :=
  fun heq => (nodup_append.mp h).2.2 _ (mem_map_of_mem hcall) _
    (mem_map_of_mem he) heq.symm

/-- **The service and the sessions agree** on the calls under way. -/
structure Aligned (s : BrokerServer σ) : Prop where
  ledger : Ledger s.system
  once : Once s.system
  calls : ∀ call ∈ s.system.calls,
    (∃ p, s.peers call.source = some p ∧ p.command = some call.cmd) ∧
      ∀ u ∈ call.updates, u ∈ call.cmd.updates call.source
  waiting : ∀ e ∈ s.system.waiting, ∃ p cmd, s.peers e.source = some p ∧ p.command = some cmd

theorem aligned_new {shardId : Nat} (h : broker.broker.shard = .new shardId durable) :
    Aligned (new broker) :=
  ⟨ledger_new h, nodup_nil, fun _ h => (nomatch h), fun _ h => (nomatch h)⟩

/-- The call of a connection that waits for the service. -/
theorem Aligned.serves (h : Aligned s) (hp : s.peers k = some p) (hcmd : p.command = some cmd) :
    Serves store s.system k cmd (serve store s.system k cmd).1 (serve store s.system k cmd).2 := by
  refine Server.serves fun call hin hk => ?_
  obtain ⟨⟨q, hq, hcmd'⟩, -⟩ := h.calls call hin
  rw [hk, hp] at hq
  obtain rfl := Option.some.inj hq
  exact Option.some.inj (hcmd'.symm.trans hcmd)

/-- A connection without a command has nothing under way. -/
theorem Aligned.free (h : Aligned s) (hnone : ∀ p, s.peers k = some p → p.command = none) :
    (∀ call ∈ s.system.calls, call.source ≠ k) ∧ ∀ e ∈ s.system.waiting, e.source ≠ k := by
  refine ⟨fun call hin hk => ?_, fun e hin hk => ?_⟩
  · obtain ⟨⟨p, hp, hcmd⟩, -⟩ := h.calls call hin
    rw [hnone p (hk ▸ hp)] at hcmd
    cases hcmd
  · obtain ⟨p, cmd, hp, hcmd⟩ := h.waiting e hin
    rw [hnone p (hk ▸ hp)] at hcmd
    cases hcmd

/-- A step of connection `k` that leaves the calls of the others alone. -/
theorem Aligned.put (h : Aligned s) {system : System σ} (hledger : Ledger system)
    (honce : Once system)
    (hcalls : ∀ call ∈ system.calls, call ∈ s.system.calls ∧ call.source ≠ k ∨
      call.source = k ∧ p.command = some call.cmd ∧ ∀ u ∈ call.updates, u ∈ call.cmd.updates k)
    (hwaiting : ∀ e ∈ system.waiting, e ∈ s.system.waiting ∧ e.source ≠ k ∨
      e.source = k ∧ ∃ cmd, p.command = some cmd) : Aligned (s.put k system p) where
  ledger := hledger
  once := honce
  calls := by
    intro call hin
    rcases hcalls call hin with ⟨hin, hne⟩ | ⟨rfl, hcmd, hupdates⟩
    · obtain ⟨⟨q, hq, hcmd⟩, hupdates⟩ := h.calls call hin
      exact ⟨⟨q, by simpa [BrokerServer.put, hne] using hq, hcmd⟩, hupdates⟩
    · exact ⟨⟨p, by simp [BrokerServer.put], hcmd⟩, hupdates⟩
  waiting := by
    intro e hin
    rcases hwaiting e hin with ⟨hin, hne⟩ | ⟨rfl, cmd, hcmd⟩
    · obtain ⟨q, cmd, hq, hcmd⟩ := h.waiting e hin
      exact ⟨q, cmd, by simpa [BrokerServer.put, hne] using hq, hcmd⟩
    · exact ⟨p, cmd, by simp [BrokerServer.put], hcmd⟩

/-! ## Alignment in runs -/

section

variable {s s' : System σ}

theorem Serves.ledger (hs : Serves store s k cmd s' answer) (h : Ledger s) : Ledger s' := by
  cases hs with
  | call hidle => exact ⟨h.sound, h.live⟩
  | track u us hcall => cases u <;> exact ⟨h.sound, h.live⟩
  | execute hcall => exact h.execute store k cmd
  | route e he hcalls =>
    simp only [System.route, BrokerService.routeOutput_eq]
    exact ⟨h.sound, h.live⟩

/-- Without connection `k`, and with `k` put back somewhere. -/
theorem Once.filter (h : Once s) {call : Call} (hcall : call ∈ s.calls) (hk : call.source = k) :
    (k :: ((s.calls.filter (·.source ≠ k)).map Call.source ++
      s.waiting.map source)).Nodup := by
  have hsub : ((s.calls.filter (·.source ≠ k)).map Call.source ++
      s.waiting.map source).Sublist
        (s.calls.map Call.source ++ s.waiting.map source) :=
    (filter_sublist.map _).append_right _
  refine nodup_cons.mpr ⟨fun hin => ?_, hsub.nodup h⟩
  rcases mem_append.mp hin with hin | hin
  · obtain ⟨call, hcall, rfl⟩ := mem_map.mp hin
    simpa using (mem_filter.mp hcall).2
  · obtain ⟨e, he, heq⟩ := mem_map.mp hin
    exact h.apart hcall he (heq.trans hk.symm)

theorem Serves.once (hs : Serves store s k cmd s' answer) (h : Once s) : Once s' := by
  cases hs with
  | call hidle =>
    have hnew : k ∉ s.calls.map Call.source ++ s.waiting.map source := by
      intro hin
      rcases mem_append.mp hin with hin | hin
      · obtain ⟨call, hcall, heq⟩ := mem_map.mp hin
        exact hidle.1 call hcall heq
      · obtain ⟨e, he, heq⟩ := mem_map.mp hin
        exact hidle.2 e he heq
    simp only [Once, map_append, map_cons, map_nil, List.append_assoc,
      singleton_append]
    exact perm_middle.nodup_iff.mpr (nodup_cons.mpr ⟨hnew, h⟩)
  | track u us hcall =>
    have hk := h.filter hcall rfl
    simp only [Once, map_append, map_cons, map_nil, List.append_assoc,
      singleton_append]
    exact perm_middle.nodup_iff.mpr hk
  | execute hcall =>
    have hk := h.filter hcall rfl
    simp only [Once, System.execute, map_append, map_cons, map_nil,
      ← List.append_assoc]
    exact (perm_append_singleton ..).nodup_iff.mpr hk
  | route e he hcalls =>
    have hsub : ((s.waiting.eraseP (·.source = e.source)).map source).Sublist
        (s.waiting.map source) := (eraseP_sublist ..).map _
    exact (hsub.append_left _).nodup h

/-- The calls and outputs of the other connections stay as they are. -/
theorem Serves.frame (hs : Serves store s k cmd s' answer) (honce : Once s)
    (hupdates : ∀ call ∈ s.calls, ∀ u ∈ call.updates, u ∈ call.cmd.updates call.source) :
    (∀ call ∈ s'.calls, call ∈ s.calls ∧ call.source ≠ k ∨
      call.source = k ∧ answer = none ∧ call.cmd = cmd ∧ ∀ u ∈ call.updates, u ∈ cmd.updates k) ∧
    ∀ e ∈ s'.waiting, e ∈ s.waiting ∧ e.source ≠ k ∨ e.source = k ∧ answer = none := by
  -- what `calls` holds next to the call of `k`
  have hfilter : ∀ call ∈ s.calls.filter (·.source ≠ k), call ∈ s.calls ∧ call.source ≠ k :=
    fun call hin => by simpa using hin
  cases hs with
  | call hidle =>
    refine ⟨fun call hin => ?_, fun e he => .inl ⟨he, hidle.2 e he⟩⟩
    rcases mem_append.mp hin with hin | hin
    · exact .inl ⟨hin, hidle.1 call hin⟩
    · obtain rfl := mem_singleton.mp hin
      exact .inr ⟨rfl, rfl, rfl, fun u hu => hu⟩
  | track u us hcall =>
    refine ⟨fun call hin => ?_, fun e he => .inl ⟨he, honce.apart hcall he⟩⟩
    rcases mem_append.mp hin with hin | hin
    · exact .inl (hfilter call hin)
    · obtain rfl := mem_singleton.mp hin
      exact .inr ⟨rfl, rfl, rfl, fun v hv => hupdates _ hcall v (mem_cons_of_mem u hv)⟩
  | execute hcall =>
    refine ⟨fun call hin => .inl (hfilter call hin), fun e he => ?_⟩
    rcases mem_append.mp he with he | he
    · exact .inl ⟨he, honce.apart hcall he⟩
    · obtain rfl := mem_singleton.mp he
      exact .inr ⟨rfl, rfl⟩
  | route e he hcalls =>
    obtain ⟨pre, post, hsplit, hsource, herase, -⟩ := find?_waiting he
    refine ⟨fun call hin => .inl ⟨hin, hcalls call hin⟩, fun e' he' => ?_⟩
    have hin : e' ∈ pre ++ post := herase ▸ he'
    -- the connection was there only once
    have hnodup : (s.waiting.map source).Nodup := (nodup_append.mp honce).2.1
    rw [hsplit, map_append, map_cons, perm_middle.nodup_iff,
      ← map_append, hsource] at hnodup
    refine .inl ⟨?_, fun heq => (nodup_cons.mp hnodup).1
      (mem_map.mpr ⟨e', hin, heq⟩)⟩
    rw [hsplit]
    simp only [mem_append, mem_cons] at hin ⊢
    tauto

end

/-- What the others wait for stays. -/
theorem Serves.waits {s s' : System σ} (hs : Serves store s k cmd s' answer) {e : Executed}
    (he : e ∈ s.waiting) (hne : e.source ≠ k) : e ∈ s'.waiting := by
  cases hs with
  | call hidle => exact he
  | track u us hcall => exact he
  | execute hcall => exact mem_append_left _ he
  | route e' he' hcalls =>
    have hk : e'.source = k := by simpa using find?_some he'
    exact (mem_eraseP_of_neg (by simpa [hk] using hne)).mpr he

/-- Steps that are not part of a call leave the calls alone. -/
theorem aligned_aside (h : Aligned s) (hnone : ∀ p, s.peers k = some p → p.command = none)
    {system : System σ} (p' : Peer) (hledger : Ledger system)
    (hcalls : system.calls = s.system.calls)
    (hwaiting : system.waiting = s.system.waiting) : Aligned (s.put k system p') := by
  obtain ⟨hfree, hfree'⟩ := h.free hnone
  refine h.put hledger ?_ (fun call hin => .inl ?_) fun e he => .inl ?_
  · rw [Once, hcalls, hwaiting]
    exact h.once
  · rw [hcalls] at hin
    exact ⟨hin, hfree call hin⟩
  · rw [hwaiting] at he
    exact ⟨he, hfree' e he⟩

theorem Aligned.moves (h : Aligned s) (hm : Moves store s k s') : Aligned s' := by
  cases hm with
  | stay => exact h
  | own p' hnone => exact aligned_aside h hnone p' h.ledger rfl rfl
  | control cmd p p' hp hnone =>
    exact aligned_aside h (no_command hp hnone) p' (h.ledger.control store cmd) rfl rfl
  | drain p p' hp hnone =>
    refine aligned_aside h (no_command hp hnone) p' (h.ledger.step store (.drain k)) ?_ ?_
    · simp only [System.step]; split <;> rfl
    · simp only [System.step]; split <;> rfl
  | serves cmd p p' hp hcmd hstay =>
    have hserves : Serves store s.system k cmd _ _ := h.serves hp hcmd
    obtain ⟨hcalls, hwaiting⟩ := hserves.frame h.once fun call hin => (h.calls call hin).2
    refine h.put (hserves.ledger h.ledger) (hserves.once h.once) (fun call hin => ?_)
      fun e he => ?_
    · rcases hcalls call hin with hold | ⟨hk, hanswer, rfl, hupdates⟩
      · exact .inl hold
      · exact .inr ⟨hk, hstay hanswer, hupdates⟩
    · rcases hwaiting e he with hold | ⟨hk, hanswer⟩
      · exact .inl hold
      · exact .inr ⟨hk, cmd, hstay hanswer⟩

/-- An act of connection `k` leaves the other connections alone. -/
theorem Moves.others (h : Aligned s) (hm : Moves store s k s') {j : Nat} (hj : j ≠ k) :
    s'.peers j = s.peers j ∧
      ∀ e ∈ s.system.waiting, e.source = j → e ∈ s'.system.waiting := by
  have hput : ∀ system p, (s.put k system p).peers j = s.peers j :=
    fun system p => Function.update_of_ne hj _ _
  cases hm with
  | stay => exact ⟨rfl, fun e he _ => he⟩
  | own p' hnone => exact ⟨hput _ _, fun e he _ => he⟩
  | control cmd p p' hp hnone => exact ⟨hput _ _, fun e he _ => he⟩
  | drain p p' hp hnone =>
    refine ⟨hput _ _, fun e he _ => ?_⟩
    simp only [put, System.step]
    split <;> exact he
  | serves cmd p p' hp hcmd hstay =>
    refine ⟨hput _ _, fun e he hsource => ?_⟩
    exact (h.serves hp hcmd).waits he (hsource ▸ hj)

/-- **Every run keeps the service and the sessions aligned.** -/
theorem aligned_run (store : ShardStorage σ) (order : Nat → HashOrder)
    {routing : RoutingBootstrapConfig} (hnew : SingleNodeBroker.new routing durable = .ok broker)
    (acts : List Act) : Aligned ((new broker).run store order acts) := by
  exact Meets.invariant (fun s a h _ => h.moves (moves_step order s a)) (meets_true _ acts)
    (aligned_new (SingleNodeBroker.new_shard hnew))

/-! ## Clients -/

/-- An AMQP client sends frames, and its connection handles all of them. -/
def talks (k : Nat) (frames : List Frame) : List Act :=
  .receive k frames :: List.replicate (7 * frames.length + 1) (.advance k)

/-- The frames that open a connection. -/
def handshake : List Frame :=
  [.protocolHeader, .method 0 (some (.connection (.startOk ⟨.nil, [], [], []⟩))),
    .method 0 (some (.connection (.tuneOk ⟨0, defaultFrameMax, 0⟩))),
    .method 0 (some (.connection (.open [47] false)))]

/-- `channel.open`. -/
def openFrame (channel : Nat) : Frame := .method channel (some (.channel (.open [])))

/-- `queue.declare` of `test.queue`. -/
def declareFrame (channel : Nat) : Frame :=
  .method channel (some (.queue (.declare ⟨testQueue, false, false, false, false, false, .nil⟩)))

/-- `basic.consume` from `test.queue`. -/
def consumeFrame (channel : Nat) (tag : ShortStr) : Frame :=
  .method channel (some (.basic (.consume ⟨testQueue, tag, false, false, false, false, .nil⟩)))

/-- `basic.publish` to `amq.direct` with the key of `test.queue`, and its
content. -/
def publishFrames (channel : Nat) (body : List UInt8) : List Frame :=
  [.method channel (some (.basic (.publish ⟨amqDirect, [116, 101, 115, 116], false, false⟩))),
    .header channel (some ⟨classBasic, body.length, .empty⟩), .body channel body]

end Aurum.Server
