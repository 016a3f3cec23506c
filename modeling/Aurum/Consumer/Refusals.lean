import Aurum.Consumer.Steps

/-!
# Consumer — which requests are refused, and with which error

The session decides from `next_tag` and the window whether a tag was
never issued or is settled already. Both notions have a meaning of their
own, in terms of the calls made so far: a tag was issued when a delivery
to the session carried it, and is settled when a later successful
request of the session covered it. `recorded_run` says that the session
knows: the issued tags are those below `next_tag`, and the window holds
exactly the issued tags that are not settled.
-/

namespace Aurum.Consumer

open Aurum.Bits Aurum.Kernels Aurum.Queue Aurum.Runs List ConsumerSession SharedOp

namespace SharedQueue

/-! ## The past of a session -/

/-- The tags an operation hands to session `i`. -/
def tagsFor (sys : SharedQueue) (i : Nat) : SharedOp → List Nat
  | .deliver j max =>
    if j = i then
      ((sys.handed (.deliver j max)).flatMap TaggedDeliverySegment.entries).map Prod.fst
    else []
  | _ => []

/-- An operation settles tag `t` of session `i`, if it was issued. -/
def settlesTag (sys : SharedQueue) (i t : Nat) (op : SharedOp) : Bool :=
  sys.succeeds op && op.covers i t

/-- A delivery to session `i` carried the tag. -/
def Issued (i t : Nat) (ops : List SharedOp) : Prop :=
  Happened (fun before op => t ∈ (run before).tagsFor i op) ops

/-- A successful request of session `i` covered the tag after it was
issued. -/
def Settled (i t : Nat) (ops : List SharedOp) : Prop :=
  Happened (fun before op => Issued i t before ∧ (run before).settlesTag i t op = true) ops

variable {t : Nat} {ops : List SharedOp} {s s' : ConsumerSession} {q q' : HybridRangeBlockQueue}
  {take : Nat → Bool} {dst : MessageState}

theorem Settled.issued {i : Nat} (h : Settled i t ops) : Issued i t ops := by
  obtain ⟨before, op, after, rfl, ⟨b, o, a, rfl, hmem⟩, -⟩ := h
  exact ⟨b, o, a ++ op :: after, by simp, hmem⟩

/-! ## One operation, seen from one session -/

/-- What an operation does to the session at position `i`, which need
not exist. -/
inductive Acts (sys : SharedQueue) (st : Nat → Option MessageState) (op : SharedOp) (i : Nat) :
    Option ConsumerSession → Option ConsumerSession → Prop where
  | still {v : Option ConsumerSession} (hout : sys.tagsFor i op = [])
      (hcov : ∀ t, sys.settlesTag i t op = false) : Acts sys st op i v v
  | opens {id channelId : Nat} {prefetch : PrefetchMode} (hout : sys.tagsFor i op = [])
      (hcov : ∀ t, sys.settlesTag i t op = false) :
      Acts sys st op i none (some (new id channelId prefetch))
  | delivers {s s' : ConsumerSession} {q' : HybridRangeBlockQueue} {S : List Nat}
      {out : List TaggedDeliverySegment} {asked n : Nat} (hok : SessionOk s)
      (spec : SessionDelivers s sys.queue st asked S s' q' out n)
      (hout : sys.tagsFor i op = List.range' s.nextTag S.length)
      (hcov : ∀ t, sys.settlesTag i t op = false) : Acts sys st op i (some s) (some s')
  | settles {s s' : ConsumerSession} {q' : HybridRangeBlockQueue} {take : Nat → Bool}
      {dst : MessageState} (spec : Settles take dst s sys.queue st s' q')
      (hout : sys.tagsFor i op = []) (hcov : ∀ t, sys.settlesTag i t op = take t) :
      Acts sys st op i (some s) (some s')

variable {sys : SharedQueue} {st : Nat → Option MessageState}

theorem tagsFor_of_refused {op : SharedOp} (h : sys.succeeds op = false) (i : Nat) :
    sys.tagsFor i op = [] := by
  cases op with
  | deliver j max => simp [tagsFor, handed_of_refused h]
  | _ => rfl

/-- **An operation seen from one session.** -/
theorem session_acts (h : Owns sys.queue st sys.sessions) (op : SharedOp) (i : Nat) :
    Acts sys st op i sys.sessions[i]? (sys.step op).sessions[i]? := by
  have heff := step_effect h op
  generalize sys.step op = sys' at heff ⊢
  cases heff with
  | refused hfail => exact .still (tagsFor_of_refused hfail i) fun t => by simp [settlesTag, hfail]
  | published count => exact .still rfl fun t => by simp [settlesTag, covers]
  | retried => exact .still rfl fun t => by simp [settlesTag, covers]
  | opened id channelId prefetch =>
    have hcov : ∀ t, sys.settlesTag i t (.openSession id channelId prefetch) = false :=
      fun t => by simp [settlesTag, covers]
    rcases Nat.lt_trichotomy i sys.sessions.length with hlt | rfl | hgt
    · rw [getElem?_append_left hlt]
      exact .still rfl hcov
    · rw [getElem?_concat_length, getElem?_eq_none (Nat.le_refl _)]
      exact .opens rfl hcov
    · have hnone : (sys.sessions ++ [new id channelId prefetch])[i]? = none :=
        getElem?_eq_none (by simp; omega)
      rw [hnone, getElem?_eq_none (by omega)]
      exact .still rfl hcov
  | @delivered j max n s s' q' S out hs call spec tally =>
    have hcov : ∀ t, sys.settlesTag i t (.deliver j max) = false :=
      fun t => by simp [settlesTag, covers]
    by_cases hij : j = i
    · subst hij
      rw [getElem?_set_self' , hs]
      refine .delivers (h.ok s (mem_of_getElem? hs)) spec ?_ hcov
      rw [tagsFor, if_pos rfl, handed_of_ok hs call, spec.out, map_fst_tagged]
    · rw [getElem?_set_ne hij]
      exact .still (by simp [tagsFor, hij]) hcov
  | @settled _ j s s' q' take dst hs hok hout hcov spec hdst tally =>
    have htags : sys.tagsFor i op = [] := by
      cases op with
      | deliver k max => simp [tagsFor, hout]
      | _ => rfl
    by_cases hij : j = i
    · subst hij
      rw [getElem?_set_self', hs]
      exact .settles spec htags fun t => by simp [settlesTag, hok, hcov]
    · rw [getElem?_set_ne hij]
      exact .still htags fun t => by simp [settlesTag, hcov, hij]

/-! ## The session knows its past -/

/-- What the session at position `i` knows about the tags. -/
def Recorded (i : Nat) (ops : List SharedOp) : Option ConsumerSession → Prop
  | none => ∀ t, ¬ Issued i t ops
  | some s => (∀ t, Issued i t ops ↔ 1 ≤ t ∧ t < s.nextTag) ∧
      ∀ t, (∃ x, (t, x) ∈ s.entries) ↔ Issued i t ops ∧ ¬ Settled i t ops

variable {i : Nat} {op : SharedOp}

theorem issued_snoc : Issued i t (ops ++ [op]) ↔ Issued i t ops ∨ t ∈ (run ops).tagsFor i op :=
  happened_snoc

theorem settled_snoc : Settled i t (ops ++ [op]) ↔
    Settled i t ops ∨ Issued i t ops ∧ (run ops).settlesTag i t op = true :=
  happened_snoc

/-- An operation that hands the session nothing and settles nothing of
it leaves its past as it was. -/
theorem past_still (hout : (run ops).tagsFor i op = [])
    (hcov : ∀ t, (run ops).settlesTag i t op = false) (t : Nat) :
    (Issued i t (ops ++ [op]) ↔ Issued i t ops) ∧
      (Settled i t (ops ++ [op]) ↔ Settled i t ops) := by
  rw [issued_snoc, settled_snoc, hout, hcov]
  simp

theorem mem_entries_delivers {S : List Nat} {out : List TaggedDeliverySegment} {asked n : Nat}
    (spec : SessionDelivers s q st asked S s' q' out n) (t : Nat) :
    (∃ x, (t, x) ∈ s'.entries) ↔
      (∃ x, (t, x) ∈ s.entries) ∨ s.nextTag ≤ t ∧ t < s.nextTag + S.length := by
  have hnew : (∃ x, (t, x) ∈ tagged s.nextTag S) ↔ t ∈ List.range' s.nextTag S.length := by
    rw [← map_fst_tagged, mem_map]
    simp
  rw [spec.entries, ← mem_range'_1, ← hnew]
  simp only [mem_append, exists_or]

theorem mem_entries_settles (spec : Settles take dst s q st s' q') (t : Nat) :
    (∃ x, (t, x) ∈ s'.entries) ↔ (∃ x, (t, x) ∈ s.entries) ∧ take t = false := by
  rw [spec.entries]
  simp [taken]

/-- One operation. -/
theorem recorded_acts {v v' : Option ConsumerSession} (hacts : Acts (run ops) st op i v v')
    (h : Recorded i ops v) : Recorded i (ops ++ [op]) v' := by
  cases hacts with
  | still hout hcov =>
    have hpast := past_still hout hcov
    cases v with
    | none => exact fun t => mt (hpast t).1.mp (h t)
    | some s =>
      refine ⟨fun t => (hpast t).1.trans (h.1 t), fun t => (h.2 t).trans ?_⟩
      rw [(hpast t).1, (hpast t).2]
  | opens hout hcov =>
    have hno : ∀ t, ¬ Issued i t (ops ++ [op]) :=
      fun t => mt (past_still hout hcov t).1.mp (h t)
    refine ⟨fun t => iff_of_false (hno t) ?_, fun t => iff_of_false ?_ fun hc => hno t hc.1⟩
    · simp only [new]
      omega
    · simp [new, entries, SegmentDeliveryWindow.new]
  | @delivers s s' q' S out asked n hok spec hout hcov =>
    have hissued : ∀ t, Issued i t (ops ++ [op]) ↔
        Issued i t ops ∨ s.nextTag ≤ t ∧ t < s.nextTag + S.length := fun t => by
      rw [issued_snoc, hout, mem_range'_1]
    have hsettled : ∀ t, Settled i t (ops ++ [op]) ↔ Settled i t ops := fun t => by
      rw [settled_snoc, hcov]
      simp
    have hfresh : ∀ t, s.nextTag ≤ t → ¬ Settled i t ops := fun t ht hs => by
      have := ((h.1 t).mp hs.issued).2
      omega
    refine ⟨fun t => ?_, fun t => ?_⟩
    · -- `next_tag` moved past the tags just handed out
      have hpos := hok.next
      rw [hissued, h.1, spec.nextTag]
      omega
    · rw [mem_entries_delivers spec, h.2, hissued, hsettled]
      constructor
      · rintro (⟨hi, hs⟩ | hn)
        · exact ⟨.inl hi, hs⟩
        · exact ⟨.inr hn, hfresh t hn.1⟩
      · rintro ⟨hi | hn, hs⟩
        · exact .inl ⟨hi, hs⟩
        · exact .inr hn
  | @settles s s' q' take dst spec hout hcov =>
    have hissued : ∀ t, Issued i t (ops ++ [op]) ↔ Issued i t ops := fun t => by
      rw [issued_snoc, hout]
      simp
    refine ⟨fun t => ?_, fun t => ?_⟩
    · rw [hissued, h.1, spec.nextTag]
    · rw [mem_entries_settles spec, h.2, hissued, settled_snoc, hcov]
      cases take t with
      | true => simpa using fun hi _ => hi
      | false => simp

/-- **A session knows its past.** -/
theorem recorded_run (i : Nat) (ops : List SharedOp) : Recorded i ops (run ops).sessions[i]? := by
  induction ops using reverseRecOn with
  | nil => exact fun t => not_happened_nil _
  | append_singleton ops op ih =>
    obtain ⟨st, h⟩ := owned_run ops
    rw [run_snoc]
    exact recorded_acts (session_acts h op i) ih

/-! ## Refusals -/

/-- How a settlement request for tag `t` of session `i`, made as the
operation `op` after the run `ops`, has to be answered. `dst` is the
state it gives the messages. -/
structure Precise {β : Type} (ops : List SharedOp) (i : Nat) (s : ConsumerSession) (t : Nat)
    (dst : MessageState) (op : SharedOp)
    (res : Except ConsumerError (ConsumerSession × HybridRangeBlockQueue × β)) : Prop where
  cancelled : res = .error .consumerCancelled ↔ s.cancelled = true
  invalid : s.cancelled = false → (res = .error .invalidDeliveryTag ↔ ¬ Issued i t ops)
  settled : s.cancelled = false →
    (res = .error .deliveryTagAlreadySettled ↔ Issued i t ops ∧ Settled i t ops)
  succeeds : s.cancelled = false → Issued i t ops → ¬ Settled i t ops →
    ∃ s' q' r, res = .ok (s', q', r) ∧ ∃ x, (t, x) ∈ s.entries ∧ (t, x) ∉ s'.entries ∧
      (run ops).queue.inState .inflight x = true ∧ q'.inState dst x = true
  unchanged : ∀ e, res = .error e → (run ops).step op = run ops

/-- The answer follows from what the call does with an outstanding tag
and with any other. -/
theorem precise_of {β : Type} {i : Nat} {op : SharedOp}
    {res : Except ConsumerError (ConsumerSession × HybridRangeBlockQueue × β)}
    (h : Owns (run ops).queue st (run ops).sessions) (hs : (run ops).sessions[i]? = some s)
    (htake : take t = true) (hok : ∀ x, (t, x) ∈ s.entries →
      ∃ s' q' r, res = .ok (s', q', r) ∧ Settles take dst s (run ops).queue st s' q')
    (hno : (∀ x, (t, x) ∉ s.entries) → res = .error (refusal s t))
    (hsame : ∀ e, res = .error e → (run ops).step op = run ops) : Precise ops i s t dst op res := by
  have hrec := recorded_run i ops
  rw [hs] at hrec
  obtain ⟨hissued, hentries⟩ := hrec
  have hsess := h.ok s (mem_of_getElem? hs)
  by_cases hx : ∃ x, (t, x) ∈ s.entries
  · -- the tag is outstanding: the call succeeds
    obtain ⟨hi, hns⟩ := (hentries t).mp hx
    obtain ⟨x, hx⟩ := hx
    obtain ⟨s', q', r, rfl, hset⟩ := hok x hx
    have hcan : s.cancelled = false := by
      rw [Bool.eq_false_iff]
      intro hc
      rw [hsess.drained hc] at hx
      cases hx
    have hin := h.entries_inflight (mem_of_getElem? hs) _ hx
    refine ⟨by simp [hcan], fun _ => by simp [hi], fun _ => by simp [hns], fun _ _ _ => ?_, hsame⟩
    refine ⟨s', q', r, rfl, x, hx, ?_, (h.denotes.state .inflight x).mpr hin, ?_⟩
    · rw [hset.entries]
      simp [taken, htake]
    · refine (hset.denotes.state dst x).mpr (setAll_of_mem ?_)
      exact mem_map.mpr ⟨(t, x), mem_filter.mpr ⟨hx, htake⟩, rfl⟩
  · -- it is not: the refusal reads the session's past
    have hres := hno (not_exists.mp hx)
    subst hres
    have hpast : Issued i t ops → Settled i t ops := fun hi =>
      Classical.byContradiction fun hns => hx ((hentries t).mpr ⟨hi, hns⟩)
    have hlt : Issued i t ops ↔ ¬ (t < 1 ∨ s.nextTag ≤ t) := (hissued t).trans (by omega)
    refine ⟨?_, fun hcan => ?_, fun hcan => ?_, fun _ hi hns => absurd (hpast hi) hns, hsame⟩
    · rw [refusal]
      split
      · next hcan => simp [hcan]
      · next hcan => split <;> simp [hcan]
    · rw [hlt, not_not, refusal, hcan, if_neg (by simp)]
      split
      · next hb => exact iff_of_true rfl hb
      · next hb => exact iff_of_false (by simp) hb
    · rw [and_iff_left_of_imp hpast, hlt, refusal, hcan, if_neg (by simp)]
      split
      · next hb => exact iff_of_false (by simp) (not_not_intro hb)
      · next hb => exact iff_of_true rfl hb

/-- **Failed settlement is precise and has no effect.** In every state
of a run, for every session, tag and mode, `ack` and `nack` (whatever
its reason) answer with the error that the past of the tag calls for,
settle the tag's message when there is none, and change nothing when
they fail. -/
theorem settlement_errors_precise (ops : List SharedOp) {i : Nat} {s : ConsumerSession}
    (hs : (run ops).sessions[i]? = some s) (t : Nat) (mode : AckMode) :
    Precise ops i s t .acked (.ack i ⟨t, mode⟩) (s.ack ⟨t, mode⟩ (run ops).queue) ∧
    ∀ reason, Precise ops i s t (target reason) (.nack i ⟨t, mode, reason⟩)
      (s.nack ⟨t, mode, reason⟩ (run ops).queue) := by
  obtain ⟨st, h⟩ := owned_run ops
  have hmem := mem_of_getElem? hs
  have hin := h.entries_inflight hmem
  have htake : mode.takes t t = true := by cases mode <;> simp [AckMode.takes]
  refine ⟨precise_of h hs htake (fun x hx => ?_) (fun hx => ack_refused hx mode) fun e he => ?_,
    fun reason => precise_of h hs htake (fun x hx => ?_) (fun hx => nack_refused hx mode reason)
      fun e he => ?_⟩
  · obtain ⟨s', q', ranges, heq, hset, -⟩ := ack_ok (h.ok s hmem) h.denotes hin hx mode
    exact ⟨s', q', _, heq, hset⟩
  · rw [step, onSession, hs]
    simp [he, Except.toOption]
  · obtain ⟨s', q', heq, hset, -⟩ := nack_ok (h.ok s hmem) h.denotes hin hx mode reason
    exact ⟨s', q', _, heq, hset⟩
  · rw [step, onSession, hs]
    simp [he, Except.toOption]

/-- Tag 1 was issued and acked: a second ack of it is refused as
settled. -/
theorem second_ack_refused : ∃ s, (run [.openSession 1 1 .unlimited, .publish 2, .deliver 0 2,
        .ack 0 ⟨1, .one⟩]).sessions[0]? = some s ∧
      s.ack ⟨1, .one⟩ (run [.openSession 1 1 .unlimited, .publish 2, .deliver 0 2,
        .ack 0 ⟨1, .one⟩]).queue = .error .deliveryTagAlreadySettled := by
  obtain ⟨s, hs⟩ := Option.isSome_iff_exists.mp (show (run [.openSession 1 1 .unlimited,
    .publish 2, .deliver 0 2, .ack 0 ⟨1, .one⟩]).sessions[0]?.isSome = true by decide)
  have hcan : s.cancelled = false := by
    have h := show (run [.openSession 1 1 .unlimited, .publish 2, .deliver 0 2,
      .ack 0 ⟨1, .one⟩]).sessions[0]?.map ConsumerSession.cancelled = some false by decide
    rw [hs] at h
    exact Option.some.inj h
  refine ⟨s, hs, ((settlement_errors_precise _ hs 1 .one).1.settled hcan).mpr ⟨?_, ?_⟩⟩
  · exact ⟨[.openSession 1 1 .unlimited, .publish 2], .deliver 0 2, [.ack 0 ⟨1, .one⟩], rfl,
      by decide⟩
  · refine ⟨[.openSession 1 1 .unlimited, .publish 2, .deliver 0 2], .ack 0 ⟨1, .one⟩, [], rfl,
      ?_, by decide⟩
    exact ⟨[.openSession 1 1 .unlimited, .publish 2], .deliver 0 2, [], rfl, by decide⟩

end SharedQueue

end Aurum.Consumer
