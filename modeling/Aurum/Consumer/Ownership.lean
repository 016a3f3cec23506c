import Aurum.Consumer.SessionSpec
import Aurum.Queue.Diagnostics

/-!
# Consumer — who owns a message

A queue shared by several sessions. Neither `apply_ack_batch` nor
`apply_nack_batch` checks that the messages of a batch are inflight, so
the queue stays consistent only because the windows name nothing else:
`Owns` says that the inflight messages are exactly the outstanding ones
of the sessions, each held once. Every operation of any session keeps
it, and a run of the shared queue is a list of such operations.
-/

namespace Aurum.Consumer

open Aurum.Bits Aurum.Kernels Aurum.Queue List HybridRangeBlockQueue

/-- The messages the sessions hold. -/
def holdings (sessions : List ConsumerSession) : List Nat :=
  sessions.flatMap fun s => s.entries.map Prod.snd

theorem mem_holdings {sessions : List ConsumerSession} {x : Nat} :
    x ∈ holdings sessions ↔ ∃ s ∈ sessions, ∃ tag, (tag, x) ∈ s.entries := by
  simp [holdings]

theorem holdings_split (pre post : List ConsumerSession) (s : ConsumerSession) :
    holdings (pre ++ s :: post) =
      holdings pre ++ (s.entries.map Prod.snd ++ holdings post) := by
  simp [holdings]

/-- One session may be listed first. -/
theorem holdings_perm (pre post : List ConsumerSession) (s : ConsumerSession) :
    (holdings (pre ++ s :: post)).Perm
      (s.entries.map Prod.snd ++ (holdings pre ++ holdings post)) := by
  rw [holdings_split]
  exact perm_append_comm_assoc _ _ _

/-- **The sessions own the inflight messages of the queue.** -/
structure Owns (q : HybridRangeBlockQueue) (st : Nat → Option MessageState)
    (sessions : List ConsumerSession) : Prop where
  denotes : q.Denotes st
  ok : ∀ s ∈ sessions, SessionOk s
  nodup : (holdings sessions).Nodup
  inflight : ∀ x, st x = some .inflight ↔ x ∈ holdings sessions

variable {q q' : HybridRangeBlockQueue} {st : Nat → Option MessageState}
  {pre post sessions : List ConsumerSession} {s s' : ConsumerSession}

theorem owns_empty : Owns empty (fun _ => none) [] :=
  ⟨denotes_empty, by simp, by simp [holdings], by simp [holdings]⟩

section

variable (h : Owns q st sessions)
include h

theorem Owns.entries_inflight (hs : s ∈ sessions) :
    ∀ e ∈ s.entries, st e.2 = some .inflight := fun e he =>
  (h.inflight e.2).mpr (mem_holdings.mpr ⟨s, hs, e.1, he⟩)

theorem Owns.held : Inflight st (holdings sessions) :=
  ⟨h.nodup, h.inflight⟩

/-- Fewer messages are held than were published. -/
theorem Owns.length_le : (holdings sessions).length ≤ q.nextSeq :=
  length_le_of_lt h.nodup fun x hx => h.denotes.lt_next ((h.inflight x).mpr hx)

theorem Owns.entries_length_le (hs : s ∈ sessions) : s.entries.length ≤ q.nextSeq := by
  obtain ⟨pre, post, rfl⟩ := append_of_mem hs
  have hle := h.length_le
  rw [holdings_split, length_append, length_append, length_map] at hle
  omega

/-- **A `nack`** settles what it takes, or its tag is not outstanding and
it is refused. -/
theorem Owns.nack_cases (hs : s ∈ sessions) (req : NackRequest) :
    (∃ s' q', s.nack req q = .ok (s', q', nackResult req.reason
        ((taken (req.mode.takes req.tag) s.entries).length % 2 ^ 32)) ∧
      Settles (req.mode.takes req.tag) (target req.reason) s q st s' q' ∧
      s'.cancelled = s.cancelled ∧ ∃ x, (req.tag, x) ∈ s.entries) ∨
    s.nack req q = .error (refusal s req.tag) ∧ ∀ x, (req.tag, x) ∉ s.entries := by
  obtain ⟨tag, mode, reason⟩ := req
  by_cases hx : ∃ x, (tag, x) ∈ s.entries
  · obtain ⟨x, hx⟩ := hx
    obtain ⟨s', q', heq, hset, hlive⟩ :=
      nack_ok (h.ok s hs) h.denotes (h.entries_inflight hs) hx mode reason
    exact .inl ⟨s', q', heq, hset, hlive, x, hx⟩
  · exact .inr ⟨nack_refused (not_exists.mp hx) mode reason, not_exists.mp hx⟩

/-! ## Queue operations -/

theorem Owns.publish (count : Nat) :
    Owns (q.publishContiguous count).1 (publishAll st q.nextSeq count)
      sessions where
  denotes := (h.denotes.publishContiguous count).1
  ok := h.ok
  nodup := h.nodup
  inflight := fun x => by
    rw [← h.inflight, publishAll]
    split
    · next hx => simp [(h.denotes.dom x).mpr hx.1]
    · rfl

theorem Owns.retry : ∃ st', Owns q.retryAllNow.1 st' sessions := by
  obtain ⟨S, hq, -, hS, -, -⟩ := h.denotes.retryAllNow
  have hheld : Inflight (setAll st S .sparseReady) (holdings sessions) :=
    h.held.other (fun x hx => by simp [(hS x).mp hx]) (by simp)
  exact ⟨_, hq, h.ok, hheld.nodup, hheld.mem⟩

end

/-! ## Session operations -/

/-- A session without entries joins. -/
theorem Owns.join (h : Owns q st (pre ++ post)) (hs : SessionOk s) (hempty : s.entries = []) :
    Owns q st (pre ++ s :: post) := by
  have hhold : holdings (pre ++ s :: post) = holdings (pre ++ post) := by
    simp [holdings, hempty]
  refine ⟨h.denotes, fun c hc => ?_, by rw [hhold]; exact h.nodup, by rw [hhold]; exact h.inflight⟩
  rw [mem_append, mem_cons] at hc
  rcases hc with hc | rfl | hc
  · exact h.ok c (mem_append_left _ hc)
  · exact hs
  · exact h.ok c (mem_append_right _ hc)

/-- A session without entries leaves. -/
theorem Owns.leave (h : Owns q st (pre ++ s :: post)) (hempty : s.entries = []) :
    Owns q st (pre ++ post) := by
  have hhold : holdings (pre ++ s :: post) = holdings (pre ++ post) := by
    simp [holdings, hempty]
  refine ⟨h.denotes, fun c hc => h.ok c ?_, by rw [← hhold]; exact h.nodup,
    by rw [← hhold]; exact h.inflight⟩
  rw [mem_append] at hc
  rw [mem_append, mem_cons]
  tauto

theorem Owns.replace_ok (h : Owns q st (pre ++ s :: post)) (hs' : SessionOk s') :
    ∀ c ∈ pre ++ s' :: post, SessionOk c := by
  intro c hc
  rw [mem_append, mem_cons] at hc
  rcases hc with hc | rfl | hc
  · exact h.ok c (by simp [hc])
  · exact hs'
  · exact h.ok c (by simp [hc])

/-- **Delivery** hands the messages to exactly one session. -/
theorem Owns.deliver (h : Owns q st (pre ++ s :: post)) {asked n : Nat} {S : List Nat}
    {out : List TaggedDeliverySegment} (hd : SessionDelivers s q st asked S s' q' out n) :
    Owns q' (setAll st S .inflight) (pre ++ s' :: post) := by
  have hperm : (holdings (pre ++ s' :: post)).Perm (S ++ holdings (pre ++ s :: post)) := by
    refine (holdings_perm pre post s').trans ?_
    rw [hd.entries, map_append, map_snd_tagged]
    refine (perm_append_comm.append_right _).trans ?_
    rw [List.append_assoc]
    exact (holdings_perm pre post s).symm.append_left S
  have hheld := h.held.hand hd.nodup hd.available hperm
  exact ⟨hd.denotes, h.replace_ok hd.ok, hheld.nodup, hheld.mem⟩

/-- **Settlement** takes the messages from the session that held them. -/
theorem Owns.settle (h : Owns q st (pre ++ s :: post)) {take : Nat → Bool} {dst : MessageState}
    (hdst : dst ≠ .inflight) (hset : Settles take dst s q st s' q') :
    Owns q' (setAll st ((taken take s.entries).map Prod.snd) dst) (pre ++ s' :: post) := by
  have hperm : (holdings (pre ++ s :: post)).Perm
      ((taken take s.entries).map Prod.snd ++ holdings (pre ++ s' :: post)) := by
    refine (holdings_perm pre post s).trans
      (((map_taken_perm take s.entries).append_right _).trans ?_)
    rw [List.append_assoc, ← hset.entries]
    exact (holdings_perm pre post s').symm.append_left _
  have hheld := h.held.settle hperm hdst
  exact ⟨hset.denotes, h.replace_ok hset.ok, hheld.nodup, hheld.mem⟩

end Aurum.Consumer
