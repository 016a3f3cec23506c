import Aurum.Intrusive.Spec
import Mathlib.Data.List.InsertIdx

/-!
# Intrusive — every call on one list

The calls of `IndexList` on a single list, as data: what each runs
(`Call.run`), what the source documents that a caller must ensure
(`Call.Pre`), and what it does to the sequence (`Call.apply`,
`Call.Returns`). `Call.run_spec` is the one statement about all of them:
under its precondition a call does not panic and turns the sequence as
said. Iteration and membership are read off the sequence.
-/

namespace Aurum.Intrusive

open Aurum.Dll List IndexList Link SameBut

section

variable {T : Type} {slot : LinkSlot T} {tag : BitVec 32} {nodes : List T} {list : IndexList}
  {xs as bs : List Nat} {index : Nat}

/-! ## Reading a list -/

theorem Holds.isLinked (h : Holds slot tag nodes list xs) {i : Nat} (hi : i ∈ xs) :
    (linkAt slot nodes i).isLinked = true := by
  rw [Link.isLinked, h.tagged i hi]
  exact isLinked_linked tag

/-- An iterator over a segment, in either direction. -/
theorem iterLoop_eq {step back : Link → Option Nat} : ∀ (ys : List Nat) (p : Option Nat),
      Seg (fun i => ⟨back (linkAt slot nodes i), step (linkAt slot nodes i)⟩) p ys none →
      iterLoop slot step nodes ys.length ys.head? = ys := by
  intro ys
  induction ys with
  | nil => exact fun _ _ => rfl
  | cons y ys ih =>
    intro p hseg
    have hy := hseg.front
    rw [Cell.mk.injEq, Option.or_none] at hy
    rw [length_cons, head?_cons, iterLoop, hy.2, ih _ hseg.2]

theorem Holds.iter (h : Holds slot tag nodes list xs) : list.iter slot nodes = xs := by
  rw [IndexList.iter, h.len, h.head]
  exact iterLoop_eq xs none h.seg

theorem Holds.contains (h : Holds slot tag nodes list xs) (i : Nat) :
    list.contains slot nodes i = true ↔ i ∈ xs := by
  rw [IndexList.contains, h.iter]
  simp

/-- The checks of an insertion, read off the link and the header. -/
theorem checkInsert_ok : list.checkInsertPreconditions slot nodes index = .ok () ↔
      index < nodes.length ∧ (linkAt slot nodes index).isLinked = false ∧
        list.len ≠ 2 ^ 32 - 1 := by
  unfold checkInsertPreconditions
  split_ifs with hb hl hm <;> simp_all

/-! ## Inserting beside a member -/

/-- Between two neighbours the header only counts the new node. -/
theorem Holds.linkInner (h : Holds slot tag nodes list (as ++ bs)) (ha : as ≠ []) (hbs : bs ≠ [])
    (hb : index < nodes.length) (hnew : index ∉ as ++ bs) :
    Turns slot tag nodes (as ++ bs) (linkIn slot tag nodes as.getLast? bs.head? index)
      { list with len := list.len + 1 } (as ++ index :: bs) := by
  refine h.link hb hnew ?_ ?_ rfl
  · cases as with
    | nil => exact absurd rfl ha
    | cons a as => exact h.head
  · cases bs with
    | nil => exact absurd rfl hbs
    | cons b bs => simp only [h.tail, getLast?_append, getLast?_cons_cons]

/-- The last member is another one than a member with a successor. -/
theorem Holds.tail_beyond {b : Nat} (h : Holds slot tag nodes list (as ++ index :: b :: bs)) :
    ∃ last, list.tail = some last ∧ last ≠ index := by
  obtain ⟨last, hlast⟩ : ∃ y, (b :: bs).getLast? = some y :=
    ⟨_, getLast?_eq_some_getLast (cons_ne_nil b bs)⟩
  refine ⟨last, ?_, ?_⟩
  · rw [h.tail, getLast?_append, getLast?_cons_cons, hlast, Option.some_or]
  · rintro rfl
    have hnodup := (nodup_append.mp h.nodup).2.1
    exact (nodup_cons.mp hnodup).1 (mem_of_getLast? hlast)

theorem Holds.head_before {a : Nat} (h : Holds slot tag nodes list (a :: as ++ index :: bs)) :
    list.head = some a ∧ a ≠ index := by
  refine ⟨h.head, ?_⟩
  rintro rfl
  exact (nodup_cons.mp h.nodup).1 (by simp)

theorem Holds.insertAfter {at_ : Nat} (h : Holds slot tag nodes list (as ++ at_ :: bs))
    (hb : index < nodes.length) (hnew : index ∉ as ++ at_ :: bs) :
    ∃ list' nodes', list.insertAfter slot tag nodes at_ index = some (list', nodes') ∧
      Turns slot tag nodes (as ++ at_ :: bs) nodes' list' (as ++ at_ :: index :: bs) ∧
      SameBut slot nodes nodes' := by
  unfold IndexList.insertAfter
  cases bs with
  | nil =>
    rw [if_pos (by simp [h.tail])]
    have hturn := h.pushBack hb hnew
    rw [List.append_assoc] at hturn
    exact ⟨_, _, rfl, hturn, sameBut_pushBack _ _ _⟩
  | cons b bs =>
    obtain ⟨last, htail, hne⟩ := h.tail_beyond
    rw [if_neg (by simpa [htail] using hne), h.link_of_mem]
    have heq : ∀ zs, as ++ at_ :: zs = (as ++ [at_]) ++ zs := by simp
    rw [heq (b :: bs)] at h hnew ⊢
    rw [heq (index :: b :: bs)]
    have hturn := h.linkInner (by simp) (cons_ne_nil b bs) hb hnew
    rw [getLast?_concat] at hturn
    exact ⟨_, _, rfl, hturn, sameBut_linkIn nodes (some at_) (some b) index⟩

theorem Holds.insertBefore {at_ : Nat} (h : Holds slot tag nodes list (as ++ at_ :: bs))
    (hb : index < nodes.length) (hnew : index ∉ as ++ at_ :: bs) :
    ∃ list' nodes', list.insertBefore slot tag nodes at_ index = some (list', nodes') ∧
      Turns slot tag nodes (as ++ at_ :: bs) nodes' list' (as ++ index :: at_ :: bs) ∧
      SameBut slot nodes nodes' := by
  unfold IndexList.insertBefore
  cases as with
  | nil =>
    rw [if_pos (by simp [h.head])]
    exact ⟨_, _, rfl, h.pushFront hb hnew, sameBut_pushFront _ _ _⟩
  | cons a as =>
    obtain ⟨hhead, hne⟩ := h.head_before
    obtain ⟨prev, hprev⟩ : ∃ y, (a :: as).getLast? = some y :=
      ⟨_, getLast?_eq_some_getLast (cons_ne_nil a as)⟩
    rw [if_neg (by simpa [hhead] using hne), h.link_of_mem, hprev]
    have hturn := h.linkInner (cons_ne_nil a as) (cons_ne_nil at_ bs) hb hnew
    rw [hprev] at hturn
    exact ⟨_, _, rfl, hturn, sameBut_linkIn nodes (some prev) (some at_) index⟩

/-! ## Moving a member

A move is an unlink followed by a push: what the unlink wrote into the
moved node is overwritten, and the length goes down and up again. -/

theorem modifyLink_modifyLink (nodes : List T) (i : Nat) (l l' : Link) :
    modifyLink slot (modifyLink slot nodes i fun _ => l) i (fun _ => l') =
      modifyLink slot nodes i fun _ => l' := by
  rw [modifyLink, modifyLink, modify_modify_eq, modifyLink]
  congr 1
  exact funext fun t => slot.setLink_setLink l' l t

/-- An unlinked member can be linked again. -/
theorem Holds.loose (h : Holds slot tag nodes list (as ++ index :: bs)) :
    index < (list.unlinkKnownMember slot nodes index).2.length ∧ index ∉ as ++ bs ∧
      list.len - 1 + 1 = list.len := by
  refine ⟨h.unlink.length ▸ h.bound index (by simp), ?_, ?_⟩
  · exact (nodup_cons.mp (perm_middle.nodup_iff.mp h.nodup)).1
  · have := h.len
    simp at this
    omega

theorem Holds.moveToBack (h : Holds slot tag nodes list (as ++ index :: bs)) :
    ∃ list' nodes', list.moveToBack slot tag nodes index = some (list', nodes') ∧
      Turns slot tag nodes (as ++ index :: bs) nodes' list' (as ++ bs ++ [index]) ∧
      SameBut slot nodes nodes' := by
  cases bs with
  | nil =>
    rw [IndexList.moveToBack, if_pos (by simp [h.tail]), List.append_nil]
    exact ⟨_, _, rfl, h.turns_refl, refl _⟩
  | cons b bs =>
    obtain ⟨last, htail, hne⟩ := h.tail_beyond
    obtain ⟨hb, hnew, hlen⟩ := h.loose
    have heq : list.moveToBack slot tag nodes index =
        some ((list.unlinkKnownMember slot nodes index).1.pushBack slot tag
          (list.unlinkKnownMember slot nodes index).2 index) := by
      unfold IndexList.moveToBack IndexList.pushBack IndexList.unlinkKnownMember
        IndexList.spliceOut
      simp only [htail, h.link_of_mem, linkBetween, head?_cons]
      rw [if_neg (by simpa using hne)]
      cases as.getLast? <;> simp only [htail, modifyLink_modifyLink, hlen]
    refine ⟨_, _, heq, h.unlink.trans (h.unlink.holds.pushBack hb hnew) ?_,
      (sameBut_unlinkKnownMember _ _ _).trans (sameBut_pushBack _ _ _)⟩
    exact fun x hx => mem_append_right _ (mem_append_left _ hx)

theorem Holds.moveToFront (h : Holds slot tag nodes list (as ++ index :: bs)) :
    ∃ list' nodes', list.moveToFront slot tag nodes index = some (list', nodes') ∧
      Turns slot tag nodes (as ++ index :: bs) nodes' list' (index :: (as ++ bs)) ∧
      SameBut slot nodes nodes' := by
  cases as with
  | nil =>
    rw [IndexList.moveToFront, if_pos (by simp [h.head])]
    exact ⟨_, _, rfl, h.turns_refl, refl _⟩
  | cons a as =>
    obtain ⟨hhead, hne⟩ := h.head_before
    obtain ⟨hb, hnew, hlen⟩ := h.loose
    obtain ⟨last, hlast⟩ : ∃ y, (a :: as).getLast? = some y :=
      ⟨_, getLast?_eq_some_getLast (cons_ne_nil a as)⟩
    have heq : list.moveToFront slot tag nodes index =
        some ((list.unlinkKnownMember slot nodes index).1.pushFront slot tag
          (list.unlinkKnownMember slot nodes index).2 index) := by
      unfold IndexList.moveToFront IndexList.pushFront IndexList.unlinkKnownMember
        IndexList.spliceOut
      simp only [hhead, h.link_of_mem, linkBetween, hlast]
      rw [if_neg (by simpa using hne)]
      cases bs.head? <;> simp only [hhead, modifyLink_modifyLink, hlen]
    refine ⟨_, _, heq, h.unlink.trans (h.unlink.holds.pushFront hb hnew) ?_,
      (sameBut_unlinkKnownMember _ _ _).trans (sameBut_pushFront _ _ _)⟩
    exact fun x hx => mem_append_right _ (mem_cons_of_mem _ hx)

/-! ## Clearing -/

/-- The loop of `clear` over the segment it is about to visit. -/
theorem clearLoop_eq :
    ∀ (ys : List Nat) (p : Option Nat) (nodes : List T), Seg (cells slot nodes) p ys none →
      ys.Nodup → (∀ y ∈ ys, y < nodes.length) →
      ∃ nodes', clearLoop slot ys.length ys.head? nodes = some nodes' ∧
        SameBut slot nodes nodes' ∧
        ∀ j, linkAt slot nodes' j = if j ∈ ys then Link.new else linkAt slot nodes j := by
  intro ys
  induction ys with
  | nil => exact fun _ nodes _ _ _ => ⟨nodes, rfl, refl _, fun j => by simp⟩
  | cons y ys ih =>
    intro p nodes hseg hnodup hbound
    obtain ⟨hy, hnd⟩ := nodup_cons.mp hnodup
    have hlt : y < nodes.length := hbound y mem_cons_self
    have hcell := hseg.front
    rw [cells, Cell.mk.injEq, Option.or_none] at hcell
    -- the rest of the segment does not see the reset
    have hrest : Seg (cells slot (modifyLink slot nodes y fun _ => Link.new)) (some y) ys none :=
      hseg.2.congr fun x hx => cells_eq (by
        have hne : y ≠ x := fun heq => hy (heq ▸ hx)
        rw [linkAt_modifyLink, if_neg (fun hh => hne hh.1)])
    obtain ⟨nodes', hrun, hsame, hlink⟩ := ih (some y) _ hrest hnd
      (fun x hx => by simpa using hbound x (mem_cons_of_mem y hx))
    refine ⟨nodes', ?_, (sameBut_modifyLink _ _ _).trans hsame, fun j => ?_⟩
    · rw [length_cons, head?_cons, clearLoop, hcell.2, hrun]
    · rw [hlink, linkAt_modifyLink]
      by_cases hj : j = y
      · subst hj
        simp [hlt]
      · simp [hj, Ne.symm hj]

theorem Holds.clear (h : Holds slot tag nodes list xs) :
    ∃ nodes', list.clear slot nodes = some (IndexList.new, nodes') ∧
      Turns slot tag nodes xs nodes' IndexList.new [] ∧ SameBut slot nodes nodes' := by
  obtain ⟨nodes', hrun, hsame, hlink⟩ := clearLoop_eq xs none nodes h.seg h.nodup h.bound
  refine ⟨nodes', ?_, ⟨holds_new nodes', hsame.1, ?_, ?_⟩, hsame⟩
  · rw [IndexList.clear, h.len, h.head, hrun]
    rfl
  · intro i hi _
    rw [hlink, if_neg hi]
  · intro i hi _
    rw [hlink, if_pos hi]

/-! ## Retaining -/

section Retain

variable {keep : List (Nat × T) → Nat → T → Bool × T}

/-- What `retain` keeps of the answers it got. -/
def kept (answers : List (Nat × Bool)) : List Nat := (answers.filter (·.2)).map (·.1)

/-- A write that keeps a reading of the written node keeps it everywhere. -/
theorem read_set {β : Type} (f : T → β) {i : Nat} {t t' : T} (ht : nodes[i]? = some t)
    (hf : f t' = f t) (j : Nat) : (nodes.set i t')[j]?.map f = nodes[j]?.map f := by
  obtain ⟨hi, rfl⟩ := List.getElem?_eq_some_iff.mp ht
  rw [getElem?_set]
  by_cases hij : i = j
  · subst hij
    simp [hi, hf]
  · simp [hij]

/-- The loop of `retain` with `as` kept behind it and `ys` before it. A
reading that neither the closure nor a link write moves stays. -/
theorem Holds.retainLoop (hkeep : ∀ calls i t, slot.link (keep calls i t).2 = slot.link t) :
    ∀ (ys as : List Nat) (rounds : Nat) (calls : List (Nat × T)) (list : IndexList)
      (nodes : List T), Holds slot tag nodes list (as ++ ys) → ys.length < rounds →
      ∃ list' nodes' answers,
        IndexList.retainLoop slot keep rounds calls ys.head? list nodes =
          some (list', nodes', answers) ∧
        answers.map (·.1) = ys ∧
        Turns slot tag nodes (as ++ ys) nodes' list' (as ++ kept answers) ∧
        ∀ {β : Type} (f : T → β), (∀ l t, f (slot.setLink l t) = f t) →
          (∀ calls i t, f (keep calls i t).2 = f t) →
          ∀ j : Nat, nodes'[j]?.map f = nodes[j]?.map f := by
  intro ys
  induction ys with
  | nil =>
    intro as rounds calls list nodes h hrounds
    obtain ⟨rounds, rfl⟩ : ∃ n, rounds = n + 1 := ⟨rounds - 1, by simp at hrounds; omega⟩
    exact ⟨list, nodes, [], rfl, rfl, h.turns_refl, fun _ _ _ _ => rfl⟩
  | cons y ys ih =>
    intro as rounds calls list nodes h hrounds
    obtain ⟨rounds, rfl⟩ : ∃ n, rounds = n + 1 := ⟨rounds - 1, by omega⟩
    have hrounds' : ys.length < rounds := by simpa using hrounds
    have hy : y < nodes.length := h.bound y (by simp)
    have ht : nodes[y]? = some nodes[y] := getElem?_eq_getElem hy
    -- the closure leaves every link of the slot as it was
    have hlink : ∀ j, linkAt slot (nodes.set y (keep calls y nodes[y]).2) j =
        linkAt slot nodes j := by
      intro j
      rw [linkAt, linkAt, read_set slot.link ht (hkeep calls y nodes[y]) j]
    have h₁ := h.congr (length_set) fun x _ => hlink x
    rw [head?_cons, IndexList.retainLoop, ht]
    simp only [h.link_of_mem, linkBetween]
    by_cases hk : (keep calls y nodes[y]).1 = true
    · rw [if_pos hk]
      have heq : as ++ y :: ys = (as ++ [y]) ++ ys := by simp
      rw [heq] at h₁ ⊢
      obtain ⟨list', nodes', answers, hrun, hans, hturn, hread⟩ :=
        ih (as ++ [y]) rounds (calls ++ [(y, nodes[y])]) list _ h₁ hrounds'
      refine ⟨list', nodes', (y, true) :: answers, ?_, by simp [hans], ?_, fun f hset hf j =>
        (hread f hset hf j).trans (read_set f ht (hf ..) j)⟩
      · rw [hrun, hk]
        rfl
      · have hkept : as ++ kept ((y, true) :: answers) = (as ++ [y]) ++ kept answers := by
          simp [kept]
        rw [hkept]
        exact ⟨hturn.holds, by rw [hturn.length, length_set],
          fun i hi hi' => by rw [hturn.frame i hi hi', hlink], hturn.reset⟩
    · rw [if_neg hk]
      have hunlink := h₁.unlink
      obtain ⟨list', nodes', answers, hrun, hans, hturn, hread⟩ :=
        ih as rounds (calls ++ [(y, nodes[y])]) _ _ hunlink.holds hrounds'
      refine ⟨list', nodes', (y, false) :: answers, ?_, by simp [hans], ?_, fun f hset hf j =>
        (hread f hset hf j).trans (((sameBut_unlinkKnownMember _ _ _).read f hset j).trans
          (read_set f ht (hf ..) j))⟩
      · rw [hrun, Bool.not_eq_true _ |>.mp hk]
        rfl
      · have hboth := hunlink.trans hturn fun x hx => mem_append_left _
          (perm_middle.mem_iff.mpr (mem_cons_of_mem y hx))
        exact ⟨hboth.holds, by rw [hboth.length, length_set],
          fun i hi hi' => by rw [hboth.frame i hi hi', hlink], hboth.reset⟩

end Retain

/-! ## Appending -/

/-- **Appending** one list to another of the same slot and tag. -/
theorem Holds.append {other : IndexList} {ys : List Nat} (h : Holds slot tag nodes list xs)
    (h' : Holds slot tag nodes other ys) (hdisj : xs.Disjoint ys)
    (hlen : xs.length + ys.length < 2 ^ 32) :
    ∃ list' other' nodes', list.append slot other nodes = some (list', other', nodes') ∧
      Holds slot tag nodes' list' (xs ++ ys) ∧ Holds slot tag nodes' other' [] ∧
      SameBut slot nodes nodes' ∧
      ∀ i, i ∉ xs → i ∉ ys → linkAt slot nodes' i = linkAt slot nodes i := by
  unfold IndexList.append
  cases ys with
  | nil =>
    rw [if_pos (by simpa using h'.len), List.append_nil]
    exact ⟨_, _, _, rfl, h, h', refl _, fun _ _ _ => rfl⟩
  | cons y ys =>
    rw [if_neg (by rw [h'.len]; simp)]
    rcases eq_nil_or_concat xs with rfl | ⟨xs, x, rfl⟩
    · rw [if_pos (by simpa using h.len)]
      exact ⟨_, _, _, rfl, ⟨h'.head, h'.tail, h'.len, h'.nodup, h'.bound, h'.seg, h'.tagged⟩,
        holds_new _, refl _, fun _ _ _ => rfl⟩
    · rw [concat_eq_append] at h hdisj hlen ⊢
      rw [if_neg (by rw [h.len]; simp), h.tail, h'.head, getLast?_concat, head?_cons]
      have hx : x < nodes.length := h.bound x (by simp)
      have hy : y < nodes.length := h'.bound y (by simp)
      have hnodup := nodup_append.mpr
        ⟨h.nodup, h'.nodup, fun a ha b hb hab => hdisj ha (hab ▸ hb)⟩
      have hlink : ∀ j, linkAt slot (relinkPrev slot (relinkNext slot nodes (some x) (some y))
          (some y) (some x)) j = { linkAt slot nodes j with
            prev := if some y = some j then some x else (linkAt slot nodes j).prev
            next := if some x = some j then some y else (linkAt slot nodes j).next } := by
        intro j
        rw [linkAt_relinkPrev (by simpa using hy), linkAt_relinkNext (by simpa using hx)]
      have hsame : SameBut slot nodes (relinkPrev slot
          (relinkNext slot nodes (some x) (some y)) (some y) (some x)) :=
        (sameBut_relinkNext _ _ _).trans (sameBut_relinkPrev _ _ _)
      simp only [h.len, h'.len]
      rw [if_pos hlen]
      refine ⟨_, _, relinkPrev slot (relinkNext slot nodes (some x) (some y)) (some y) (some x),
        rfl, ⟨?_, ?_, ?_, ?_, ?_, ?_, ?_⟩, holds_new _, hsame, ?_⟩
      · rw [h.head, head?_append, head?_append]
        simp
      · rw [h'.tail, getLast?_append, getLast?_eq_some_getLast (cons_ne_nil y ys),
          Option.some_or]
      · exact (length_append).symm
      · exact hnodup
      · intro i hi
        rw [hsame.1]
        rcases mem_append.mp hi with hi | hi
        · exact h.bound i hi
        · exact h'.bound i hi
      · -- the two segments are anchored at each other
        refine seg_append.mpr (h.seg.reanchor h'.seg hnodup fun i hi => ?_)
        rw [cells, hlink, cells, head?_cons, getLast?_concat]
        rfl
      · intro i hi
        rw [hlink]
        rcases mem_append.mp hi with hi | hi
        · exact h.tagged i hi
        · exact h'.tagged i hi
      · intro i hi hi'
        have hxi : x ≠ i := fun heq => hi (by simp [heq])
        have hyi : y ≠ i := fun heq => hi' (by simp [heq])
        rw [hlink, if_neg (by simpa using hyi), if_neg (by simpa using hxi)]

end

/-! ## The calls as data -/

/-- The link slots of a node type: `Linked<LINK>` for several `LINK`, each
a field of its own. -/
structure Slots (κ T : Type) where
  slot : κ → LinkSlot T
  independent : ∀ {k k' : κ}, k ≠ k' → ∀ l t,
    (slot k').link ((slot k).setLink l t) = (slot k').link t

/-- A call on one list. -/
inductive Call (T : Type) where
  | pushFront (index : Nat)
  | pushBack (index : Nat)
  | insertBefore (at_ index : Nat)
  | insertAfter (at_ index : Nat)
  | popFront
  | popBack
  | remove (index : Nat)
  | moveToFront (index : Nat)
  | moveToBack (index : Nat)
  | clear
  | retain (keep : List (Nat × T) → Nat → T → Bool × T)

/-- What a call returns. `retain` returns nothing in the source; here it
returns what its closure answered. -/
inductive Out where
  | done
  | popped (index : Option Nat)
  | removed (was : Bool)
  | answered (answers : List (Nat × Bool))
deriving DecidableEq, Repr

namespace Call

open Call

section

variable {T : Type} (slot : LinkSlot T) (tag : BitVec 32)

/-- Run a call on a list; `none` is a panic. -/
def run (list : IndexList) (nodes : List T) : Call T → Option (IndexList × List T × Out)
  | pushFront index =>
    let (list, nodes) := list.pushFront slot tag nodes index
    some (list, nodes, .done)
  | pushBack index =>
    let (list, nodes) := list.pushBack slot tag nodes index
    some (list, nodes, .done)
  | insertBefore at_ index =>
    (list.insertBefore slot tag nodes at_ index).map fun (list, nodes) => (list, nodes, .done)
  | insertAfter at_ index =>
    (list.insertAfter slot tag nodes at_ index).map fun (list, nodes) => (list, nodes, .done)
  | popFront =>
    let (index, list, nodes) := list.popFront slot nodes
    some (list, nodes, .popped index)
  | popBack =>
    let (index, list, nodes) := list.popBack slot nodes
    some (list, nodes, .popped index)
  | remove index =>
    let (was, list, nodes) := list.remove slot nodes index
    some (list, nodes, .removed was)
  | moveToFront index =>
    (list.moveToFront slot tag nodes index).map fun (list, nodes) => (list, nodes, .done)
  | moveToBack index =>
    (list.moveToBack slot tag nodes index).map fun (list, nodes) => (list, nodes, .done)
  | clear => (list.clear slot nodes).map fun (list, nodes) => (list, nodes, .done)
  | retain keep =>
    (list.retain slot keep nodes).map fun (list, nodes, answers) =>
      (list, nodes, .answered answers)

/-- What the source documents that the caller of a call ensures: an index
to insert passes the checks of the `try_` form; the other index is a
member; a linked node that is removed belongs to this list; a closure
mutates the payload of the node it is given, not its links. -/
def Pre {κ : Type} (slots : Slots κ T) (k : κ) (list : IndexList) (nodes : List T) : Call T → Prop
  | pushFront index | pushBack index =>
    list.checkInsertPreconditions (slots.slot k) nodes index = .ok ()
  | insertBefore at_ index | insertAfter at_ index =>
    list.contains (slots.slot k) nodes at_ = true ∧
      list.checkInsertPreconditions (slots.slot k) nodes index = .ok ()
  | popFront | popBack | clear => True
  | remove index => index < nodes.length ∧
      ((linkAt (slots.slot k) nodes index).isLinked = true →
        list.contains (slots.slot k) nodes index = true)
  | moveToFront index | moveToBack index => list.contains (slots.slot k) nodes index = true
  | retain keep => ∀ k' calls i t,
      (slots.slot k').link (keep calls i t).2 = (slots.slot k').link t

/-- What a call does to the sequence, given what it returned. -/
def apply (out : Out) (xs : List Nat) : Call T → List Nat
  | pushFront index => index :: xs
  | pushBack index => xs ++ [index]
  | insertBefore at_ index => xs.insertIdx (xs.idxOf at_) index
  | insertAfter at_ index => xs.insertIdx (xs.idxOf at_ + 1) index
  | popFront => xs.tail
  | popBack => xs.dropLast
  | remove index => xs.erase index
  | moveToFront index => index :: xs.erase index
  | moveToBack index => xs.erase index ++ [index]
  | clear => []
  | retain _ =>
    match out with
    | .answered answers => kept answers
    | _ => xs

/-- What a call on the sequence `xs` returns: the ends, the membership,
and for `retain` an answer for every member in order. -/
def Returns (xs : List Nat) (out : Out) : Call T → Prop
  | popFront => out = .popped xs.head?
  | popBack => out = .popped xs.getLast?
  | remove index => out = .removed (decide (index ∈ xs))
  | retain _ => ∃ answers, out = .answered answers ∧ answers.map (·.1) = xs
  | _ => out = .done

end

end Call

section

variable {T κ : Type} {slot : LinkSlot T} {tag : BitVec 32} {nodes : List T} {list : IndexList}
  {xs : List Nat} {slots : Slots κ T} {k : κ}

theorem insertIdx_length (as bs : List Nat) (x : Nat) :
    (as ++ bs).insertIdx as.length x = as ++ x :: bs := by
  induction as with
  | nil => rfl
  | cons a as ih => rw [cons_append, length_cons, insertIdx_succ_cons, ih]; rfl

/-- A member splits the sequence at its first and only occurrence. -/
theorem Holds.split (h : Holds slot tag nodes list xs) {i : Nat} (hi : i ∈ xs) :
    ∃ as bs, xs = as ++ i :: bs ∧ xs.idxOf i = as.length ∧ xs.erase i = as ++ bs := by
  obtain ⟨as, bs, rfl⟩ := append_of_mem hi
  have hnot : i ∉ as := fun ha =>
    (nodup_append.mp h.nodup).2.2 i ha i mem_cons_self rfl
  refine ⟨as, bs, rfl, ?_, ?_⟩
  · rw [idxOf_append_of_notMem hnot, idxOf_cons_self, Nat.add_zero]
  · rw [erase_append_right _ hnot, erase_cons_head]

/-- What every call does: no panic, its sequence turned, its answer, the
links of every other slot as before. What it takes in was not linked. -/
structure Call.Does (slots : Slots κ T) (k : κ) (tag : BitVec 32) (nodes : List T)
    (xs : List Nat) (c : Call T) (list' : IndexList) (nodes' : List T) (out : Out) : Prop where
  turns : Turns (slots.slot k) tag nodes xs nodes' list' (c.apply out xs)
  returns : c.Returns xs out
  fresh : ∀ i ∈ c.apply out xs, i ∉ xs → (linkAt (slots.slot k) nodes i).isLinked = false
  others : ∀ k', k ≠ k' → ∀ i,
    linkAt (slots.slot k') nodes' i = linkAt (slots.slot k') nodes i

/-- Nodes that only changed in one slot have the links of the others. -/
theorem SameBut.others {nodes' : List T} (h : SameBut (slots.slot k) nodes nodes') (k' : κ)
    (hk : k ≠ k') (i : Nat) :
    linkAt (slots.slot k') nodes' i = linkAt (slots.slot k') nodes i := by
  rw [linkAt, linkAt, h.read (slots.slot k').link (slots.independent hk) i]

/-- A call that takes one free node in. -/
theorem Call.Does.takesIn {c : Call T} {out : Out} {ys : List Nat} {index : Nat} {nodes' : List T}
    {list' : IndexList} (happly : c.apply out xs = ys) (hret : c.Returns xs out)
    (hfree : (linkAt (slots.slot k) nodes index).isLinked = false) (hperm : ys.Perm (index :: xs))
    (hturn : Turns (slots.slot k) tag nodes xs nodes' list' ys)
    (hsame : SameBut (slots.slot k) nodes nodes') :
    c.Does slots k tag nodes xs list' nodes' out where
  turns := happly ▸ hturn
  returns := hret
  fresh := by
    intro i hi hx
    rw [happly, hperm.mem_iff] at hi
    rw [(mem_cons.mp hi).resolve_right hx, hfree]
  others := hsame.others

/-- A call that takes no node in. -/
theorem Call.Does.takesNone {c : Call T} {out : Out} {ys : List Nat} {nodes' : List T}
    {list' : IndexList} (happly : c.apply out xs = ys) (hret : c.Returns xs out) (hsub : ys ⊆ xs)
    (hturn : Turns (slots.slot k) tag nodes xs nodes' list' ys)
    (hsame : SameBut (slots.slot k) nodes nodes') :
    c.Does slots k tag nodes xs list' nodes' out where
  turns := happly ▸ hturn
  returns := hret
  fresh := fun _ hi hx => absurd (hsub (happly ▸ hi)) hx
  others := hsame.others

/-- **Every call.** Under its precondition a call on a list that holds a
sequence does not panic and does to the sequence what it says. -/
theorem Call.run_spec (h : Holds (slots.slot k) tag nodes list xs) (c : Call T)
    (hpre : c.Pre slots k list nodes) :
    ∃ list' nodes' out, c.run (slots.slot k) tag list nodes = some (list', nodes', out) ∧
      c.Does slots k tag nodes xs list' nodes' out := by
  have hfree : ∀ {i}, list.checkInsertPreconditions (slots.slot k) nodes i = .ok () →
      i < nodes.length ∧ i ∉ xs ∧ (linkAt (slots.slot k) nodes i).isLinked = false := by
    intro i hok
    obtain ⟨hb, hl, -⟩ := checkInsert_ok.mp hok
    exact ⟨hb, fun hi => absurd (h.isLinked hi) (by rw [hl]; decide), hl⟩
  have hmiddle : ∀ (as bs : List Nat) (i : Nat), as ++ bs ⊆ as ++ i :: bs := fun as bs i x hx =>
    perm_middle.mem_iff.mpr (mem_cons_of_mem i hx)
  cases c with
  | pushFront index =>
    obtain ⟨hb, hnew, hl⟩ := hfree hpre
    exact ⟨_, _, _, rfl, .takesIn rfl rfl hl (.refl _) (h.pushFront hb hnew)
      (sameBut_pushFront nodes list index)⟩
  | pushBack index =>
    obtain ⟨hb, hnew, hl⟩ := hfree hpre
    exact ⟨_, _, _, rfl, .takesIn rfl rfl hl (perm_append_singleton index xs)
      (h.pushBack hb hnew) (sameBut_pushBack nodes list index)⟩
  | insertBefore at_ index =>
    obtain ⟨hb, hnew, hl⟩ := hfree hpre.2
    obtain ⟨as, bs, rfl, hidx, -⟩ := h.split ((h.contains at_).mp hpre.1)
    obtain ⟨list', nodes', hrun, hturn, hsame⟩ := h.insertBefore hb hnew
    refine ⟨list', nodes', .done, by rw [run, hrun]; rfl,
      .takesIn ?_ rfl hl perm_middle hturn hsame⟩
    rw [apply, hidx, insertIdx_length]
  | insertAfter at_ index =>
    obtain ⟨hb, hnew, hl⟩ := hfree hpre.2
    obtain ⟨as, bs, rfl, hidx, -⟩ := h.split ((h.contains at_).mp hpre.1)
    obtain ⟨list', nodes', hrun, hturn, hsame⟩ := h.insertAfter hb hnew
    refine ⟨list', nodes', .done, by rw [run, hrun]; rfl, .takesIn ?_ rfl hl ?_ hturn hsame⟩
    · rw [apply, hidx]
      simpa using insertIdx_length (as ++ [at_]) bs index
    · simpa using @perm_middle _ index (as ++ [at_]) bs
  | popFront =>
    cases xs with
    | nil =>
      have hrun : list.popFront (slots.slot k) nodes = (none, list, nodes) := by
        rw [IndexList.popFront, h.head]
        rfl
      exact ⟨list, nodes, .popped none, by rw [run, hrun],
        .takesNone rfl rfl (List.Subset.refl _) h.turns_refl (.refl _)⟩
    | cons x xs =>
      exact ⟨_, _, .popped (some x), by rw [run, popFront_eq_unlink h],
        .takesNone rfl rfl (hmiddle [] xs x) (@Holds.unlink _ _ _ _ _ [] _ _ h)
          (sameBut_unlinkKnownMember list nodes x)⟩
  | popBack =>
    rcases eq_nil_or_concat xs with rfl | ⟨xs, x, rfl⟩
    · have hrun : list.popBack (slots.slot k) nodes = (none, list, nodes) := by
        rw [IndexList.popBack, h.tail]
        rfl
      exact ⟨list, nodes, .popped none, by rw [run, hrun],
        .takesNone rfl rfl (List.Subset.refl _) h.turns_refl (.refl _)⟩
    · rw [concat_eq_append] at h ⊢
      have hrun : list.popBack (slots.slot k) nodes =
          (some x, list.unlinkKnownMember (slots.slot k) nodes x) := by
        rw [IndexList.popBack, h.tail, getLast?_concat]
      refine ⟨_, _, .popped (some x), by rw [run, hrun],
        .takesNone ?_ ?_ (hmiddle xs [] x) h.unlink (sameBut_unlinkKnownMember list nodes x)⟩
      · rw [apply, dropLast_concat, List.append_nil]
      · rw [Returns, getLast?_concat]
  | remove index =>
    by_cases hl : (linkAt (slots.slot k) nodes index).isLinked = true
    · have hmem := (h.contains index).mp (hpre.2 hl)
      have hrun : list.remove (slots.slot k) nodes index =
          (true, list.unlinkKnownMember (slots.slot k) nodes index) := by
        rw [IndexList.remove, hl]
        rfl
      obtain ⟨as, bs, rfl, -, herase⟩ := h.split hmem
      refine ⟨_, _, .removed true, by rw [run, hrun], .takesNone herase ?_
        (hmiddle as bs index) h.unlink (sameBut_unlinkKnownMember list nodes index)⟩
      rw [Returns, decide_eq_true hmem]
    · have hnot : index ∉ xs := fun hi => hl (h.isLinked hi)
      have hrun : list.remove (slots.slot k) nodes index = (false, list, nodes) := by
        rw [IndexList.remove, Bool.not_eq_true _ |>.mp hl]
        rfl
      refine ⟨list, nodes, .removed false, by rw [run, hrun], .takesNone
        (erase_of_not_mem hnot) ?_ (List.Subset.refl _) h.turns_refl (.refl _)⟩
      rw [Returns, decide_eq_false hnot]
  | moveToFront index =>
    obtain ⟨as, bs, rfl, -, herase⟩ := h.split ((h.contains index).mp hpre)
    obtain ⟨list', nodes', hrun, hturn, hsame⟩ := h.moveToFront
    exact ⟨list', nodes', .done, by rw [run, hrun]; rfl,
      .takesNone (by rw [apply, herase])
      rfl (perm_middle.symm.subset) hturn hsame⟩
  | moveToBack index =>
    obtain ⟨as, bs, rfl, -, herase⟩ := h.split ((h.contains index).mp hpre)
    obtain ⟨list', nodes', hrun, hturn, hsame⟩ := h.moveToBack
    have hperm := (perm_append_singleton index (as ++ bs)).trans perm_middle.symm
    exact ⟨list', nodes', .done, by rw [run, hrun]; rfl,
      .takesNone (by rw [apply, herase])
      rfl hperm.subset hturn hsame⟩
  | clear =>
    obtain ⟨nodes', hrun, hturn, hsame⟩ := h.clear
    exact ⟨_, nodes', .done, by rw [run, hrun]; rfl,
      .takesNone rfl rfl (nil_subset _) hturn hsame⟩
  | retain keep =>
    obtain ⟨list', nodes', answers, hrun, hans, hturn, hread⟩ :=
      Holds.retainLoop (hpre k) xs [] (xs.length + 1) [] list nodes h (Nat.lt_succ_self _)
    refine ⟨list', nodes', .answered answers, ?_, hturn, ⟨answers, rfl, hans⟩, ?_, ?_⟩
    · rw [run, IndexList.retain, h.len, h.head, hrun]
      rfl
    · intro i hi hx
      have hmem : i ∈ answers.map (·.1) := by
        obtain ⟨a, ha, rfl⟩ := mem_map.mp hi
        exact mem_map_of_mem (mem_filter.mp ha).1
      exact absurd (hans ▸ hmem) hx
    · intro k' hk i
      rw [linkAt, linkAt, hread (slots.slot k').link (slots.independent hk) (hpre k') i]

end

end Aurum.Intrusive
