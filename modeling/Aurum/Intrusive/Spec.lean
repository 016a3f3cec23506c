import Aurum.Intrusive.Basic

/-!
# Intrusive — index lists as sequences

`Rep slot tag nodes list xs`: the header and the links of one slot
represent the sequence `xs`, and no other node is linked there. `Holds`
is the same for one list among others. Every operation links a node in
between two parts of the sequence (`Holds.link`) or unlinks a member
(`Holds.unlink`), so it turns one held sequence into another (`Turns`)
and moves nothing but the links of its slot (`SameBut`). `validate`
accepts every list that holds a sequence.
-/

namespace Aurum.Intrusive

open Aurum.Dll List IndexList LinkState

section

variable {T : Type} {slot : LinkSlot T} {tag : BitVec 32}

/-! ## Link reads and writes -/

variable (nodes)

@[simp] theorem length_modifyLink (i : Nat) (f : Link → Link) :
    (modifyLink slot nodes i f).length = nodes.length := by
  simp [modifyLink]

theorem linkAt_modifyLink (i j : Nat) (f : Link → Link) :
    linkAt slot (modifyLink slot nodes i f) j =
      if i = j ∧ i < nodes.length then f (linkAt slot nodes i) else linkAt slot nodes j := by
  unfold linkAt modifyLink
  rw [getElem?_modify]
  by_cases hij : i = j
  · subst hij
    by_cases hi : i < nodes.length
    · simp [hi, slot.link_setLink]
    · simp [hi]
  · simp [hij]

/-- Two node arrays that agree up to the links of `slot`. -/
def SameBut (slot : LinkSlot T) (nodes nodes' : List T) : Prop :=
  nodes'.length = nodes.length ∧
    ∀ j : Nat, nodes'[j]? = nodes[j]? ∨ ∃ l, nodes'[j]? = nodes[j]?.map (slot.setLink l)

theorem SameBut.refl : SameBut slot nodes nodes :=
  ⟨rfl, fun _ => .inl rfl⟩

/-- Any reading that ignores the slot's link is unchanged. -/
theorem SameBut.read {nodes nodes' : List T} (h : SameBut slot nodes nodes')
    {β : Type} (f : T → β) (hf : ∀ l t, f (slot.setLink l t) = f t) (j : Nat) :
    nodes'[j]?.map f = nodes[j]?.map f := by
  rcases h.2 j with hj | ⟨l, hj⟩
  · rw [hj]
  · rw [hj, Option.map_map]
    exact congrArg (nodes[j]?.map ·) (funext fun t => hf l t)

theorem SameBut.trans {a b c : List T} (h : SameBut slot a b) (h' : SameBut slot b c) :
    SameBut slot a c := by
  refine ⟨h'.1.trans h.1, fun j => ?_⟩
  rcases h.2 j with h1 | ⟨l, h1⟩ <;> rcases h'.2 j with h2 | ⟨l', h2⟩
  · exact .inl (h2.trans h1)
  · exact .inr ⟨l', by rw [h2, h1]⟩
  · exact .inr ⟨l, by rw [h2, h1]⟩
  · refine .inr ⟨l', ?_⟩
    rw [h2, h1, Option.map_map]
    exact congrArg (a[j]?.map ·) (funext fun t => slot.setLink_setLink l' l t)

theorem sameBut_modifyLink (i : Nat) (f : Link → Link) :
    SameBut slot nodes (modifyLink slot nodes i f) := by
  refine ⟨by simp, fun j => ?_⟩
  unfold modifyLink
  rw [getElem?_modify]
  by_cases hij : i = j
  · subst hij
    cases hn : nodes[i]? with
    | none => simp
    | some t => exact .inr ⟨f (slot.link t), by simp⟩
  · simp [hij]

variable {nodes}

end

/-! ## The representation predicate -/

section

variable {T : Type} (slot : LinkSlot T) (tag : BitVec 32)

/-- The neighbour pointers of the slot, as a cell store. -/
def cells (nodes : List T) (i : Nat) : Cell :=
  ⟨(linkAt slot nodes i).prev, (linkAt slot nodes i).next⟩

/-- `list` and the links of `slot` represent the sequence `xs`. -/
structure Rep (nodes : List T) (list : IndexList) (xs : List Nat) : Prop where
  head : list.head = xs.head?
  tail : list.tail = xs.getLast?
  len : list.len = xs.length
  nodup : xs.Nodup
  bound : ∀ x ∈ xs, x < nodes.length
  seg : Seg (cells slot nodes) none xs none
  tagged : ∀ x ∈ xs, (linkAt slot nodes x).state = linked tag
  unlinked : ∀ i, i ∉ xs → linkAt slot nodes i = Link.new

end

section

variable {T : Type} {slot : LinkSlot T} {tag : BitVec 32} {nodes nodes' : List T}
  {list list' : IndexList} {xs as bs : List Nat} {index : Nat}

theorem rep_new : Rep slot tag [] new [] :=
  ⟨rfl, rfl, rfl, nodup_nil, by simp, trivial, by simp, fun _ _ => rfl⟩

theorem cells_eq {i : Nat} (h : linkAt slot nodes' i = linkAt slot nodes i) :
    cells slot nodes' i = cells slot nodes i := by
  rw [cells, cells, h]

/-- The representation only reads the links of its slot. -/
theorem Rep.congr (h : Rep slot tag nodes list xs) (hlen : nodes.length ≤ nodes'.length)
    (hl : ∀ x, linkAt slot nodes' x = linkAt slot nodes x) :
    Rep slot tag nodes' list xs where
  head := h.head
  tail := h.tail
  len := h.len
  nodup := h.nodup
  bound := fun x hx => Nat.lt_of_lt_of_le (h.bound x hx) hlen
  seg := h.seg.congr fun x _ => cells_eq (hl x)
  tagged := fun x hx => by rw [hl x]; exact h.tagged x hx
  unlinked := fun i hi => by rw [hl i]; exact h.unlinked i hi

/-! ## One list among others

`Rep` says that the list is the only one of its slot. `Holds` does not
read the nodes outside the list, and a call turns one held sequence into
another. -/

/-- `list` and the links of its own nodes hold the sequence `xs`. -/
structure Holds (slot : LinkSlot T) (tag : BitVec 32) (nodes : List T) (list : IndexList)
    (xs : List Nat) : Prop where
  head : list.head = xs.head?
  tail : list.tail = xs.getLast?
  len : list.len = xs.length
  nodup : xs.Nodup
  bound : ∀ x ∈ xs, x < nodes.length
  seg : Seg (cells slot nodes) none xs none
  tagged : ∀ x ∈ xs, (linkAt slot nodes x).state = linked tag

theorem Rep.holds (h : Rep slot tag nodes list xs) : Holds slot tag nodes list xs :=
  ⟨h.head, h.tail, h.len, h.nodup, h.bound, h.seg, h.tagged⟩

theorem holds_new (nodes : List T) : Holds slot tag nodes new [] :=
  ⟨rfl, rfl, rfl, nodup_nil, by simp, trivial, by simp⟩

/-- A held sequence only reads the links of its nodes. -/
theorem Holds.congr (h : Holds slot tag nodes list xs) (hlen : nodes'.length = nodes.length)
    (hl : ∀ x ∈ xs, linkAt slot nodes' x = linkAt slot nodes x) :
    Holds slot tag nodes' list xs where
  head := h.head
  tail := h.tail
  len := h.len
  nodup := h.nodup
  bound := fun x hx => hlen ▸ h.bound x hx
  seg := h.seg.congr fun x hx => cells_eq (hl x hx)
  tagged := fun x hx => by rw [hl x hx]; exact h.tagged x hx

/-- A held sequence has at most one entry per node. -/
theorem Holds.length_le (h : Holds slot tag nodes list xs) : xs.length ≤ nodes.length := by
  have hsub : xs ⊆ List.range nodes.length := fun x hx => mem_range.mpr (h.bound x hx)
  simpa using h.nodup.length_le_of_subset hsub

/-- The links around a member. -/
theorem Holds.link_of_mem {x : Nat} (h : Holds slot tag nodes list (as ++ x :: bs)) :
    linkAt slot nodes x = Link.linkBetween tag as.getLast? bs.head? := by
  have hcell := (seg_append.mp h.seg).2.front
  rw [Option.or_none, Option.or_none, cells, Cell.mk.injEq] at hcell
  have hstate := h.tagged x (by simp)
  rw [Link.linkBetween, ← hcell.1, ← hcell.2, ← hstate]

/-- What a call does that turns the sequence `xs` of one list into `xs'`:
nodes of neither keep their links, nodes that leave are unlinked. -/
structure Turns (slot : LinkSlot T) (tag : BitVec 32) (nodes : List T) (xs : List Nat)
    (nodes' : List T) (list' : IndexList) (xs' : List Nat) : Prop where
  holds : Holds slot tag nodes' list' xs'
  length : nodes'.length = nodes.length
  frame : ∀ i, i ∉ xs → i ∉ xs' → linkAt slot nodes' i = linkAt slot nodes i
  reset : ∀ i ∈ xs, i ∉ xs' → linkAt slot nodes' i = Link.new

theorem Holds.turns_refl (h : Holds slot tag nodes list xs) :
    Turns slot tag nodes xs nodes list xs :=
  ⟨h, rfl, fun _ _ _ => rfl, fun _ hi hi' => absurd hi hi'⟩

/-- Two calls in a row, the second on what the first left. -/
theorem Turns.trans {n₀ n₁ n₂ : List T} {l₁ l₂ : IndexList} {xs ys zs : List Nat}
    (h : Turns slot tag n₀ xs n₁ l₁ ys) (h' : Turns slot tag n₁ ys n₂ l₂ zs)
    (hsub : ys ⊆ xs ++ zs) : Turns slot tag n₀ xs n₂ l₂ zs where
  holds := h'.holds
  length := h'.length.trans h.length
  frame := by
    intro i hx hz
    have hy : i ∉ ys := fun hy => by
      rcases mem_append.mp (hsub hy) with hm | hm
      · exact hx hm
      · exact hz hm
    exact (h'.frame i hy hz).trans (h.frame i hx hy)
  reset := by
    intro i hx hz
    by_cases hy : i ∈ ys
    · exact h'.reset i hy hz
    · exact (h'.frame i hy hz).trans (h.reset i hx hy)

/-- A list that is alone in its slot stays alone. -/
theorem Turns.rep {xs' : List Nat} (h : Turns slot tag nodes xs nodes' list' xs')
    (hrep : Rep slot tag nodes list xs) :
    Rep slot tag nodes' list' xs' where
  head := h.holds.head
  tail := h.holds.tail
  len := h.holds.len
  nodup := h.holds.nodup
  bound := h.holds.bound
  seg := h.holds.seg
  tagged := h.holds.tagged
  unlinked := by
    intro i hi
    by_cases hx : i ∈ xs
    · exact h.reset i hx hi
    · rw [h.frame i hx hi]
      exact hrep.unlinked i hx

/-! ## Writing neighbours -/

/-- `link_mut(nodes, p).next = n`, for the neighbour `p` if there is one. -/
def relinkNext (slot : LinkSlot T) (nodes : List T) : Option Nat → Option Nat → List T
  | none, _ => nodes
  | some p, n => modifyLink slot nodes p fun l => { l with next := n }

/-- `link_mut(nodes, n).prev = p`, for the neighbour `n` if there is one. -/
def relinkPrev (slot : LinkSlot T) (nodes : List T) : Option Nat → Option Nat → List T
  | none, _ => nodes
  | some n, p => modifyLink slot nodes n fun l => { l with prev := p }

@[simp] theorem length_relinkNext (nodes : List T) (o n : Option Nat) :
    (relinkNext slot nodes o n).length = nodes.length := by
  cases o <;> simp [relinkNext]

@[simp] theorem length_relinkPrev (nodes : List T) (o p : Option Nat) :
    (relinkPrev slot nodes o p).length = nodes.length := by
  cases o <;> simp [relinkPrev]

theorem linkAt_relinkNext {o n : Option Nat} (ho : ∀ p, o = some p → p < nodes.length) (j : Nat) :
    linkAt slot (relinkNext slot nodes o n) j =
      { linkAt slot nodes j with
        next := if o = some j then n else (linkAt slot nodes j).next } := by
  cases o with
  | none => rfl
  | some p =>
    rw [relinkNext, linkAt_modifyLink]
    by_cases hp : p = j
    · subst hp
      simp [ho p rfl]
    · simp [hp]

theorem linkAt_relinkPrev {o p : Option Nat} (ho : ∀ n, o = some n → n < nodes.length) (j : Nat) :
    linkAt slot (relinkPrev slot nodes o p) j =
      { linkAt slot nodes j with
        prev := if o = some j then p else (linkAt slot nodes j).prev } := by
  cases o with
  | none => rfl
  | some n =>
    rw [relinkPrev, linkAt_modifyLink]
    by_cases hn : n = j
    · subst hn
      simp [ho n rfl]
    · simp [hn]

variable (nodes)

theorem sameBut_relinkNext (o n : Option Nat) : SameBut slot nodes (relinkNext slot nodes o n) := by
  cases o with
  | none => exact SameBut.refl _
  | some p =>
    rw [relinkNext]
    exact sameBut_modifyLink _ _ _

theorem sameBut_relinkPrev (o p : Option Nat) : SameBut slot nodes (relinkPrev slot nodes o p) := by
  cases o with
  | none => exact SameBut.refl _
  | some n =>
    rw [relinkPrev]
    exact sameBut_modifyLink _ _ _

/-! ## Linking a node in -/

/-- The writes of every insertion: the new node's link, then those of its
neighbours. -/
def linkIn (slot : LinkSlot T) (tag : BitVec 32) (nodes : List T) (prev next : Option Nat)
    (index : Nat) : List T :=
  relinkPrev slot
    (relinkNext slot (modifyLink slot nodes index fun _ => Link.linkBetween tag prev next)
      prev (some index))
    next (some index)

theorem sameBut_linkIn (prev next : Option Nat) (index : Nat) :
    SameBut slot nodes (linkIn slot tag nodes prev next index) :=
  ((sameBut_modifyLink _ _ _).trans (sameBut_relinkNext _ _ _)).trans (sameBut_relinkPrev _ _ _)

@[simp] theorem length_linkIn (prev next : Option Nat) (index : Nat) :
    (linkIn slot tag nodes prev next index).length = nodes.length := by
  simp [linkIn]

variable {nodes}

/-- What an insertion leaves in every link. -/
theorem linkAt_linkIn {prev next : Option Nat}
    (hb : index < nodes.length) (hp : ∀ p, prev = some p → p < nodes.length ∧ p ≠ index)
    (hn : ∀ n, next = some n → n < nodes.length ∧ n ≠ index) (j : Nat) :
    linkAt slot (linkIn slot tag nodes prev next index) j =
      if j = index then Link.linkBetween tag prev next
      else { linkAt slot nodes j with
        prev := if next = some j then some index else (linkAt slot nodes j).prev
        next := if prev = some j then some index else (linkAt slot nodes j).next } := by
  have hp' : ∀ p, prev = some p → p < (modifyLink slot nodes index fun _ =>
      Link.linkBetween tag prev next).length := fun p h => by simpa using (hp p h).1
  rw [linkIn, linkAt_relinkPrev (fun n h => by simpa using (hn n h).1), linkAt_relinkNext hp',
    linkAt_modifyLink]
  by_cases hj : j = index
  · subst hj
    have hprev : prev ≠ some j := fun h => (hp j h).2 rfl
    have hnext : next ≠ some j := fun h => (hn j h).2 rfl
    simp [hb, hprev, hnext]
  · simp [hj, Ne.symm hj]

/-- **Linking a node in** between `as` and `bs`. -/
theorem Holds.link (h : Holds slot tag nodes list (as ++ bs)) (hb : index < nodes.length)
    (hnew : index ∉ as ++ bs) (hhead : list'.head = (as ++ index :: bs).head?)
    (htail : list'.tail = (as ++ index :: bs).getLast?) (hlen : list'.len = list.len + 1) :
    Turns slot tag nodes (as ++ bs) (linkIn slot tag nodes as.getLast? bs.head? index) list'
      (as ++ index :: bs) := by
  have hne : ∀ x ∈ as ++ bs, x ≠ index := fun x hx heq => hnew (heq ▸ hx)
  have hlast : ∀ p, as.getLast? = some p → p ∈ as ++ bs := fun p hp =>
    mem_append_left bs (mem_of_getLast? hp)
  have hfirst : ∀ n, bs.head? = some n → n ∈ as ++ bs := fun n hn =>
    mem_append_right as (mem_of_head? hn)
  have hlink := @linkAt_linkIn _ slot tag _ _ _ _ hb
    (fun p hp => ⟨h.bound p (hlast p hp), hne p (hlast p hp)⟩)
    (fun n hn => ⟨h.bound n (hfirst n hn), hne n (hfirst n hn)⟩)
  obtain ⟨hsega, hsegb⟩ := seg_append.mp h.seg
  have hperm : (as ++ index :: bs).Perm (index :: (as ++ bs)) := perm_middle
  refine ⟨⟨hhead, htail, ?_, ?_, ?_, ?_, ?_⟩, length_linkIn _ _ _ _, ?_, ?_⟩
  · rw [hlen, h.len, hperm.length_eq, length_cons]
  · exact hperm.nodup_iff.mpr (nodup_cons.mpr ⟨hnew, h.nodup⟩)
  · intro x hx
    rw [length_linkIn]
    rcases mem_cons.mp (hperm.mem_iff.mp hx) with rfl | hx
    · exact hb
    · exact h.bound x hx
  · -- the two old parts are re-anchored at the new cell
    obtain ⟨ha, hb'⟩ := @Seg.reanchor _ (cells slot (linkIn slot tag nodes as.getLast? bs.head?
      index)) _ _ (some index) (some index) _ _ _ _ hsega hsegb h.nodup fun x hx => by
        rw [cells, hlink, if_neg (hne x hx), cells]
    refine seg_append.mpr ⟨ha, ?_, hb'⟩
    rw [cells, hlink, if_pos rfl, Option.or_none, Option.or_none]
    rfl
  · intro x hx
    rw [hlink]
    by_cases hxi : x = index
    · rw [if_pos hxi]
      rfl
    · rw [if_neg hxi]
      exact h.tagged x ((mem_cons.mp (hperm.mem_iff.mp hx)).resolve_left hxi)
  · intro i hi hi'
    have hii : i ≠ index := fun heq => hi' (by simp [heq])
    rw [hlink, if_neg hii, if_neg (fun hh => hi (hfirst i hh)), if_neg (fun hh => hi (hlast i hh))]
  · intro i hi hi'
    exact absurd (hperm.mem_iff.mpr (mem_cons_of_mem _ hi)) hi'

/-! ## Unlinking a node -/

theorem unlinkKnownMember_nodes (list : IndexList) (nodes : List T) (index : Nat) :
    (list.unlinkKnownMember slot nodes index).2 =
      modifyLink slot
        (relinkPrev slot
          (relinkNext slot nodes (linkAt slot nodes index).prev (linkAt slot nodes index).next)
          (linkAt slot nodes index).next (linkAt slot nodes index).prev)
        index fun _ => Link.new := by
  unfold unlinkKnownMember spliceOut
  cases (linkAt slot nodes index).prev <;> cases (linkAt slot nodes index).next <;> rfl

theorem sameBut_unlinkKnownMember (list : IndexList) (nodes : List T) (index : Nat) :
    SameBut slot nodes (list.unlinkKnownMember slot nodes index).2 := by
  rw [unlinkKnownMember_nodes]
  exact ((sameBut_relinkNext _ _ _).trans (sameBut_relinkPrev _ _ _)).trans
    (sameBut_modifyLink _ _ _)

/-- What unlinking a member leaves in the header. -/
theorem Holds.unlink_header (h : Holds slot tag nodes list (as ++ index :: bs)) :
    (list.unlinkKnownMember slot nodes index).1 =
      ⟨(as ++ bs).head?, (as ++ bs).getLast?, (as ++ bs).length⟩ := by
  have hhead := h.head
  have htail := h.tail
  have hlen := h.len
  rw [head?_append] at hhead ⊢
  rw [getLast?_append] at htail ⊢
  rw [length_append, length_cons] at hlen
  unfold unlinkKnownMember spliceOut
  simp only [h.link_of_mem, Link.linkBetween]
  rcases eq_nil_or_concat as with rfl | ⟨as, a, rfl⟩ <;> cases bs with
  | nil => simp_all
  | cons b bs =>
    simp_all [getLast?_cons_cons]
    <;> omega

/-- What unlinking a member leaves in every link. -/
theorem linkAt_unlink (h : Holds slot tag nodes list (as ++ index :: bs)) (j : Nat) :
    linkAt slot (list.unlinkKnownMember slot nodes index).2 j =
      if j = index then Link.new
      else { linkAt slot nodes j with
        prev := if bs.head? = some j then as.getLast? else (linkAt slot nodes j).prev
        next := if as.getLast? = some j then bs.head? else (linkAt slot nodes j).next } := by
  have hp : ∀ p, as.getLast? = some p → p < nodes.length := fun p hp =>
    h.bound p (mem_append_left _ (mem_of_getLast? hp))
  have hn : ∀ n, bs.head? = some n → n < nodes.length := fun n hn =>
    h.bound n (mem_append_right _ (mem_cons_of_mem _ (mem_of_head? hn)))
  have hb : index < nodes.length := h.bound index (by simp)
  rw [unlinkKnownMember_nodes, h.link_of_mem, Link.linkBetween, linkAt_modifyLink,
    linkAt_relinkPrev (fun n h => by simpa using hn n h), linkAt_relinkNext hp]
  by_cases hj : j = index
  · simp [hj, hb]
  · simp [hj, Ne.symm hj]

/-- **Unlinking a member.** -/
theorem Holds.unlink (h : Holds slot tag nodes list (as ++ index :: bs)) :
    Turns slot tag nodes (as ++ index :: bs) (list.unlinkKnownMember slot nodes index).2
      (list.unlinkKnownMember slot nodes index).1 (as ++ bs) := by
  have hlink := linkAt_unlink h
  have hheader := h.unlink_header
  have hlength := (@sameBut_unlinkKnownMember _ slot list nodes index).1
  have hperm : (as ++ index :: bs).Perm (index :: (as ++ bs)) := perm_middle
  have hmem : ∀ x ∈ as ++ bs, x ∈ as ++ index :: bs := fun x hx =>
    hperm.mem_iff.mpr (mem_cons_of_mem _ hx)
  obtain ⟨hnew, hnodup⟩ := nodup_cons.mp (hperm.nodup_iff.mp h.nodup)
  have hne : ∀ x ∈ as ++ bs, x ≠ index := fun x hx heq => hnew (heq ▸ hx)
  obtain ⟨hsega, -, hsegb⟩ := seg_append.mp h.seg
  refine ⟨⟨?_, ?_, ?_, hnodup, ?_, ?_, ?_⟩, hlength, ?_, ?_⟩
  · rw [hheader]
  · rw [hheader]
  · rw [hheader]
  · exact fun x hx => hlength ▸ h.bound x (hmem x hx)
  · -- the two parts are re-anchored at each other
    refine seg_append.mpr (hsega.reanchor hsegb hnodup fun x hx => ?_)
    rw [cells, hlink, if_neg (hne x hx), cells, Option.or_none, Option.or_none]
  · intro x hx
    rw [hlink, if_neg (hne x hx)]
    exact h.tagged x (hmem x hx)
  · intro i hi _
    have hii : i ≠ index := fun heq => hi (by simp [heq])
    have hib : bs.head? ≠ some i := fun hh =>
      hi (hmem i (mem_append_right as (mem_of_head? hh)))
    have hia : as.getLast? ≠ some i := fun hh =>
      hi (hmem i (mem_append_left bs (mem_of_getLast? hh)))
    rw [hlink, if_neg hii, if_neg hib, if_neg hia]
  · intro i hi hi'
    rw [hlink, if_pos ((mem_cons.mp (hperm.mem_iff.mp hi)).resolve_right hi')]

/-! ## Pushing -/

theorem pushBack_nodes (nodes : List T) (list : IndexList) (index : Nat) :
    (list.pushBack slot tag nodes index).2 = linkIn slot tag nodes list.tail none index := by
  unfold pushBack
  cases list.tail <;> rfl

theorem pushFront_nodes (nodes : List T) (list : IndexList) (index : Nat) :
    (list.pushFront slot tag nodes index).2 = linkIn slot tag nodes none list.head index := by
  unfold pushFront
  cases list.head <;> rfl

theorem Holds.pushBack (h : Holds slot tag nodes list xs) (hb : index < nodes.length)
    (hnew : index ∉ xs) :
    Turns slot tag nodes xs (list.pushBack slot tag nodes index).2
      (list.pushBack slot tag nodes index).1 (xs ++ [index]) := by
  rw [pushBack_nodes, h.tail]
  rw [← List.append_nil xs] at h hnew
  have hturn := @Holds.link _ _ _ _ _ (list.pushBack slot tag nodes index).1 _ _ _ h hb hnew
  rw [List.append_nil] at hturn h
  refine hturn ?_ ?_ ?_ <;> unfold IndexList.pushBack <;> rw [h.tail]
  · rcases eq_nil_or_concat xs with rfl | ⟨ys, y, rfl⟩
    · rfl
    · simp [h.head]
  · cases xs.getLast? <;> simp
  · cases xs.getLast? <;> rfl

theorem Holds.pushFront (h : Holds slot tag nodes list xs) (hb : index < nodes.length)
    (hnew : index ∉ xs) :
    Turns slot tag nodes xs (list.pushFront slot tag nodes index).2
      (list.pushFront slot tag nodes index).1 (index :: xs) := by
  rw [pushFront_nodes, h.head]
  have hturn := @Holds.link _ _ _ _ _ (list.pushFront slot tag nodes index).1 [] _ _ h hb hnew
  refine hturn ?_ ?_ ?_ <;> unfold IndexList.pushFront <;> rw [h.head]
  · cases xs.head? <;> rfl
  · cases xs with
    | nil => rfl
    | cons x xs => simp [h.tail, getLast?_cons_cons]
  · cases xs.head? <;> rfl

theorem Rep.pushBack (h : Rep slot tag nodes list xs) (hb : index < nodes.length)
    (hnew : index ∉ xs) :
    Rep slot tag (list.pushBack slot tag nodes index).2
      (list.pushBack slot tag nodes index).1 (xs ++ [index]) :=
  (h.holds.pushBack hb hnew).rep h

theorem Rep.pushFront (h : Rep slot tag nodes list xs) (hb : index < nodes.length)
    (hnew : index ∉ xs) :
    Rep slot tag (list.pushFront slot tag nodes index).2
      (list.pushFront slot tag nodes index).1 (index :: xs) :=
  (h.holds.pushFront hb hnew).rep h

/-! ## Popping -/

theorem popFront_eq_unlink {x : Nat} (h : Holds slot tag nodes list (x :: xs)) :
    list.popFront slot nodes = (some x, list.unlinkKnownMember slot nodes x) := by
  rw [popFront, h.head]
  rfl

theorem popFront_cons {x : Nat} (h : Rep slot tag nodes list (x :: xs)) : list.popFront slot nodes =
      (some x, (list.popFront slot nodes).2.1, (list.popFront slot nodes).2.2) := by
  rw [popFront_eq_unlink h.holds]

theorem popFront_nil
    (h : Rep slot tag nodes list []) : list.popFront slot nodes = (none, list, nodes) := by
  unfold popFront
  rw [h.head]
  rfl

theorem Rep.popFront {x : Nat} (h : Rep slot tag nodes list (x :: xs)) :
    Rep slot tag (list.popFront slot nodes).2.2 (list.popFront slot nodes).2.1 xs := by
  rw [popFront_eq_unlink h.holds]
  exact (@Holds.unlink _ _ _ _ _ [] _ _ h.holds).rep h

/-! ## Only links of the slot are written -/

theorem sameBut_pushBack (nodes : List T) (list : IndexList) (index : Nat) :
    SameBut slot nodes (list.pushBack slot tag nodes index).2 := by
  rw [pushBack_nodes]
  exact sameBut_linkIn _ _ _ _

theorem sameBut_pushFront (nodes : List T) (list : IndexList) (index : Nat) :
    SameBut slot nodes (list.pushFront slot tag nodes index).2 := by
  rw [pushFront_nodes]
  exact sameBut_linkIn _ _ _ _

theorem sameBut_popFront (nodes : List T) (list : IndexList) :
    SameBut slot nodes (list.popFront slot nodes).2.2 := by
  unfold popFront
  cases list.head with
  | none => exact SameBut.refl _
  | some x => exact sameBut_unlinkKnownMember _ _ _

/-! ## Validation -/

theorem isLinked_linked (tag : BitVec 32) : isLinked (linked tag) = true := by
  have : (LINKED ||| tag) &&& LINKED = LINKED := by
    apply BitVec.eq_of_getLsbD_eq
    intro i hi
    simp only [BitVec.getLsbD_and, BitVec.getLsbD_or]
    cases LINKED.getLsbD i <;> simp
  rw [isLinked, linked, this]
  decide

/-- A node's link says whether it is in the list. -/
theorem Rep.isLinked (h : Rep slot tag nodes list xs) (i : Nat) :
    (linkAt slot nodes i).isLinked = true ↔ i ∈ xs := by
  constructor
  · intro hl
    by_contra hi
    rw [h.unlinked i hi] at hl
    exact absurd hl (by decide)
  · intro hi
    rw [Link.isLinked, h.tagged i hi]
    exact isLinked_linked tag

theorem validateLink_ok {l : Link} {i : Nat} :
    validateLink tag i l = .ok () ↔ l.state = linked tag := by
  have hbelongs : l.belongsTo tag = true ↔ l.state = linked tag := beq_iff_eq
  rw [← hbelongs, validateLink]
  by_cases hb : l.belongsTo tag = true
  · have hlinked : l.isLinked = true := by
      rw [Link.isLinked, hbelongs.mp hb]
      exact isLinked_linked tag
    simp [hb, hlinked]
  · by_cases hlinked : l.isLinked = true <;> simp [hb, hlinked]

/-- One round of the validation walk. -/
theorem walk_succ_ok {step back : Link → Option Nat} {count fuel : Nat} {p : Option Nat}
    {broken : Nat → Option Nat → Option Nat → ValidateError} {r : Option Nat × Nat} :
    walk slot tag step back broken nodes (fuel + 1) count p (some index) = .ok r ↔
      count ≤ nodes.length ∧ index < nodes.length ∧
        (linkAt slot nodes index).state = linked tag ∧
        back (linkAt slot nodes index) = p ∧
        walk slot tag step back broken nodes fuel (count + 1) (some index)
          (step (linkAt slot nodes index)) = .ok r := by
  rw [walk, validateIndex, ← validateLink_ok (i := index)]
  split_ifs with hc hb
  · simp [Nat.not_le.mpr hc]
  · simp [Nat.not_lt.mpr hb, bind, Except.bind]
  · cases hlink : validateLink tag index (linkAt slot nodes index) with
    | error e => simp [bind, Except.bind, hlink]
    | ok _ =>
      by_cases hback : back (linkAt slot nodes index) = p <;>
        simp [bind, Except.bind, hlink, hback, Nat.not_lt.mp hc, Nat.not_le.mp hb]

/-- The validation walk, in either direction: it goes through if it is over
a segment, and returns the last node of it. -/
theorem walk_ok {step back : Link → Option Nat}
    {broken : Nat → Option Nat → Option Nat → ValidateError} {r : Option Nat × Nat} :
    ∀ (fuel count : Nat) (p cur : Option Nat),
      walk slot tag step back broken nodes fuel count p cur = .ok r ↔
        ∃ ys : List Nat, cur = ys.head? ∧
          Seg (fun i => ⟨back (linkAt slot nodes i), step (linkAt slot nodes i)⟩) p ys none ∧
          (∀ y ∈ ys, y < nodes.length ∧ (linkAt slot nodes y).state = linked tag) ∧
          ys.length < fuel ∧ (ys ≠ [] → count + ys.length ≤ nodes.length + 1) ∧
          r = (ys.getLast?.or p, count + ys.length) := by
  intro fuel
  induction fuel with
  | zero => simp [walk]
  | succ fuel ih =>
    intro count p cur
    cases cur with
    | none =>
      constructor
      · intro h
        exact ⟨[], rfl, trivial, by simp, by simp, by simp, (Except.ok.inj h).symm⟩
      · rintro ⟨ys, hys, -, -, -, -, rfl⟩
        rw [head?_eq_none_iff.mp hys.symm]
        rfl
    | some index =>
      rw [walk_succ_ok, ih]
      constructor
      · rintro ⟨hc, hb, hs, hback, ys, hcur, hseg, hys, hlen, hcount, rfl⟩
        refine ⟨index :: ys, rfl, ⟨by simp only [hback, hcur, Option.or_none], hseg⟩,
          forall_mem_cons.mpr ⟨⟨hb, hs⟩, hys⟩, Nat.succ_lt_succ hlen, fun _ => ?_, ?_⟩
        · rw [length_cons]
          by_cases hnil : ys = []
          · rw [hnil, length_nil]
            omega
          · have := hcount hnil
            omega
        · rw [getLast?_cons_or, length_cons, Nat.add_right_comm, Nat.add_assoc]
      · rintro ⟨ys, hcur, hseg, hys, hlen, hcount, rfl⟩
        cases ys with
        | nil => cases hcur
        | cons y ys =>
          obtain rfl := Option.some.inj hcur
          obtain ⟨hy, hrest⟩ := hseg
          rw [Cell.mk.injEq, Option.or_none] at hy
          obtain ⟨⟨hb, hs⟩, hys⟩ := forall_mem_cons.mp hys
          have hle := hcount (cons_ne_nil _ _)
          rw [length_cons] at hle hlen
          refine ⟨by omega, hb, hs, hy.1, ys, hy.2, hrest, hys, by omega, fun _ => by omega, ?_⟩
          rw [getLast?_cons_or, length_cons, Nat.add_right_comm, Nat.add_assoc]

theorem endsAt_ok {last : Option Nat} {len : Nat}
    {mismatch : Option Nat → Option Nat → ValidateError} {walked : Option Nat × Nat} :
    endsAt last len mismatch walked = .ok () ↔ walked = (last, len) := by
  obtain ⟨found, count⟩ := walked
  rw [endsAt, Prod.mk.injEq]
  split_ifs <;> simp_all

theorem bind_endsAt {last : Option Nat} {len : Nat}
    {mismatch : Option Nat → Option Nat → ValidateError}
    {walked : Except ValidateError (Option Nat × Nat)} :
    walked >>= endsAt last len mismatch = .ok () ↔ walked = .ok (last, len) := by
  cases walked with
  | error e => simp [bind, Except.bind]
  | ok r => simpa [bind, Except.bind] using endsAt_ok

theorem validateForward_ok : list.validateForward slot tag nodes = .ok () ↔
    walk slot tag Link.next Link.prev .brokenPrev nodes (nodes.length + 2) 0 none
      list.head = .ok (list.tail, list.len) :=
  @bind_endsAt _ _ .tailMismatch _

theorem validateBackward_ok : list.validateBackward slot tag nodes = .ok () ↔
    walk slot tag Link.prev Link.next .brokenNext nodes (nodes.length + 2) 0 none
      list.tail = .ok (list.head, list.len) :=
  @bind_endsAt _ _ .headMismatch _

/-- **Validation accepts every list that holds a sequence.** -/
theorem Holds.validate (h : Holds slot tag nodes list xs) :
    list.validate slot tag nodes = .ok () := by
  have hle := h.length_le
  have hmem : ∀ y ∈ xs, y < nodes.length ∧
      (linkAt slot nodes y).state = linked tag :=
    fun y hy => ⟨h.bound y hy, h.tagged y hy⟩
  have hfwd : list.validateForward slot tag nodes = .ok () :=
    validateForward_ok.mpr ((walk_ok _ _ _ _).mpr ⟨xs, h.head, h.seg, hmem, by omega,
      fun _ => by omega, by rw [h.tail, h.len, Option.or_none, Nat.zero_add]⟩)
  have hbwd : list.validateBackward slot tag nodes = .ok () := by
    refine validateBackward_ok.mpr ((walk_ok _ _ _ _).mpr ⟨xs.reverse, ?_, h.seg.reverse,
      fun y hy => hmem y (mem_reverse.mp hy), ?_, fun _ => ?_, ?_⟩)
    · rw [head?_reverse, h.tail]
    · rw [length_reverse]
      omega
    · rw [length_reverse]
      omega
    · rw [getLast?_reverse, length_reverse, h.head, h.len, Option.or_none, Nat.zero_add]
  unfold IndexList.validate
  rw [hfwd, h.head, h.tail, h.len]
  cases xs with
  | nil =>
    rw [if_pos length_nil, IndexList.validateEmpty, h.head, h.tail]
    rfl
  | cons x xs =>
    rw [if_neg (by simp), if_neg (by simp), if_neg (by simp), if_neg (by omega)]
    exact hbwd

/-- **Validation accepts nothing else**, whatever the links contain. -/
theorem holds_of_validate (h : list.validate slot tag nodes = .ok ()) :
    ∃ xs, Holds slot tag nodes list xs := by
  unfold validate validateEmpty at h
  split_ifs at h with hlen hhead htail
  · exact ⟨[], by simpa using hhead, by simpa using htail, hlen, nodup_nil, by simp, trivial,
      by simp⟩
  · cases hfwd : list.validateForward slot tag nodes with
    | error e =>
      rw [hfwd] at h
      cases h
    | ok _ =>
      obtain ⟨xs, hfirst, hseg, hxs, -, -, hends⟩ :=
        (walk_ok _ _ _ _).mp (validateForward_ok.mp hfwd)
      rw [Prod.mk.injEq, Option.or_none, Nat.zero_add] at hends
      exact ⟨xs, hfirst, hends.1, hends.2, hseg.nodup, fun x hx => (hxs x hx).1, hseg,
        fun x hx => (hxs x hx).2⟩

/-- The walk of a node array that a `u32` can count does not panic. -/
theorem walk?_eq {step back : Link → Option Nat}
    {broken : Nat → Option Nat → Option Nat → ValidateError} (hnodes : nodes.length < 2 ^ 32 - 1) :
    ∀ (fuel count : Nat) (p cur : Option Nat), count ≤ nodes.length + 1 →
      fuel + count = nodes.length + 2 →
      walk? slot tag step back broken nodes fuel count p cur =
        (walk slot tag step back broken nodes fuel count p cur).mapError some := by
  intro fuel
  induction fuel with
  | zero =>
    intro count p cur hc hf
    omega
  | succ fuel ih =>
    intro count p cur hc hf
    cases cur with
    | none => rfl
    | some index =>
      rw [walk?, walk, validateIndex]
      by_cases hcount : nodes.length < count
      · rw [if_pos hcount, if_pos hcount]
        rfl
      rw [if_neg hcount, if_neg hcount]
      by_cases hb : nodes.length ≤ index
      · rw [if_pos hb]
        rfl
      have hget : nodes[index]? = some (nodes.get ⟨index, by omega⟩) :=
        getElem?_eq_getElem (by omega)
      have hlink : linkAt slot nodes index = slot.link (nodes.get ⟨index, by omega⟩) := by
        rw [linkAt, hget]
        rfl
      rw [if_neg hb, hlink, hget]
      simp only [Except.mapError, bind, Except.bind]
      cases validateLink tag index (slot.link (nodes.get ⟨index, by omega⟩)) with
      | error e => rfl
      | ok _ =>
        dsimp only
        rw [ih (count + 1) _ _ (by omega) (by omega), if_pos (show count + 1 < 2 ^ 32 by omega)]
        split_ifs <;> rfl

theorem validate?_eq (hnodes : nodes.length < 2 ^ 32 - 1) :
    list.validate? slot tag nodes = (list.validate slot tag nodes).mapError some := by
  have hbind : ∀ {α β : Type} (x : Except ValidateError α) (g : α → Except ValidateError β),
      (x >>= g).mapError some = x.mapError some >>= fun a => (g a).mapError some := by
    intro α β x g
    cases x <;> rfl
  unfold validate? validate
  split_ifs <;> try rfl
  rw [walk?_eq hnodes _ _ _ _ (Nat.zero_le _) rfl, walk?_eq hnodes _ _ _ _ (Nat.zero_le _) rfl,
    hbind, validateForward, validateBackward, hbind, hbind, bind_assoc]
  rfl

/-- **Validation is exact.** Over every array of fewer than `u32::MAX`
nodes, whatever their links contain, and for every list header `validate`
returns, and it accepts exactly the lists that hold a sequence. -/
theorem validate_exact (slot : LinkSlot T) (tag : BitVec 32) (nodes : List T)
    (hnodes : nodes.length < 2 ^ 32 - 1) (list : IndexList) :
    list.validate? slot tag nodes ≠ .error none ∧
      (list.validate? slot tag nodes = .ok () ↔ ∃ xs, Holds slot tag nodes list xs) := by
  rw [validate?_eq hnodes]
  cases h : list.validate slot tag nodes with
  | error e =>
    refine ⟨nofun, nofun, fun ⟨xs, hxs⟩ => ?_⟩
    rw [hxs.validate] at h
    cases h
  | ok _ => exact ⟨nofun, fun _ => holds_of_validate h, fun _ => rfl⟩

/-- A node that is nothing but its link. -/
def linkItself : LinkSlot Link := ⟨id, fun l _ => l, fun _ _ => rfl, fun _ _ _ => rfl⟩

/-- Two nodes that point at each other are a list, one that points at
itself is none. -/
theorem validate_exact_two : (∃ xs, Holds linkItself 3#32
      [Link.linkBetween 3#32 none (some 1), Link.linkBetween 3#32 (some 0) none]
      ⟨some 0, some 1, 2⟩ xs) ∧
    ¬ ∃ xs, Holds linkItself 3#32 [Link.linkBetween 3#32 none (some 0)] ⟨some 0, some 0, 1⟩ xs :=
  ⟨(validate_exact linkItself 3#32 _ (by decide) _).2.mp (by decide),
    mt (validate_exact linkItself 3#32 _ (by decide) _).2.mpr (by decide)⟩

end

end Aurum.Intrusive
