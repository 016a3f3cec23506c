import Aurum.Intrusive.Calls

/-!
# Intrusive — many lists over one node array

An arena: one node array and a family of index lists, each with its slot
and its tag. Lists of different slots share nodes; lists of one slot do
not. `Mirrors` relates an arena to one sequence per list, `step` is a call
on one of the lists or an `append` of one to another, and
`lists_are_sequences` takes the relation through every run: no call
panics, every list reads as its sequence, and nothing but the lists a call
is about changes.
-/

namespace Aurum.Intrusive

open List Function IndexList

/-- The lists over a node array: the slots of its nodes, and the slot and
tag of every list. -/
structure Layout (ι κ T : Type) extends Slots κ T where
  slotOf : ι → κ
  tagOf : ι → BitVec 32

/-- The slot a list is linked through. -/
def Layout.slotAt {ι κ T : Type} (layout : Layout ι κ T) (l : ι) : LinkSlot T :=
  layout.slot (layout.slotOf l)

/-- A node array and the headers of its lists. -/
structure Arena (ι T : Type) where
  nodes : List T
  lists : ι → IndexList

/-- An operation on an arena. -/
inductive Op (ι T : Type) where
  | call (l : ι) (c : Call T)
  | append (l other : ι)

/-- The lists an operation is about. -/
def Op.about {ι T : Type} : Op ι T → List ι
  | call l _ => [l]
  | append l other => [l, other]

section

variable {ι κ T : Type} [DecidableEq ι] (layout : Layout ι κ T)

/-- One operation; `none` is a panic. -/
def Arena.step (a : Arena ι T) : Op ι T → Option (Arena ι T × Out)
  | .call l c =>
    (c.run (layout.slotAt l) (layout.tagOf l) (a.lists l) a.nodes).map
      fun (list, nodes, out) => (⟨nodes, update a.lists l list⟩, out)
  | .append l other =>
    ((a.lists l).append (layout.slotAt l) (a.lists other) a.nodes).map
      fun (list, list', nodes) =>
        (⟨nodes, update (update a.lists l list) other list'⟩, .done)

/-- What the caller ensures. Two lists that are appended have one type, so
one slot and one tag, and they are borrowed mutably, so they are two. -/
def Arena.Pre (a : Arena ι T) : Op ι T → Prop
  | .call l c => c.Pre layout.toSlots (layout.slotOf l) (a.lists l) a.nodes
  | .append l other =>
    l ≠ other ∧ layout.slotOf l = layout.slotOf other ∧ layout.tagOf l = layout.tagOf other

/-- Run operations; `none` is a panic. -/
def Arena.run : Arena ι T → List (Op ι T) → Option (Arena ι T × List Out)
  | a, [] => some (a, [])
  | a, op :: ops =>
    match a.step layout op with
    | none => none
    | some (a', out) => (Arena.run a' ops).map fun (b, outs) => (b, out :: outs)

/-- Every operation of a run meets its precondition where it happens. -/
def Arena.Respects : Arena ι T → List (Op ι T) → Prop
  | _, [] => True
  | a, op :: ops => a.Pre layout op ∧
      match a.step layout op with
      | none => True
      | some (a', _) => Arena.Respects a' ops

/-- What an operation does to the sequences. -/
def Op.apply (out : Out) (seqs : ι → List Nat) : Op ι T → ι → List Nat
  | .call l c => update seqs l (c.apply out (seqs l))
  | .append l other =>
    update (update seqs l (seqs l ++ seqs other)) other []

/-- What an operation returns. -/
def Op.Returns (seqs : ι → List Nat) (out : Out) : Op ι T → Prop
  | .call l c => c.Returns (seqs l) out
  | .append _ _ => out = .done

/-- What a run does to the sequences, given what its operations returned. -/
def applyAll : (ι → List Nat) → List (Op ι T) → List Out → ι → List Nat
  | seqs, op :: ops, out :: outs => applyAll (op.apply out seqs) ops outs
  | seqs, _, _ => seqs

/-- The arena and the sequences agree. -/
structure Mirrors (a : Arena ι T) (seqs : ι → List Nat) : Prop where
  holds : ∀ l, Holds (layout.slotAt l) (layout.tagOf l) a.nodes (a.lists l) (seqs l)
  disjoint : ∀ l m, l ≠ m → layout.slotOf l = layout.slotOf m → (seqs l).Disjoint (seqs m)
  unlinked : ∀ k i, (∀ l, layout.slotOf l = k → i ∉ seqs l) →
    linkAt (layout.slot k) a.nodes i = Link.new

/-- What an operation leaves alone: the links of every other slot, and the
header and links of every list of its slot that it is not about. -/
structure Leaves (op : Op ι T) (a a' : Arena ι T) (seqs : ι → List Nat) : Prop where
  slots : ∀ k, (∀ l ∈ op.about, layout.slotOf l ≠ k) → ∀ i,
    linkAt (layout.slot k) a'.nodes i = linkAt (layout.slot k) a.nodes i
  lists : ∀ m, m ∉ op.about → a'.lists m = a.lists m ∧
    ∀ i ∈ seqs m, linkAt (layout.slotAt m) a'.nodes i = linkAt (layout.slotAt m) a.nodes i

end

section

variable {ι κ T : Type} {layout : Layout ι κ T} {a : Arena ι T}
  {seqs : ι → List Nat}

/-- Two lists of one slot share no node. -/
theorem Mirrors.eq_of_mem (h : Mirrors layout a seqs) {l m : ι} {i : Nat}
    (hslot : layout.slotOf l = layout.slotOf m) (hl : i ∈ seqs l) (hm : i ∈ seqs m) : l = m := by
  by_contra hne
  exact h.disjoint l m hne hslot hl hm

/-- Empty lists over unlinked nodes. -/
theorem mirrors_new {nodes : List T} (hnew : ∀ k, ∀ t ∈ nodes, (layout.slot k).link t = Link.new) :
    Mirrors layout ⟨nodes, fun _ => new⟩ fun _ => [] where
  holds := fun _ => holds_new nodes
  disjoint := fun _ _ _ _ _ hi => absurd hi not_mem_nil
  unlinked := by
    intro k i _
    rw [linkAt]
    cases ht : nodes[i]? with
    | none => rfl
    | some t => exact hnew k t (mem_of_getElem? ht)

/-- What an operation on lists of one slot does: other lists and slots as
before, nodes that leave its lists unlinked, nodes that enter them free. -/
structure Changes (layout : Layout ι κ T) (k : κ) (op : Op ι T) (a a' : Arena ι T)
    (seqs seqs' : ι → List Nat) : Prop where
  slot : ∀ l ∈ op.about, layout.slotOf l = k
  length : a'.nodes.length = a.nodes.length
  rest : ∀ l, l ∉ op.about → a'.lists l = a.lists l ∧ seqs' l = seqs l
  others : ∀ k', k ≠ k' → ∀ i,
    linkAt (layout.slot k') a'.nodes i = linkAt (layout.slot k') a.nodes i
  frame : ∀ i, (∀ l ∈ op.about, i ∉ seqs l ∧ i ∉ seqs' l) →
    linkAt (layout.slot k) a'.nodes i = linkAt (layout.slot k) a.nodes i
  reset : ∀ l ∈ op.about, ∀ i ∈ seqs l, (∀ m ∈ op.about, i ∉ seqs' m) →
    linkAt (layout.slot k) a'.nodes i = Link.new
  fresh : ∀ l ∈ op.about, ∀ i ∈ seqs' l, (∃ m ∈ op.about, i ∈ seqs m) ∨
    (linkAt (layout.slot k) a.nodes i).isLinked = false
  holds : ∀ l ∈ op.about, Holds (layout.slot k) (layout.tagOf l) a'.nodes (a'.lists l) (seqs' l)
  disjoint : ∀ l ∈ op.about, ∀ m ∈ op.about, l ≠ m → (seqs' l).Disjoint (seqs' m)

section

variable {k : κ} {op : Op ι T} {a' : Arena ι T} {seqs' : ι → List Nat}

/-- The nodes of a list that is not the operation's own are not touched. -/
theorem Changes.apart (hc : Changes layout k op a a' seqs seqs') (h : Mirrors layout a seqs)
    {m : ι} (hm : m ∉ op.about) (hk : layout.slotOf m = k) {i : Nat} (hi : i ∈ seqs m) :
    ∀ l ∈ op.about, i ∉ seqs l ∧ i ∉ seqs' l := by
  have hnot : ∀ l ∈ op.about, i ∉ seqs l := fun l hl hil =>
    hm (h.eq_of_mem (hk.trans (hc.slot l hl).symm) hi hil ▸ hl)
  refine fun l hl => ⟨hnot l hl, fun hin => ?_⟩
  rcases hc.fresh l hl i hin with ⟨m', hm', hi'⟩ | hfree
  · exact hnot m' hm' hi'
  · have hlinked := (h.holds m).isLinked hi
    rw [Layout.slotAt, hk, hfree] at hlinked
    cases hlinked

theorem Changes.leaves (hc : Changes layout k op a a' seqs seqs') (h : Mirrors layout a seqs) :
    Leaves layout op a a' seqs where
  slots := by
    intro k' hk' i
    obtain ⟨l, hl⟩ : ∃ l, l ∈ op.about := by cases op <;> exact ⟨_, mem_cons_self⟩
    exact hc.others k' (hc.slot l hl ▸ hk' l hl) i
  lists := by
    refine fun m hm => ⟨(hc.rest m hm).1, fun i hi => ?_⟩
    by_cases hk : layout.slotOf m = k
    · rw [Layout.slotAt, hk]
      exact hc.frame i (hc.apart h hm hk hi)
    · exact hc.others _ (Ne.symm hk) i

theorem Changes.mirrors (hc : Changes layout k op a a' seqs seqs') (h : Mirrors layout a seqs) :
    Mirrors layout a' seqs' where
  holds := by
    intro m
    by_cases hm : m ∈ op.about
    · rw [Layout.slotAt, hc.slot m hm]
      exact hc.holds m hm
    · rw [(hc.rest m hm).1, (hc.rest m hm).2]
      exact (h.holds m).congr hc.length ((hc.leaves h).lists m hm).2
  disjoint := by
    intro l m hne hslot
    by_cases hl : l ∈ op.about <;> by_cases hm : m ∈ op.about
    · exact hc.disjoint l hl m hm hne
    · rw [(hc.rest m hm).2]
      exact fun i hin hi => (hc.apart h hm (hslot.symm.trans (hc.slot l hl)) hi l hl).2 hin
    · rw [(hc.rest l hl).2]
      exact fun i hi hin => (hc.apart h hl (hslot.trans (hc.slot m hm)) hi m hm).2 hin
    · rw [(hc.rest l hl).2, (hc.rest m hm).2]
      exact h.disjoint l m hne hslot
  unlinked := by
    intro k' i hk'
    have hout : ∀ m ∉ op.about, layout.slotOf m = k' → i ∉ seqs m := fun m hm hs =>
      (hc.rest m hm).2 ▸ hk' m hs
    by_cases hk : k = k'
    · subst hk
      have hnot : ∀ m ∈ op.about, i ∉ seqs' m := fun m hm => hk' m (hc.slot m hm)
      by_cases hin : ∃ l ∈ op.about, i ∈ seqs l
      · obtain ⟨l, hl, hi⟩ := hin
        exact hc.reset l hl i hi hnot
      · rw [hc.frame i fun l hl => ⟨fun hi => hin ⟨l, hl, hi⟩, hnot l hl⟩]
        refine h.unlinked k i fun m hs hi => ?_
        by_cases hm : m ∈ op.about
        · exact hin ⟨m, hm, hi⟩
        · exact hout m hm hs hi
    · rw [hc.others k' hk i]
      exact h.unlinked k' i fun m hs => hout m (fun hm => hk ((hc.slot m hm).symm.trans hs)) hs

end

variable [DecidableEq ι]

/-- **One call.** -/
theorem Mirrors.call (h : Mirrors layout a seqs) {l : ι} {c : Call T}
    (hpre : a.Pre layout (.call l c)) :
    ∃ a' out, a.step layout (.call l c) = some (a', out) ∧ (Op.call l c).Returns seqs out ∧
      Changes layout (layout.slotOf l) (.call l c) a a' seqs ((Op.call l c).apply out seqs) := by
  obtain ⟨list', nodes', out, hrun, hdoes⟩ := Call.run_spec (h.holds l) c hpre
  have hself : (Op.call l c).apply out seqs l = c.apply out (seqs l) := update_self ..
  refine ⟨⟨nodes', update a.lists l list'⟩, out,
    by rw [Arena.step, Layout.slotAt, hrun]; rfl, hdoes.returns, ?_⟩
  constructor <;> simp only [Op.about, mem_singleton, forall_eq, exists_eq_left, hself]
  · exact hdoes.turns.length
  · exact fun m hm => ⟨update_of_ne hm .., update_of_ne hm ..⟩
  · exact hdoes.others
  · exact fun i hi => hdoes.turns.frame i hi.1 hi.2
  · exact hdoes.turns.reset
  · exact fun i hi => (em (i ∈ seqs l)).imp_right (hdoes.fresh i hi)
  · rw [update_self]
    exact hdoes.turns.holds
  · exact fun hne => absurd rfl hne

/-- **One append.** -/
theorem Mirrors.append (h : Mirrors layout a seqs) (hnodes : a.nodes.length < 2 ^ 32 - 1)
    {l other : ι} (hpre : a.Pre layout (.append l other)) :
    ∃ a' out, a.step layout (.append l other) = some (a', out) ∧
      (Op.append l other : Op ι T).Returns seqs out ∧
      Changes layout (layout.slotOf l) (.append l other) a a' seqs
        ((Op.append l other : Op ι T).apply out seqs) := by
  obtain ⟨hne, hslot, htag⟩ := hpre
  have hl := h.holds l
  have ho := h.holds other
  have hdisj := h.disjoint l other hne hslot
  have hat : layout.slotAt other = layout.slotAt l := by rw [Layout.slotAt, Layout.slotAt, hslot]
  rw [hat, ← htag] at ho
  -- both together still fit in the node array, so the length does not overflow
  have hfit : (seqs l).length + (seqs other).length < 2 ^ 32 := by
    have hnodup : (seqs l ++ seqs other).Nodup := nodup_append.mpr
      ⟨hl.nodup, ho.nodup, fun x hx y hy hxy => hdisj hx (hxy ▸ hy)⟩
    have hsub : seqs l ++ seqs other ⊆ List.range a.nodes.length := by
      intro x hx
      rw [mem_range]
      rcases mem_append.mp hx with hx | hx
      · exact hl.bound x hx
      · exact ho.bound x hx
    have hle := hnodup.length_le_of_subset hsub
    rw [length_append, length_range] at hle
    omega
  obtain ⟨list', other', nodes', hrun, hheld, hempty, hsame, hframe⟩ := hl.append ho hdisj hfit
  have hfirst : (Op.append l other : Op ι T).apply .done seqs l = seqs l ++ seqs other := by
    rw [Op.apply, update_of_ne hne, update_self]
  have hsecond : (Op.append l other : Op ι T).apply .done seqs other = [] := update_self ..
  refine ⟨⟨nodes', update (update a.lists l list') other other'⟩, .done,
    by rw [Arena.step, hrun]; rfl, rfl, ?_⟩
  constructor <;> simp only [Op.about, mem_cons, not_mem_nil, or_false, forall_eq_or_imp,
    forall_eq, exists_eq_or_imp, exists_eq_left, hfirst, hsecond]
  · exact ⟨trivial, hslot.symm⟩
  · exact hsame.1
  · intro m hm
    obtain ⟨hml, hmo⟩ := not_or.mp hm
    rw [Op.apply, update_of_ne hmo, update_of_ne hml, update_of_ne hmo,
      update_of_ne hml]
    exact ⟨rfl, rfl⟩
  · exact hsame.others
  · exact fun i hi => hframe i hi.1.1 hi.2.1
  · exact ⟨fun i hi hout => absurd (mem_append_left _ hi) hout.1,
      fun i hi hout => absurd (mem_append_right _ hi) hout.1⟩
  · exact ⟨fun i hi => .inl (mem_append.mp hi), fun _ hi => (nomatch hi)⟩
  · rw [update_of_ne hne, update_self, update_self, ← htag]
    exact ⟨hheld, hempty⟩
  · exact ⟨⟨fun hll => absurd rfl hll, fun _ => disjoint_nil_right _⟩,
      fun _ => disjoint_nil_left _, fun _ => disjoint_nil_left _⟩

/-- **One operation.** -/
theorem Mirrors.step (h : Mirrors layout a seqs) (hnodes : a.nodes.length < 2 ^ 32 - 1)
    {op : Op ι T} (hpre : a.Pre layout op) :
    ∃ a' out, a.step layout op = some (a', out) ∧ a'.nodes.length = a.nodes.length ∧
      Mirrors layout a' (op.apply out seqs) ∧ op.Returns seqs out ∧
      Leaves layout op a a' seqs := by
  cases op with
  | call l c =>
    obtain ⟨a', out, hstep, hret, hc⟩ := h.call hpre
    exact ⟨a', out, hstep, hc.length, hc.mirrors h, hret, hc.leaves h⟩
  | append l other =>
    obtain ⟨a', out, hstep, hret, hc⟩ := h.append hnodes hpre
    exact ⟨a', out, hstep, hc.length, hc.mirrors h, hret, hc.leaves h⟩

/-- **A whole run.** -/
theorem Mirrors.run (hnodes : a.nodes.length < 2 ^ 32 - 1) (h : Mirrors layout a seqs)
    {ops : List (Op ι T)} (hops : a.Respects layout ops) :
    ∃ a' outs, a.run layout ops = some (a', outs) ∧ a'.nodes.length = a.nodes.length ∧
      Mirrors layout a' (applyAll seqs ops outs) := by
  induction ops generalizing a seqs with
  | nil => exact ⟨a, [], rfl, rfl, h⟩
  | cons op ops ih =>
    obtain ⟨hpre, hrest⟩ := hops
    obtain ⟨a₁, out, hstep, hlen, hm, -, -⟩ := h.step hnodes hpre
    rw [hstep] at hrest
    obtain ⟨a', outs, hrun, hlen', hm'⟩ := ih (by rw [hlen]; exact hnodes) hm hrest
    refine ⟨a', out :: outs, ?_, hlen'.trans hlen, hm'⟩
    rw [Arena.run, hstep]
    dsimp only
    rw [hrun]
    rfl

end

/-- Nodes with two links; lists `0` and `1` go through the first, list `2`
through the second. -/
def twoLinks : Layout (Fin 3) Bool (Link × Link) where
  slot
    | false => ⟨Prod.fst, fun l t => (l, t.2), fun _ _ => rfl, fun _ _ _ => rfl⟩
    | true => ⟨Prod.snd, fun l t => (t.1, l), fun _ _ => rfl, fun _ _ _ => rfl⟩
  independent := by
    intro k k' hne l t
    cases k <;> cases k'
    · exact absurd rfl hne
    · rfl
    · rfl
    · exact absurd rfl hne
  slotOf l := l = 2
  tagOf l := if l = 2 then 7#32 else 3#32

/-- A call with a `try_` form. -/
inductive TryCall where
  | pushFront (index : Nat)
  | pushBack (index : Nat)
  | insertBefore (at_ index : Nat)
  | insertAfter (at_ index : Nat)
  | remove (index : Nat)

namespace TryCall

section

variable {T : Type} (slot : LinkSlot T) (tag : BitVec 32) (list : IndexList) (nodes : List T)

/-- Run the `try_` form. -/
def run : TryCall → Option (Except ListError Unit × IndexList × List T)
  | pushFront index => list.tryPushFront slot tag nodes index
  | pushBack index => list.tryPushBack slot tag nodes index
  | insertBefore at_ index => list.tryInsertBefore slot tag nodes at_ index
  | insertAfter at_ index => list.tryInsertAfter slot tag nodes at_ index
  | remove index => list.tryRemove slot tag nodes index

/-- What the `try_` form checks. -/
def check : TryCall → Except ListError Unit
  | pushFront index | pushBack index => list.checkInsertPreconditions slot nodes index
  | insertBefore at_ index | insertAfter at_ index => list.checkInsertAt slot tag nodes at_ index
  | remove index => list.checkRemovePreconditions slot tag nodes index

/-- The call it checks. -/
def call : TryCall → Call T
  | pushFront index => .pushFront index
  | pushBack index => .pushBack index
  | insertBefore at_ index => .insertBefore at_ index
  | insertAfter at_ index => .insertAfter at_ index
  | remove index => .remove index

end

/-- When the call is allowed on the sequence `xs`; `free` says which nodes
can be linked. -/
def Allowed (free : Nat → Prop) (xs : List Nat) : TryCall → Prop
  | pushFront index | pushBack index => free index
  | insertBefore at_ index | insertAfter at_ index => at_ ∈ xs ∧ free index
  | remove index => index ∈ xs

end TryCall

/-- The node is in bounds and in no list of the slot, and the length of the
list can go up. -/
def Arena.Free {ι κ T : Type} (layout : Layout ι κ T) (a : Arena ι T) (seqs : ι → List Nat) (l : ι)
    (index : Nat) : Prop :=
  index < a.nodes.length ∧ (∀ m, layout.slotOf m = layout.slotOf l → index ∉ seqs m) ∧
    (a.lists l).len < 2 ^ 32 - 1

section

variable {ι κ T : Type} {layout : Layout ι κ T} {a : Arena ι T} {seqs : ι → List Nat}
  {slot : LinkSlot T} {tag : BitVec 32} {list : IndexList} {nodes : List T}

theorem Holds.checkRemove_ok {xs : List Nat} {index : Nat} (h : Holds slot tag nodes list xs) :
    list.checkRemovePreconditions slot tag nodes index = .ok () ↔ index ∈ xs := by
  rw [← h.contains index, checkRemovePreconditions]
  by_cases hc : list.contains slot nodes index = true
  · have hmem := (h.contains index).mp hc
    have hbelongs : (linkAt slot nodes index).belongsTo tag = true :=
      beq_iff_eq.mpr (h.tagged index hmem)
    simp [hc, hbelongs, h.isLinked hmem, h.bound index hmem]
  · simp only [hc]
    split_ifs <;> simp_all

theorem Mirrors.checkInsert_ok (h : Mirrors layout a seqs) {l : ι} (hlen : (a.lists l).len < 2 ^ 32)
    {index : Nat} :
    (a.lists l).checkInsertPreconditions (layout.slotAt l) a.nodes index = .ok () ↔
      a.Free layout seqs l index := by
  rw [Intrusive.checkInsert_ok, Arena.Free]
  refine and_congr_right fun _ => and_congr ⟨fun hfree m hm hi => ?_, fun hout => ?_⟩ (by omega)
  · have hlinked := (h.holds m).isLinked hi
    rw [Layout.slotAt, hm, ← Layout.slotAt, hfree] at hlinked
    cases hlinked
  · rw [Layout.slotAt, h.unlinked _ index hout]
    rfl

/-- The checks decide whether the call is allowed. -/
theorem TryCall.check_ok (h : Mirrors layout a seqs) {l : ι} (hlen : (a.lists l).len < 2 ^ 32)
    (c : TryCall) :
    c.check (layout.slotAt l) (layout.tagOf l) (a.lists l) a.nodes = .ok () ↔
      c.Allowed (a.Free layout seqs l) (seqs l) := by
  have hat : ∀ at_ index, (a.lists l).checkInsertAt (layout.slotAt l) (layout.tagOf l) a.nodes at_
      index = .ok () ↔ at_ ∈ seqs l ∧ a.Free layout seqs l index := by
    intro at_ index
    rw [← h.checkInsert_ok hlen, ← (h.holds l).checkRemove_ok, checkInsertAt]
    cases (a.lists l).checkRemovePreconditions (layout.slotAt l) (layout.tagOf l) a.nodes at_ <;>
      simp [bind, Except.bind]
  cases c with
  | pushFront index | pushBack index => exact h.checkInsert_ok hlen
  | insertBefore at_ index | insertAfter at_ index => exact hat at_ index
  | remove index => exact (h.holds l).checkRemove_ok

/-- A call that passes its checks meets the precondition of the plain one. -/
theorem TryCall.pre (h : Mirrors layout a seqs) {l : ι} (hlen : (a.lists l).len < 2 ^ 32)
    {c : TryCall} (hc : c.Allowed (a.Free layout seqs l) (seqs l)) :
    a.Pre layout (.call l c.call) := by
  cases c with
  | pushFront index | pushBack index => exact (h.checkInsert_ok hlen).mpr hc
  | insertBefore at_ index | insertAfter at_ index =>
    exact ⟨((h.holds l).contains at_).mpr hc.1, (h.checkInsert_ok hlen).mpr hc.2⟩
  | remove index =>
    exact ⟨(h.holds l).bound index hc, fun _ => ((h.holds l).contains index).mpr hc⟩

/-- The `try_` form runs the call behind its checks. -/
theorem TryCall.run_eq (c : TryCall) :
    c.run slot tag list nodes = IndexList.checked list nodes (c.check slot tag list nodes)
      ((c.call.run slot tag list nodes).map fun r => (r.1, r.2.1)) := by
  cases c with
  | pushFront index | pushBack index => rfl
  | insertBefore at_ index =>
    rw [run, IndexList.tryInsertBefore, call, Call.run, Option.map_map]
    exact congrArg _ (congrFun Option.map_id _).symm
  | insertAfter at_ index =>
    rw [run, IndexList.tryInsertAfter, call, Call.run, Option.map_map]
    exact congrArg _ (congrFun Option.map_id _).symm
  | remove index =>
    rw [run, IndexList.tryRemove, call, Call.run, check, IndexList.remove]
    by_cases hl : (linkAt slot nodes index).isLinked = true
    · rw [hl]
      rfl
    · rw [IndexList.checkRemovePreconditions, Bool.not_eq_true _ |>.mp hl]
      split_ifs <;> rfl

end

/-- **Checked calls fail exactly on violated preconditions.** In every
arena that mirrors sequences and for every index a `try_` call returns,
succeeds exactly if it is allowed on the sequences, changes nothing if it
fails, and does to its sequence what the plain call does if it succeeds.
The length of a list is a `u32`. -/
theorem checked_calls_exact {ι κ T : Type} [DecidableEq ι] (layout : Layout ι κ T)
    (a : Arena ι T) (seqs : ι → List Nat) (h : Mirrors layout a seqs) (l : ι)
    (hlen : (a.lists l).len < 2 ^ 32) (c : TryCall) :
    ∃ res list nodes, c.run (layout.slotAt l) (layout.tagOf l) (a.lists l) a.nodes =
        some (res, list, nodes) ∧
      (res = .ok () ↔ c.Allowed (a.Free layout seqs l) (seqs l)) ∧
      (res ≠ .ok () → list = a.lists l ∧ nodes = a.nodes) ∧
      (res = .ok () → Mirrors layout ⟨nodes, Function.update a.lists l list⟩
        (Function.update seqs l ((c.call : Call T).apply .done (seqs l)))) := by
  have hok := TryCall.check_ok h hlen c
  rw [TryCall.run_eq]
  cases hcheck : c.check (layout.slotAt l) (layout.tagOf l) (a.lists l) a.nodes with
  | error e =>
    rw [hcheck] at hok
    exact ⟨.error e, _, _, rfl, iff_of_false nofun (mt hok.mpr nofun), fun _ => ⟨rfl, rfl⟩, nofun⟩
  | ok _ =>
    have hallowed := hok.mp hcheck
    obtain ⟨a', out, hstep, -, hchanges⟩ := h.call (TryCall.pre h hlen hallowed)
    obtain ⟨⟨list, nodes, out'⟩, hrun, heq⟩ := Option.map_eq_some_iff.mp hstep
    obtain ⟨rfl, rfl⟩ := Prod.mk.inj heq
    refine ⟨.ok (), list, nodes, by rw [hrun]; rfl, iff_of_true rfl hallowed,
      fun hne => absurd rfl hne, fun _ => ?_⟩
    have hm := hchanges.mirrors h
    cases c <;> exact hm

/-- Node `1` of two free ones. -/
theorem checked_calls_exact_push : ∃ list nodes,
    (TryCall.pushBack 1).run (twoLinks.slotAt 0) 3#32 IndexList.new
      (List.replicate 2 (Link.new, Link.new)) = some (.ok (), list, nodes) ∧
    Mirrors twoLinks ⟨nodes, Function.update (fun _ => IndexList.new) 0 list⟩
      (Function.update (fun _ => []) 0 [1]) := by
  obtain ⟨res, list, nodes, hrun, hok, -, hm⟩ := checked_calls_exact twoLinks
    ⟨List.replicate 2 (Link.new, Link.new), fun _ => IndexList.new⟩ (fun _ => [])
    (mirrors_new (by decide)) 0 (by decide) (.pushBack 1)
  obtain rfl := hok.mpr ⟨by decide, fun _ _ => not_mem_nil, by decide⟩
  exact ⟨list, nodes, hrun, hm rfl⟩

end Aurum.Intrusive
