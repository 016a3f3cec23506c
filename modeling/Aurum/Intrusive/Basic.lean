import Aurum.Lib.Dll

/-!
# Intrusive — index lists threaded through the nodes

`aurum-intrusive`: a doubly linked list whose links live inside the
nodes of an external array. The const generic `LINK` of the source
selects one `Link` field of the node type; here it is a `LinkSlot`, a
lawful accessor pair. The const generic `TAG` is a plain argument.

`Index` is a niche-encoded `u32`; an index is a `Nat` here and
`Option<Index>` an `Option Nat`. An out-of-bounds `nodes[index]` panics
in the source; the model's `modifyLink` then changes nothing, and the
representation predicate of `Intrusive.Spec` keeps every index in
bounds, so no reachable run gets there.
-/

namespace Aurum.Intrusive

/-- `LinkState`: bit 31 is the linked flag, the rest the list tag. -/
abbrev LinkState := BitVec 32

namespace LinkState

def LINKED : LinkState := 1#32 <<< 31

def empty : LinkState := 0#32

def linked (tag : BitVec 32) : LinkState := LINKED ||| tag

def isLinked (s : LinkState) : Bool := s &&& LINKED != 0#32

/-- `LinkState::tag`: the tag of a linked state. -/
def tag (s : LinkState) : Option (BitVec 32) :=
  if isLinked s then some (s &&& ~~~LINKED) else none

def belongsTo (s : LinkState) (tag : BitVec 32) : Bool := s == (LINKED ||| tag)

end LinkState

/-- `Link`: the neighbours of a node in one list, and its membership. -/
structure Link where
  prev : Option Nat
  next : Option Nat
  state : LinkState
deriving DecidableEq, Repr

namespace Link

/-- `Link::new`: unlinked. -/
def new : Link := ⟨none, none, LinkState.empty⟩

def isLinked (l : Link) : Bool := LinkState.isLinked l.state

def tag (l : Link) : Option (BitVec 32) := LinkState.tag l.state

def belongsTo (l : Link) (tag : BitVec 32) : Bool := LinkState.belongsTo l.state tag

def linkBetween (tag : BitVec 32) (prev next : Option Nat) : Link :=
  ⟨prev, next, LinkState.linked tag⟩

end Link

/-- `Linked<LINK>`: one link field of the node type, with the laws of a
field accessor. -/
structure LinkSlot (T : Type) where
  link : T → Link
  setLink : Link → T → T
  link_setLink : ∀ l t, link (setLink l t) = l
  setLink_setLink : ∀ l l' t, setLink l (setLink l' t) = setLink l t

/-- `IndexList<LINK, TAG>`: the list header. -/
structure IndexList where
  head : Option Nat
  tail : Option Nat
  len : Nat
deriving DecidableEq, Repr

section Ops

variable {T : Type} (slot : LinkSlot T) (tag : BitVec 32) (list : IndexList) (nodes : List T)
  (index : Nat)

/-- `link(nodes, index)`. -/
def linkAt (nodes : List T) (index : Nat) : Link :=
  (nodes[index]?.map slot.link).getD Link.new

/-- `link_mut(nodes, index)`, followed by the assignment `f`. -/
def modifyLink (f : Link → Link) : List T :=
  nodes.modify index fun t => slot.setLink (f (slot.link t)) t

namespace IndexList

open Link

def new : IndexList := ⟨none, none, 0⟩

def pushBack : IndexList × List T :=
  let oldTail := list.tail
  let nodes := modifyLink slot nodes index fun _ => linkBetween tag oldTail none
  match oldTail with
  | some tail =>
    ({ list with tail := some index, len := list.len + 1 },
      modifyLink slot nodes tail fun l => { l with next := some index })
  | none => ({ head := some index, tail := some index, len := list.len + 1 }, nodes)

def pushFront : IndexList × List T :=
  let oldHead := list.head
  let nodes := modifyLink slot nodes index fun _ => linkBetween tag none oldHead
  match oldHead with
  | some head =>
    ({ list with head := some index, len := list.len + 1 },
      modifyLink slot nodes head fun l => { l with prev := some index })
  | none => ({ head := some index, tail := some index, len := list.len + 1 }, nodes)

/-- `splice_out`: reroute the neighbours of `index` around it. -/
def spliceOut : IndexList × List T :=
  let prev := (linkAt slot nodes index).prev
  let next := (linkAt slot nodes index).next
  let (list, nodes) := match prev with
    | some p => (list, modifyLink slot nodes p fun l => { l with next := next })
    | none => ({ list with head := next }, nodes)
  match next with
  | some n => (list, modifyLink slot nodes n fun l => { l with prev := prev })
  | none => ({ list with tail := prev }, nodes)

def unlinkKnownMember : IndexList × List T :=
  let (list, nodes) := list.spliceOut slot nodes index
  ({ list with len := list.len - 1 }, modifyLink slot nodes index fun _ => Link.new)

def popFront : Option Nat × IndexList × List T :=
  match list.head with
  | none => (none, list, nodes)
  | some index => (some index, list.unlinkKnownMember slot nodes index)

def popBack : Option Nat × IndexList × List T :=
  match list.tail with
  | none => (none, list, nodes)
  | some index => (some index, list.unlinkKnownMember slot nodes index)

/-- `insert_after`; `none` is the panic of its `expect`. -/
def insertAfter (at_ index : Nat) : Option (IndexList × List T) :=
  if list.tail = some at_ then some (list.pushBack slot tag nodes index)
  else
    match (linkAt slot nodes at_).next with
    | none => none
    | some next =>
      let nodes := modifyLink slot nodes index fun _ =>
        linkBetween tag (some at_) (some next)
      let nodes := modifyLink slot nodes at_ fun l => { l with next := some index }
      let nodes := modifyLink slot nodes next fun l => { l with prev := some index }
      some ({ list with len := list.len + 1 }, nodes)

/-- `insert_before`; `none` is the panic of its `expect`. -/
def insertBefore (at_ index : Nat) : Option (IndexList × List T) :=
  if list.head = some at_ then some (list.pushFront slot tag nodes index)
  else
    match (linkAt slot nodes at_).prev with
    | none => none
    | some prev =>
      let nodes := modifyLink slot nodes index fun _ =>
        linkBetween tag (some prev) (some at_)
      let nodes := modifyLink slot nodes prev fun l => { l with next := some index }
      let nodes := modifyLink slot nodes at_ fun l => { l with prev := some index }
      some ({ list with len := list.len + 1 }, nodes)

def remove : Bool × IndexList × List T :=
  if !(linkAt slot nodes index).isLinked then (false, list, nodes)
  else (true, list.unlinkKnownMember slot nodes index)

/-- `move_to_back`; `none` is the panic of its `expect`. -/
def moveToBack : Option (IndexList × List T) :=
  if list.tail = some index then some (list, nodes)
  else
    match list.tail with
    | none => none
    | some oldTail =>
      let (list, nodes) := list.spliceOut slot nodes index
      let nodes := modifyLink slot nodes index fun _ => linkBetween tag (some oldTail) none
      let nodes := modifyLink slot nodes oldTail fun l => { l with next := some index }
      some ({ list with tail := some index }, nodes)

/-- `move_to_front`; `none` is the panic of its `expect`. -/
def moveToFront : Option (IndexList × List T) :=
  if list.head = some index then some (list, nodes)
  else
    match list.head with
    | none => none
    | some oldHead =>
      let (list, nodes) := list.spliceOut slot nodes index
      let nodes := modifyLink slot nodes index fun _ => linkBetween tag none (some oldHead)
      let nodes := modifyLink slot nodes oldHead fun l => { l with prev := some index }
      some ({ list with head := some index }, nodes)

/-- `append`: both lists and the nodes; `none` is one of its panics. -/
def append (list other : IndexList) (nodes : List T) : Option (IndexList × IndexList × List T) :=
  if other.len = 0 then some (list, other, nodes)
  else if list.len = 0 then some (⟨other.head, other.tail, other.len⟩, new, nodes)
  else
    match list.tail, other.head with
    | some selfTail, some otherHead =>
      let nodes := modifyLink slot nodes selfTail fun l => { l with next := some otherHead }
      let nodes := modifyLink slot nodes otherHead fun l => { l with prev := some selfTail }
      if list.len + other.len < 2 ^ 32 then
        some ({ list with tail := other.tail, len := list.len + other.len }, new, nodes)
      else none
    | _, _ => none

/-- The loop of `clear`. -/
def clearLoop : Nat → Option Nat → List T → Option (List T)
  | 0, _, nodes => some nodes
  | _ + 1, none, _ => none
  | remaining + 1, some index, nodes =>
    clearLoop remaining (linkAt slot nodes index).next
      (modifyLink slot nodes index fun _ => Link.new)

/-- `clear`; `none` is the panic of its `expect`. -/
def clear : Option (IndexList × List T) :=
  (clearLoop slot list.len list.head nodes).map fun nodes => (new, nodes)

/-- The loop of `retain`. The closure may keep a state, so what it does
depends on the earlier calls as well; `calls` are their arguments. Returns
what the closure answered for which node. Every round visits another node
of the list, so `len() + 1` rounds are enough. -/
def retainLoop (keep : List (Nat × T) → Nat → T → Bool × T) :
    Nat → List (Nat × T) → Option Nat → IndexList → List T →
      Option (IndexList × List T × List (Nat × Bool))
  | 0, _, _, _, _ => none
  | _ + 1, _, none, list, nodes => some (list, nodes, [])
  | rounds + 1, calls, some index, list, nodes =>
    match nodes[index]? with
    | none => none
    | some t =>
      let next := (linkAt slot nodes index).next
      let kept := (keep calls index t).1
      let nodes := nodes.set index (keep calls index t).2
      let (list, nodes) :=
        if kept then (list, nodes) else list.unlinkKnownMember slot nodes index
      (retainLoop keep rounds (calls ++ [(index, t)]) next list nodes).map
        fun (list, nodes, answers) => (list, nodes, (index, kept) :: answers)

def retain (keep : List (Nat × T) → Nat → T → Bool × T) (list : IndexList) (nodes : List T) :
    Option (IndexList × List T × List (Nat × Bool)) :=
  retainLoop slot keep (list.len + 1) [] list.head list nodes

/-- What an iterator yields; `step` is the pointer it follows. -/
def iterLoop (step : Link → Option Nat) (nodes : List T) : Nat → Option Nat → List Nat
  | 0, _ => []
  | _ + 1, none => []
  | remaining + 1, some index =>
    index :: iterLoop step nodes remaining (step (linkAt slot nodes index))

def iter (list : IndexList) (nodes : List T) : List Nat :=
  iterLoop slot next nodes list.len list.head

def contains : Bool :=
  (list.iter slot nodes).any (· = index)

/-! ## Checks -/

inductive ListError where
  | indexOutOfBounds (index len : Nat)
  | alreadyLinked (index : Nat) (tag : Option (BitVec 32))
  | notLinked (index : Nat)
  | wrongList (index : Nat) (expectedTag : BitVec 32) (actualTag : Option (BitVec 32))
  | lengthOverflow
deriving DecidableEq, Repr

def checkInsertPreconditions : Except ListError Unit :=
  if nodes.length ≤ index then .error (.indexOutOfBounds index nodes.length)
  else if (linkAt slot nodes index).isLinked then
    .error (.alreadyLinked index (linkAt slot nodes index).tag)
  else if list.len = 2 ^ 32 - 1 then .error .lengthOverflow
  else .ok ()

def checkRemovePreconditions : Except ListError Unit :=
  if nodes.length ≤ index then .error (.indexOutOfBounds index nodes.length)
  else if !(linkAt slot nodes index).isLinked then .error (.notLinked index)
  else if !(linkAt slot nodes index).belongsTo tag || !list.contains slot nodes index then
    .error (.wrongList index tag (linkAt slot nodes index).tag)
  else .ok ()

/-- The `?` behind the checks of a `try_` operation: its result, with the
list and the nodes it leaves. `none` is a panic of the operation. -/
def checked (check : Except ListError Unit)
    (op : Option (IndexList × List T)) : Option (Except ListError Unit × IndexList × List T) :=
  match check with
  | .error e => some (.error e, list, nodes)
  | .ok () => op.map fun (list, nodes) => (.ok (), list, nodes)

def tryPushBack :=
  checked list nodes (list.checkInsertPreconditions slot nodes index)
    (some (list.pushBack slot tag nodes index))

def tryPushFront :=
  checked list nodes (list.checkInsertPreconditions slot nodes index)
    (some (list.pushFront slot tag nodes index))

/-- The checks of `try_insert_after` and `try_insert_before`. -/
def checkInsertAt (at_ index : Nat) : Except ListError Unit := do
  list.checkRemovePreconditions slot tag nodes at_
  list.checkInsertPreconditions slot nodes index

def tryInsertAfter (at_ index : Nat) :=
  checked list nodes (list.checkInsertAt slot tag nodes at_ index)
    (list.insertAfter slot tag nodes at_ index)

def tryInsertBefore (at_ index : Nat) :=
  checked list nodes (list.checkInsertAt slot tag nodes at_ index)
    (list.insertBefore slot tag nodes at_ index)

def tryRemove :=
  checked list nodes (list.checkRemovePreconditions slot tag nodes index)
    (some (list.unlinkKnownMember slot nodes index))

end IndexList

/-! ## Validation -/

inductive ValidateError where
  | emptyListHasHead (head : Option Nat)
  | emptyListHasTail (tail : Option Nat)
  | nonEmptyListMissingHead
  | nonEmptyListMissingTail
  | lenExceedsNodes (len nodes : Nat)
  | indexOutOfBounds (index nodes : Nat)
  | unlinkedNodeInList (index : Nat)
  | wrongTag (index : Nat) (expectedTag : BitVec 32) (actualTag : Option (BitVec 32))
  | brokenPrev (index : Nat) (expected actual : Option Nat)
  | brokenNext (index : Nat) (expected actual : Option Nat)
  | tailMismatch (expected actual : Option Nat)
  | headMismatch (expected actual : Option Nat)
  | lengthMismatch (expected actual : Nat)
  | cycleDetected
deriving DecidableEq, Repr

namespace IndexList

open Link

def validateIndex : Except ValidateError Unit :=
  if nodes.length ≤ index then .error (.indexOutOfBounds index nodes.length) else .ok ()

def validateLink (link : Link) : Except ValidateError Unit :=
  if !link.isLinked then .error (.unlinkedNodeInList index)
  else if !link.belongsTo tag then .error (.wrongTag index tag link.tag)
  else .ok ()

def validateEmpty : Except ValidateError Unit :=
  if list.head.isSome then .error (.emptyListHasHead list.head)
  else if list.tail.isSome then .error (.emptyListHasTail list.tail)
  else .ok ()

/-- The walk shared by the two directions. `step` is the pointer
followed, `back` the one that must lead to where the walk came from;
`broken` is the error when it does not. Returns the last node visited
and the number of nodes. The count guard stops the walk after
`nodes.len() + 1` nodes, so `nodes.len() + 2` is enough fuel. -/
def walk (step back : Link → Option Nat)
    (broken : Nat → Option Nat → Option Nat → ValidateError) (nodes : List T) :
    Nat → Nat → Option Nat → Option Nat → Except ValidateError (Option Nat × Nat)
  | 0, _, _, _ => .error .cycleDetected
  | _ + 1, count, from_, none => .ok (from_, count)
  | fuel + 1, count, from_, some index =>
    if nodes.length < count then .error .cycleDetected
    else do
      validateIndex nodes index
      let link := linkAt slot nodes index
      validateLink tag index link
      if back link ≠ from_ then .error (broken index from_ (back link))
      else walk step back broken nodes fuel (count + 1) (some index) (step link)

def validateForward : Except ValidateError Unit := do
  let (last, count) ←
    walk slot tag next prev .brokenPrev nodes (nodes.length + 2) 0 none list.head
  if last ≠ list.tail then .error (.tailMismatch last list.tail)
  else if count ≠ list.len then .error (.lengthMismatch list.len count)
  else .ok ()

def validateBackward : Except ValidateError Unit := do
  let (first, count) ←
    walk slot tag prev next .brokenNext nodes (nodes.length + 2) 0 none list.tail
  if first ≠ list.head then .error (.headMismatch first list.head)
  else if count ≠ list.len then .error (.lengthMismatch list.len count)
  else .ok ()

def validate : Except ValidateError Unit :=
  if list.len = 0 then list.validateEmpty
  else if list.head.isNone then .error .nonEmptyListMissingHead
  else if list.tail.isNone then .error .nonEmptyListMissingTail
  else if nodes.length < list.len then .error (.lenExceedsNodes list.len nodes.length)
  else do
    list.validateForward slot tag nodes
    list.validateBackward slot tag nodes

/-- `walk` as the code runs it: `nodes[index]` and `count += 1` may panic,
which is the error `none`, and so is a walk that is not over after `fuel`
rounds. -/
def walk? (step back : Link → Option Nat)
    (broken : Nat → Option Nat → Option Nat → ValidateError) (nodes : List T) :
    Nat → Nat → Option Nat → Option Nat → Except (Option ValidateError) (Option Nat × Nat)
  | 0, _, _, _ => .error none
  | _ + 1, count, from_, none => .ok (from_, count)
  | fuel + 1, count, from_, some index =>
    if nodes.length < count then .error (some .cycleDetected)
    else do
      (validateIndex nodes index).mapError some
      match nodes[index]? with
      | none => .error none
      | some t =>
        (validateLink tag index (slot.link t)).mapError some
        if back (slot.link t) ≠ from_ then
          .error (some (broken index from_ (back (slot.link t))))
        else if count + 1 < 2 ^ 32 then
          walk? step back broken nodes fuel (count + 1) (some index) (step (slot.link t))
        else .error none

/-- What follows the loop of `validate_forward` and `validate_backward`:
the walk must end at `last` after `len` nodes. -/
def endsAt (last : Option Nat) (len : Nat) (mismatch : Option Nat → Option Nat → ValidateError)
    (walked : Option Nat × Nat) : Except ValidateError Unit :=
  if walked.1 ≠ last then .error (mismatch walked.1 last)
  else if walked.2 ≠ len then .error (.lengthMismatch len walked.2)
  else .ok ()

/-- `validate` with its panics. -/
def validate? : Except (Option ValidateError) Unit :=
  if list.len = 0 then list.validateEmpty.mapError some
  else if list.head.isNone then .error (some .nonEmptyListMissingHead)
  else if list.tail.isNone then .error (some .nonEmptyListMissingTail)
  else if nodes.length < list.len then .error (some (.lenExceedsNodes list.len nodes.length))
  else do
    let forward ←
      walk? slot tag next prev .brokenPrev nodes (nodes.length + 2) 0 none list.head
    (endsAt list.tail list.len .tailMismatch forward).mapError some
    let backward ←
      walk? slot tag prev next .brokenNext nodes (nodes.length + 2) 0 none list.tail
    (endsAt list.head list.len .headMismatch backward).mapError some

end IndexList

end Ops

end Aurum.Intrusive
