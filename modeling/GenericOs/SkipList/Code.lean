import Mathlib.Algebra.Group.Nat.Defs
import Mathlib.Data.List.Basic
import Mathlib.Logic.Function.Basic

/-!
# The skip list of `SkipList.c`

`α` is the set of places a node can be stored at, and a null pointer is `none`. A heap
says what is stored in each place and which places may be accessed: a load or a store
anywhere else, or through a null pointer, makes the call fail (`none`). So does a loop
that runs out of `fuel`. Sizes and payloads (`void*`) are words, and 0 is the null payload.
-/

namespace GenericOs.SkipList

variable {α : Type}

def skipListMaxLevels : Nat := 7

@[simp, grind =] theorem skipListMaxLevels_val : skipListMaxLevels = 7 := rfl

/-- `struct SkipList`. The arrays are read and written below `skipListMaxLevels` only. -/
structure Node (α : Type) where
  weight : Nat
  next : Nat → Option α
  payload : Nat
  prev : Nat → Option α

/-- `(SkipList){ 0 }`. -/
def Node.zero : Node α := { weight := 0, next := fun _ => none, payload := 0, prev := fun _ => none }

structure Heap (α : Type) where
  node : α → Node α
  live : α → Bool

namespace Heap

def load (h : Heap α) (a : α) : Option (Node α) := if h.live a then some (h.node a) else none

variable [DecidableEq α]

/-- The heap with the node at `a` replaced. -/
def set (h : Heap α) (a : α) (n : Node α) : Heap α := { h with node := Function.update h.node a n }

def store (h : Heap α) (a : α) (n : Node α) : Option (Heap α) :=
  if h.live a then some (h.set a n) else none

def setWeight (h : Heap α) (a : α) (w : Nat) : Option (Heap α) := do
  let n ← h.load a
  h.store a { n with weight := w }

def setPayload (h : Heap α) (a : α) (p : Nat) : Option (Heap α) := do
  let n ← h.load a
  h.store a { n with payload := p }

def setNext (h : Heap α) (a : α) (i : Nat) (p : Option α) : Option (Heap α) := do
  let n ← h.load a
  h.store a { n with next := Function.update n.next i p }

def setPrev (h : Heap α) (a : α) (i : Nat) (p : Option α) : Option (Heap α) := do
  let n ← h.load a
  h.store a { n with prev := Function.update n.prev i p }

end Heap

/-! ## The functions of `SkipList.c`, in its order -/

/-- The loop of `SkipListNodeHeight`, with `left` levels to go. -/
def nodeHeightLoop (prev : Nat → Option α) : Nat → Nat → Nat
  | 0, i => i
  | left + 1, i => if (prev i).isSome then nodeHeightLoop prev left (i + 1) else i

/-- The height is not stored: it is the first null `prev`. -/
def skipListNodeHeight (n : Node α) : Nat := nodeHeightLoop n.prev skipListMaxLevels 0

def skipListInitNode [DecidableEq α] (h : Heap α) (node : α) (payload : Nat) : Option (Heap α) := do
  let h ← h.store node Node.zero
  h.setPayload node payload

/-- `while( (next=node->Next[i]) && next->Weight < weight ) node = next;` -/
def advance (h : Heap α) (i weight : Nat) : Nat → α → Option α
  | 0, _ => none
  | fuel + 1, node => do
    match (← h.load node).next i with
    | none => some node
    | some next =>
      if (← h.load next).weight < weight then advance h i weight fuel next else some node

/-- The levels below `i` of the loop of `SkipListFindPrevs`, from the top one down. -/
def findPrevsLoop (fuel : Nat) (h : Heap α) (weight : Nat) : Nat → α → (Nat → α) → Option (Nat → α)
  | 0, _, path => some path
  | i + 1, node, path => do
    let node ← advance h i weight fuel node
    findPrevsLoop fuel h weight i node (Function.update path i node)

def skipListFindPrevs (fuel : Nat) (h : Heap α) (sentinel : α) (path : Nat → α) (weight : Nat) :
    Option (Nat → α) :=
  findPrevsLoop fuel h weight skipListMaxLevels sentinel path

/-- The body of the loop of `SkipListInsertAfter`. -/
def insertLevel [DecidableEq α] (prevs : Nat → α) (node : α) (h : Heap α) (i : Nat) : Option (Heap α) := do
  let next := (← h.load (prevs i)).next i
  let prev := prevs i
  let h ← h.setNext node i next
  let h ← h.setNext prev i (some node)
  let h ← h.setPrev node i (some prev)
  match next with
  | none => some h
  | some next => h.setPrev next i (some node)

def skipListInsertAfter [DecidableEq α] (h : Heap α) (prevs : Nat → α) (node : α) (height : Nat) :
    Option (Heap α) :=
  if height ≥ skipListMaxLevels then (List.range skipListMaxLevels).foldlM (insertLevel prevs node) h
  else do
    let h ← h.setNext node height none
    let h ← h.setPrev node height none
    (List.range height).foldlM (insertLevel prevs node) h

/-- `SkipListFindPrevs` fills the whole array, so what it holds before does not matter. -/
def skipListInsert [DecidableEq α] (fuel : Nat) (h : Heap α) (sentinel node : Option α) (height : Nat) :
    Option (Heap α) :=
  match sentinel, node with
  | some sentinel, some node => do
    let prev ← skipListFindPrevs fuel h sentinel (fun _ => sentinel) (← h.load node).weight
    skipListInsertAfter h prev node height
  | _, _ => some h

/-- The body of the loop of `SkipListRemove`. -/
def removeLevel [DecidableEq α] (node : α) (h : Heap α) (i : Nat) : Option (Heap α) := do
  let n ← h.load node
  let h ← match n.prev i with
    | none => some h
    | some prev => h.setNext prev i (n.next i)
  let n ← h.load node
  match n.next i with
  | none => some h
  | some next => h.setPrev next i (n.prev i)

def skipListRemove [DecidableEq α] (h : Heap α) (node : Option α) : Option (Heap α) :=
  match node with
  | none => some h
  | some node => do
    let height := skipListNodeHeight (← h.load node)
    (List.range height).foldlM (removeLevel node) h

def skipListNext (h : Heap α) (node : Option α) : Option (Option α) :=
  match node with
  | none => some none
  | some node => do return (← h.load node).next 0

def skipListPrev (h : Heap α) (node : Option α) : Option (Option α) :=
  match node with
  | none => some none
  | some node => do return (← h.load node).prev 0

def skipListPayload (h : Heap α) (node : Option α) : Option Nat :=
  match node with
  | none => some 0
  | some node => do return (← h.load node).payload

def setSkipListPayload [DecidableEq α] (h : Heap α) (node : α) (payload : Nat) : Option (Heap α) :=
  h.setPayload node payload

def setSkipListWeight [DecidableEq α] (h : Heap α) (node : α) (weight : Nat) : Option (Heap α) :=
  h.setWeight node weight

/-- The first loop of `SkipListBest`: the levels `left` to 1, from the top one down. -/
def skipLight (fuel : Nat) (h : Heap α) (weight : Nat) : Nat → α → Option α
  | 0, node => some node
  | left + 1, node => do
    let node ← advance h (left + 1) weight fuel node
    skipLight fuel h weight left node

def sizeMax : Nat := 2 ^ 64 - 1

/-- The second loop of `SkipListBest`: best fit on level 0. -/
def bestFit (h : Heap α) (weight : Nat) (exact : Bool) : Nat → α → Nat → Option α
  | 0, _, _ => none
  | fuel + 1, node, weightDiff => do
    match (← h.load node).next 0 with
    | none => some node
    | some next =>
      let nextWeight := (← h.load next).weight
      let diff := if nextWeight > weight then nextWeight - weight else weight - nextWeight
      if !exact && diff > weightDiff then some node
      else if exact && nextWeight ≥ weight then some next
      else bestFit h weight exact fuel next diff

def skipListBest [DecidableEq α] (fuel : Nat) (h : Heap α) (sentinel : Option α) (weight : Nat)
    (exact : Bool) : Option (Option α) :=
  match sentinel with
  | none => some none
  | some sentinel => do
    let node ← skipLight fuel h weight (skipListMaxLevels - 1) sentinel
    let node ← bestFit h weight exact fuel node sizeMax
    let n ← h.load node
    if node = sentinel || (exact && weight > n.weight) then return none
    return some node

end GenericOs.SkipList
