import Mathlib.Algebra.Order.Ring.Rat
import GenericOs.SkipList.Code

/-!
# The page allocator of `MemoryRange.c`

A range and its two list nodes are stored inside the free memory that the range
describes. The memory here is typed: what the skip list nodes and the ranges at each
address hold. `owned` says which pages belong to the allocator. Every access goes
through a check: outside `info` and the owned pages it fails (`none`).
-/

namespace GenericOs.MemoryRange

open SkipList (Node Heap)

/-! ## `Architecture.h` -/

def pageSize : Nat := 4096

def pagesPerHugepage : Nat := 512

/-- `HUGEPAGE_SIZE` expands to `(size_t)(512) * (size_t)(4096)`, without parentheses around it. -/
def hugepageSize : Nat := pagesPerHugepage * pageSize

/-- `x % HUGEPAGE_SIZE`, as it expands: the `%` binds to the 512 alone. -/
def modHugepageSize (x : Nat) : Nat := x % pagesPerHugepage * pageSize

@[simp, grind =] theorem pageSize_val : pageSize = 4096 := rfl
@[simp, grind =] theorem pagesPerHugepage_val : pagesPerHugepage = 512 := rfl

/-- A `size_t` or `uintptr_t` result. -/
def word (x : Nat) : Nat := x % 2 ^ 64

def wordSub (x y : Nat) : Nat := word (x + (2 ^ 64 - y))

/-! ## The data -/

/-- A `SkipList*` that is not null: a list head inside `MemoryInfo`, or a node at an address. -/
inductive NodePtr where
  | unaligned2M
  | aligned2MBig
  | aligned2M
  | addr
  | at (address : Nat)
  deriving DecidableEq

/-- `struct MemoryRange`. A `MemoryRange*` is its address, and 0 is null. -/
structure Range where
  sizeNode : Option NodePtr
  addrNode : Option NodePtr
  pages : Nat
  begin : Nat

/-- `random` are the values that the next calls of `Random()` return. -/
structure Memory where
  node : NodePtr → Node NodePtr
  range : Nat → Range
  owned : Nat → Bool
  random : Nat → ℚ

def sizeofMemoryRange : Nat := 32

def sizeofSkipList : Nat := 128

namespace Memory

/-- All bytes of an object that is smaller than a page belong to the allocator. -/
def ownsObject (m : Memory) (address size : Nat) : Bool :=
  m.owned (address / pageSize) && m.owned ((address + size - 1) / pageSize)

def nodeLive (m : Memory) : NodePtr → Bool
  | .at address => m.ownsObject address sizeofSkipList
  | _ => true

def heap (m : Memory) : Heap NodePtr := { node := m.node, live := m.nodeLive }

def withHeap (m : Memory) (h : Heap NodePtr) : Memory := { m with node := h.node }

def loadRange (m : Memory) (r : Nat) : Option Range :=
  if m.ownsObject r sizeofMemoryRange then some (m.range r) else none

def storeRange (m : Memory) (r : Nat) (x : Range) : Option Memory :=
  if m.ownsObject r sizeofMemoryRange then some { m with range := Function.update m.range r x } else none

end Memory

/-- The loops over a list get one round for every address: one that is still running then has met
some node twice, and never ends. -/
def rounds : Nat := 2 ^ 64

/-! ## The functions of `MemoryRange.c`, in its order -/

/-- The loop of `RandomMemoryRangeHeight`, with `left` levels to go below `maxLevel`. -/
def randomHeightLoop (p : ℚ) : Nat → Nat → (Nat → ℚ) → Nat × (Nat → ℚ)
  | 0, level, random => (level, fun i => random (i + 1))
  | left + 1, level, random =>
    if random 0 < p then randomHeightLoop p left (level + 1) (fun i => random (i + 1))
    else (level, fun i => random (i + 1))

def randomMemoryRangeHeight (m : Memory) (p : ℚ) (maxLevel : Nat) : Nat × Memory :=
  let (level, random) := randomHeightLoop p (maxLevel - 1) 1 m.random
  (level, { m with random := random })

def memrangeAddrP : ℚ := 1 / 2

def memrangeSizeP : ℚ := 1 / 4

def memoryRangeToSentinel (m : Memory) (range : Nat) : Option (Option NodePtr) :=
  if range = 0 then some none
  else do
    let r ← m.loadRange range
    if modHugepageSize r.begin ≠ 0 then return some .unaligned2M
    if r.pages ≥ pagesPerHugepage then return some .aligned2MBig
    return some .aligned2M

def setMemoryRangeBegin (m : Memory) (range begin : Nat) : Option Memory := do
  let r ← m.loadRange range
  let m ← m.storeRange range { r with begin := begin }
  let addrNode ← r.addrNode
  let h ← m.heap.setWeight addrNode begin
  let h ← SkipList.skipListRemove h (some addrNode)
  let (height, m) := randomMemoryRangeHeight (m.withHeap h) memrangeAddrP SkipList.skipListMaxLevels
  let h ← SkipList.skipListInsert rounds m.heap (some .addr) (some addrNode) height
  return m.withHeap h

def setMemoryRangePages (m : Memory) (range pages : Nat) : Option Memory := do
  let r ← m.loadRange range
  let m ← m.storeRange range { r with pages := pages }
  let sizeNode ← r.sizeNode
  let h ← m.heap.setWeight sizeNode pages
  let h ← SkipList.skipListRemove h (some sizeNode)
  let m := m.withHeap h
  let sentinel ← memoryRangeToSentinel m range
  let (height, m) := randomMemoryRangeHeight m memrangeSizeP SkipList.skipListMaxLevels
  let h ← SkipList.skipListInsert rounds m.heap sentinel (some sizeNode) height
  return m.withHeap h

def memoryRangeRemove (m : Memory) (range : Nat) : Option Memory := do
  let r ← m.loadRange range
  let h ← SkipList.skipListRemove m.heap r.addrNode
  let h ← SkipList.skipListRemove h r.sizeNode
  return m.withHeap h

def tryMergeMemoryRangesWithPrev (m : Memory) (range : Nat) : Option Memory := do
  if range = 0 then return m
  let r ← m.loadRange range
  let prev ← SkipList.skipListPayload m.heap (← SkipList.skipListPrev m.heap r.addrNode)
  if prev = 0 then return m
  let p ← m.loadRange prev
  if word (p.begin + word (p.pages * pageSize)) ≠ r.begin then return m
  let prevAligned := modHugepageSize p.begin == 0
  let rangeAligned := modHugepageSize r.begin == 0
  if !prevAligned && rangeAligned then return m
  let m ← setMemoryRangePages m prev (word (p.pages + r.pages))
  memoryRangeRemove m range

/-- `*range` is written before `Begin` and `Pages` are set, so they are 0 in between. -/
def newMemoryRange (m : Memory) (begin pages : Nat) : Option Memory := do
  let range := begin
  let sizeList := word (begin + sizeofMemoryRange)
  let addrList := word (sizeList + sizeofSkipList)
  let h ← SkipList.skipListInitNode m.heap (.at addrList) range
  let h ← SkipList.skipListInitNode h (.at sizeList) range
  let m ← (m.withHeap h).storeRange range
    { addrNode := some (.at addrList), sizeNode := some (.at sizeList), pages := 0, begin := 0 }
  let m ← setMemoryRangeBegin m range begin
  let m ← setMemoryRangePages m range pages
  let r ← m.loadRange range
  let next ← SkipList.skipListPayload m.heap (← SkipList.skipListNext m.heap r.addrNode)
  let m ← tryMergeMemoryRangesWithPrev m next
  tryMergeMemoryRangesWithPrev m range

def insertNewMemoryRange (m : Memory) (begin pages : Nat) : Option Memory :=
  if pages = 0 then some m
  else
    let pagesToSplit := (hugepageSize - modHugepageSize begin) / pageSize
    if pagesToSplit % pagesPerHugepage ≠ 0 ∧ pagesToSplit < pages then do
      let m ← newMemoryRange m begin pagesToSplit
      newMemoryRange m (word (begin + pagesToSplit * pageSize)) (pages - pagesToSplit)
    else newMemoryRange m begin pages

/-- The caller's variables behind `size_t* pages` and `void** begin`. -/
structure Out where
  pages : Nat
  begin : Nat

def allocatePagesFromList (m : Memory) (sentinel : NodePtr) (out : Out) (pagesNeed : Nat) (exact : Bool) :
    Option (Bool × Out × Memory) := do
  match ← SkipList.skipListBest rounds m.heap (some sentinel) pagesNeed exact with
  | none => return (false, { out with pages := 0 }, m)
  | some best =>
    let b ← m.heap.load best
    let pages := min b.weight pagesNeed
    let r ← m.loadRange b.payload
    let allocBegin := word (r.begin + word ((b.weight - pages) * pageSize))
    let out : Out := { pages := pages, begin := allocBegin }
    if b.weight = pagesNeed then
      let m ← memoryRangeRemove m b.payload
      return (true, out, m)
    else
      let m ← setMemoryRangePages m b.payload (wordSub r.pages pages)
      return (true, out, m)

def allocatePages (m : Memory) (out : Out) (pagesNeed : Nat) (exact : Bool) :
    Option (Bool × Out × Memory) := do
  if pagesNeed < pagesPerHugepage then
    let (ok, out, m) ← allocatePagesFromList m .unaligned2M out pagesNeed exact
    if ok then return (true, out, m)
    let (ok, out, m) ← allocatePagesFromList m .aligned2M out pagesNeed exact
    if ok then return (true, out, m)
    allocatePagesFromList m .aligned2MBig out pagesNeed exact
  else allocatePagesFromList m .aligned2MBig out pagesNeed exact

end GenericOs.MemoryRange
