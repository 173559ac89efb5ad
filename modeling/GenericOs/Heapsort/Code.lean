import GenericOs.Library.Bytes

/-!
# `Heapsort.c`

The array is bytes of a memory. `cmp` and `swap` are parameters and may fail (`none`), so
that a call with anything that is not an element need not mean anything.
-/

namespace GenericOs.Heapsort

open Bytes

/-- The function pointers. `cmp` gets `additionalParameter` as its last argument. -/
structure Callbacks where
  cmp : Memory 64 → BitVec 64 → BitVec 64 → BitVec 64 → Option Bool
  swap : Memory 64 → BitVec 64 → BitVec 64 → Option (Memory 64)

/-- A `size_t` result. -/
def word (x : Nat) : Nat := x % 2 ^ 64

def element (begin : BitVec 64) (id elementSize : Nat) : BitVec 64 := begin + BitVec.ofNat 64 (id * elementSize)

/-- `if( child < count && cmp(Element(trg, largest), Element(trg, child)) ) largest = child`, the new `largest`. -/
def largerOf (cb : Callbacks) (m : Memory 64) (trg : BitVec 64) (elementSize count : Nat) (p : BitVec 64)
    (largest child : Nat) : Option Nat :=
  if child < count then do
    let before ← cb.cmp m (element trg largest elementSize) (element trg child elementSize) p
    return if before then child else largest
  else some largest

/-- At most `fuel` calls deep. -/
def heapify (cb : Callbacks) (trg : BitVec 64) (elementSize : Nat) (p : BitVec 64) :
    Nat → Nat → Nat → Memory 64 → Option (Memory 64)
  | 0, _, _, _ => none
  | fuel + 1, id, count, m => do
    let left := word (id * 2)
    let right := word (word (id * 2) + 1)
    let largest ← largerOf cb m trg elementSize count p id left
    let largest ← largerOf cb m trg elementSize count p largest right
    if largest ≠ id then
      let m ← cb.swap m (element trg id elementSize) (element trg largest elementSize)
      heapify cb trg elementSize p fuel largest count m
    else return m

/-- The second loop of `Heapsort`, with `rounds` to go: `i` is `rounds - 1`. -/
def extractLoop (cb : Callbacks) (trg : BitVec 64) (elementSize : Nat) (p : BitVec 64) (fuel : Nat) :
    Nat → Memory 64 → Option (Memory 64)
  | 0, m => some m
  | i + 1, m => do
    let m ← cb.swap m trg (element trg i elementSize)
    let m ← heapify cb trg elementSize p fuel 0 i m
    extractLoop cb trg elementSize p fuel i m

/-- The `long long int` starts at `count - 1`: the second loop runs only if that is not negative. -/
def extractRounds (count : Nat) : Nat :=
  if word (count + (2 ^ 64 - 1)) < 2 ^ 63 then word (count + (2 ^ 64 - 1)) + 1 else 0

/-- A division by zero fails. Every `Heapify` may go `fuel` calls deep. -/
def heapsort (cb : Callbacks) (fuel : Nat) (trg elementSize length p : BitVec 64) (m : Memory 64) :
    Option (Memory 64) :=
  if elementSize = 0 then none
  else do
    let count := (length / elementSize).toNat
    let m ← (List.range (count / 2)).foldlM (fun m i => heapify cb trg elementSize.toNat p fuel i count m) m
    extractLoop cb trg elementSize.toNat p fuel (extractRounds count) m

end GenericOs.Heapsort
