import Mathlib.Algebra.Group.Nat.Defs
import Mathlib.Data.List.Basic
import Mathlib.Logic.Function.Basic

/-!
# The slab allocator of `SLAB.c`

Memory is a store of 64-bit words at byte addresses, and 0 is the null pointer. A load or
a store through null or at an address that is no multiple of 8 makes the call fail
(`none`). The functions run one at a time: `InUse` and `RemoveLock` are left out.
-/

namespace GenericOs.Slab

/-! ## `Architecture.h` -/

def pageSize : Nat := 4096

def cachelineLength : Nat := 64

@[simp, grind =] theorem pageSize_val : pageSize = 4096 := rfl
@[simp, grind =] theorem cachelineLength_val : cachelineLength = 64 := rfl

/-- `~0ULL`. -/
def allOnes : Nat := 2 ^ 64 - 1

/-- A `size_t` or `uintptr_t` result. -/
def word (x : Nat) : Nat := x % 2 ^ 64

def wordSub (x y : Nat) : Nat := word (x + (2 ^ 64 - y))

/-- The index of the lowest set bit, all ones for 0: what `BSF` is used for. The `bsf %0, %1` in `Architecture.c`
has the two operands the other way round. -/
def bsf (x : BitVec 64) : Nat := ((List.range 64).find? fun i => x.getLsbD i).getD allOnes

/-- The index of the highest set bit, all ones for 0: what `BSR` is used for, with its operands the other way round
too. -/
def bsr (x : BitVec 64) : Nat := ((List.range 64).reverse.find? fun i => x.getLsbD i).getD allOnes

/-! ## The data -/

def slabsMinAlloc : Nat := 16

def slabsTotOrders : Nat := 6

/-- The bits of a `bitmap_t`. -/
def bitmapBits : Nat := 64

def slabsBitmapCount : Nat := pageSize / slabsMinAlloc / bitmapBits

@[simp, grind =] theorem slabsMinAlloc_val : slabsMinAlloc = 16 := rfl
@[simp, grind =] theorem slabsTotOrders_val : slabsTotOrders = 6 := rfl
@[simp, grind =] theorem bitmapBits_val : bitmapBits = 64 := rfl
@[simp, grind =] theorem slabsBitmapCount_val : slabsBitmapCount = 4 := rfl

def sizeofSlab : Nat := 64

@[simp, grind =] theorem sizeofSlab_val : sizeofSlab = 64 := rfl

/-- Offsets in `SLAB`. `Next` and `Prev` are in the same place in `ResidualSLAB`. -/
def offsetNext : Nat := 0
def offsetPrev : Nat := 8

/-- `ElementLength`, `ResidualElementCount`, `MainElementCount` and `InUse` share this word. -/
def offsetCounts : Nat := 24
def offsetBitmap : Nat := 32

@[simp, grind =] theorem offsetNext_val : offsetNext = 0 := rfl
@[simp, grind =] theorem offsetPrev_val : offsetPrev = 8 := rfl
@[simp, grind =] theorem offsetCounts_val : offsetCounts = 24 := rfl
@[simp, grind =] theorem offsetBitmap_val : offsetBitmap = 32 := rfl

/-- `at` is indexed by byte address; only multiples of 8 are used. -/
structure Memory where
  «at» : Nat → BitVec 64

namespace Memory

def load (m : Memory) (a : Nat) : Option (BitVec 64) :=
  if a = 0 ∨ a % 8 ≠ 0 then none else some (m.at a)

/-- The memory with the word at `a` replaced. -/
def set (m : Memory) (a : Nat) (w : BitVec 64) : Memory := { m with «at» := Function.update m.at a w }

def store (m : Memory) (a : Nat) (w : BitVec 64) : Option Memory :=
  if a = 0 ∨ a % 8 ≠ 0 then none else some (m.set a w)

def loadPtr (m : Memory) (a : Nat) : Option Nat := (m.load a).map BitVec.toNat

def storePtr (m : Memory) (a p : Nat) : Option Memory := m.store a (BitVec.ofNat 64 p)

end Memory

/-- `&slub->Partial[order]`. -/
def partialHead (slub order : Nat) : Nat := slub + 8 * order

/-- `&slub->RemoveLock[order]`. A `spinlock_t` is one byte. -/
def removeLockAt (slub order : Nat) : Nat := partialHead slub slabsTotOrders + order

/-! ## The functions of `SLAB.c`, in its order -/

def slabObject (object : Nat) : Nat := object - object % pageSize

def slabObjectOffset (object : Nat) : Nat := object % pageSize

def slabResidual (object : Nat) : Bool := object % pageSize ≠ 0

def elementLength (m : Memory) (slab : Nat) : Option Nat :=
  (m.load (slab + offsetCounts)).map fun w => (w.extractLsb' 0 16).toNat

def residualElementCount (m : Memory) (slab : Nat) : Option Nat :=
  (m.load (slab + offsetCounts)).map fun w => (w.extractLsb' 16 16).toNat

def mainElementCount (m : Memory) (slab : Nat) : Option Nat :=
  (m.load (slab + offsetCounts)).map fun w => (w.extractLsb' 32 16).toNat

def slabResidualTotal (m : Memory) (slab : Nat) : Option Nat := do
  let length ← elementLength m slab
  if length < cachelineLength then return 0
  return wordSub (bsf (BitVec.ofNat 64 length)) (bsf (BitVec.ofNat 64 cachelineLength))

def slabMainOffset (m : Memory) (slab : Nat) : Option Nat := do
  return min sizeofSlab (← elementLength m slab)

def slabMainTotal (m : Memory) (slab : Nat) : Option Nat := do
  return (pageSize - (← slabMainOffset m slab)) / (← elementLength m slab)

def slabCanFree (m : Memory) (slab : Nat) : Option Bool := do
  return (← slabResidualTotal m slab) == (← residualElementCount m slab) &&
    (← slabMainTotal m slab) == (← mainElementCount m slab)

def slabSizeToOrder (size : Nat) : Nat :=
  wordSub (word (bsr (BitVec.ofNat 64 (wordSub size 1)) + 1)) (bsr (BitVec.ofNat 64 slabsMinAlloc))

def slabObjectOrder (m : Memory) (obj : Nat) : Option Nat := do
  return slabSizeToOrder (← elementLength m (slabObject obj))

/-- The loop of `SLABFirst`, with `left` words to go: the last `slot` and `base`. -/
def slabFirstLoop (m : Memory) (slab : Nat) : Nat → Nat → Nat → Option (Nat × Nat)
  | 0, base, slot => some (slot, base)
  | left + 1, base, _ => do
    let slot := bsf (← m.load (slab + offsetBitmap + 8 * base))
    if slot ≠ allOnes then return (slot, base)
    slabFirstLoop m slab left (base + 1) slot

def slabFirst (m : Memory) (slab : Nat) : Option Nat := do
  let (slot, base) ← slabFirstLoop m slab slabsBitmapCount 0 0
  if slot = allOnes then return 0
  return slab + (slot + bitmapBits * base) * slabsMinAlloc

def slabSet (m : Memory) (object : Nat) (isFree : Bool) : Option Memory := do
  let slab := slabObject object
  let offset := slabObjectOffset object
  let size := min offset (← elementLength m slab)
  let slots := size / slabsMinAlloc
  let slot := offset / slabsMinAlloc % bitmapBits
  let base := offset / slabsMinAlloc / bitmapBits
  let mask := ((1#64 <<< slots) - 1) <<< slot
  let old ← m.load (slab + offsetBitmap + 8 * base)
  if isFree then m.store (slab + offsetBitmap + 8 * base) (old ||| mask)
  else m.store (slab + offsetBitmap + 8 * base) (old &&& ~~~mask)

/-- The address of the field, not its value. -/
def slabNext (obj : Nat) : Nat := if slabResidual obj then obj + offsetNext else obj + offsetNext

def slabPrev (obj : Nat) : Nat := if slabResidual obj then obj + offsetPrev else obj + offsetPrev

def slabCanRemoveObjectFromList (m : Memory) (obj : Nat) : Option Bool := do
  if slabResidual obj then return true
  let slab := slabObject obj
  return (← slabMainTotal m slab) == (← mainElementCount m slab)

/-- The test compares `obj` with the address of the head, as the source does. -/
def slabListRemove (m : Memory) (slub obj : Nat) : Option Memory := do
  let order ← slabObjectOrder m obj
  let head := partialHead slub order
  let next ← m.loadPtr (slabNext obj)
  let prev ← m.loadPtr (slabPrev obj)
  if obj = head then
    let m ← if next ≠ 0 then m.storePtr (slabPrev next) 0 else some m
    m.storePtr head next
  else
    let m ← if next ≠ 0 then m.storePtr (slabPrev next) prev else some m
    m.storePtr (slabNext prev) next

/-- `removeLock` is computed and not used. -/
def slabTrySafeListRemove (m : Memory) (slub obj : Nat) : Option Memory := do
  let order ← slabObjectOrder m obj
  let _removeLock := word (removeLockAt slub order)
  if ← slabCanRemoveObjectFromList m obj then slabListRemove m slub obj else return m

/-- `next` is the address of the field `Next` of `obj`, as in the source. -/
def slabSafeListAdd (m : Memory) (head obj : Nat) : Option Memory := do
  let m ← m.storePtr (slabPrev obj) 0
  let old ← m.loadPtr head
  let m ← m.storePtr head obj
  let m ← m.storePtr (slabNext obj) old
  let next := slabNext obj
  if next ≠ 0 then m.storePtr (slabPrev next) obj else some m

/-- The loop of `SLABTryReturnPage`. The size doubles, so 64 rounds are more than it can take. -/
def returnResidualLoop (slub slab : Nat) : Nat → Nat → Memory → Option Memory
  | 0, _, _ => none
  | fuel + 1, size, m => do
    if size < (← elementLength m slab) then
      let m ← slabListRemove m slub (slab + size)
      returnResidualLoop slub slab fuel (word (size * 2)) m
    else return m

/-- The call `SLABListRemove( slab )` is read as `SLABListRemove( slub, slab )`. -/
def slabTryReturnPage (m : Memory) (slub randomPointer : Nat) : Option Memory := do
  let slab := slabObject randomPointer
  if ← slabCanFree m slab then
    let m ← slabListRemove m slub slab
    returnResidualLoop slub slab 64 sizeofSlab m
  else return m

/-- The source ends after the head is loaded. -/
def slabAllocate (m : Memory) (slub size : Nat) : Option Nat :=
  let order := slabSizeToOrder size
  m.loadPtr (word (partialHead slub order))

end GenericOs.Slab
