import Mathlib.Data.Nat.Log
import Mathlib.Order.Bounds.Defs
import GenericOs.Slab.Layout

/-!
# Size classes

`BSR(size - 1) + 1` is the rounded-up logarithm of the size, also for a size of 1, where
all ones wrap to 0. Sizes of 8 bytes and less have a logarithm below that of the smallest
block, and the difference wraps.
-/

namespace GenericOs.Slab

variable {m : Memory} {slub obj size x n : ℕ}

/-! ## The bit scan -/

theorem find?_highest (hx : x ≠ 0) (hlt : x < 2 ^ n) :
    ((List.range n).reverse.find? fun i => x.testBit i) = some (Nat.log 2 x) := by
  induction n with
  | zero => omega
  | succ n ih =>
    rw [List.range_succ, List.reverse_append, List.reverse_singleton, List.singleton_append, List.find?_cons]
    rcases Nat.lt_or_ge x (2 ^ n) with hlow | hhigh
    · rw [Nat.testBit_lt_two_pow hlow]
      exact ih hlow
    · have hlog : Nat.log 2 x = n := Nat.log_eq_of_pow_le_of_lt_pow hhigh hlt
      rw [Nat.testBit_of_two_pow_le_and_two_pow_add_one_gt hhigh hlt, hlog]

theorem bsr_ofNat (hx : x ≠ 0) (hlt : x < 2 ^ 64) : bsr (BitVec.ofNat 64 x) = Nat.log 2 x := by
  unfold bsr
  simp only [BitVec.getLsbD, BitVec.toNat_ofNat, Nat.mod_eq_of_lt hlt]
  rw [find?_highest hx hlt, Option.getD_some]

theorem bsr_zero : bsr 0#64 = allOnes := by decide

theorem clog_eq (h : 2 ≤ size) : Nat.clog 2 size = Nat.log 2 (size - 1) + 1 := by
  apply eq_of_forall_ge_iff
  intro k
  rw [Nat.clog_le_iff_le_pow (by decide), Nat.succ_le_iff, Nat.log_lt_iff_lt_pow (by decide) (by omega)]
  omega

theorem bsr_pred (h1 : 1 ≤ size) (hlt : size < 2 ^ 64) :
    word (bsr (BitVec.ofNat 64 (wordSub size 1)) + 1) = Nat.clog 2 size := by
  have hsub : wordSub size 1 = size - 1 := by
    unfold wordSub word
    omega
  rw [hsub]
  rcases Nat.eq_or_lt_of_le h1 with rfl | h2
  · rw [Nat.sub_self, bsr_zero, Nat.clog_one_right]
    rfl
  · have hlog : Nat.log 2 (size - 1) < 64 := Nat.log_lt_of_lt_pow (by omega) (by omega)
    rw [bsr_ofNat (by omega) (by omega), clog_eq h2]
    unfold word
    omega

/-! ## The order -/

theorem bsr_slabsMinAlloc : bsr (BitVec.ofNat 64 slabsMinAlloc) = 4 := by
  rw [bsr_ofNat (by decide) (by decide)]
  decide

theorem slabSizeToOrder_eq (h1 : 1 ≤ size) (hlt : size < 2 ^ 64) :
    slabSizeToOrder size = wordSub (Nat.clog 2 size) 4 := by
  unfold slabSizeToOrder
  rw [bsr_pred h1 hlt, bsr_slabsMinAlloc]

theorem clog_lt_iff : Nat.clog 2 size < 4 ↔ size < 9 := by
  rw [Nat.lt_succ_iff, Nat.clog_le_iff_le_pow (by decide)]
  omega

theorem slabSizeToOrder_of_le (h9 : 9 ≤ size) (hlt : size < 2 ^ 64) :
    slabSizeToOrder size = Nat.clog 2 size - 4 := by
  have hlow : ¬ Nat.clog 2 size < 4 := by
    rw [clog_lt_iff]
    omega
  have hhigh : Nat.clog 2 size ≤ 64 := Nat.clog_le_of_le_pow (by omega)
  rw [slabSizeToOrder_eq (by omega) hlt]
  unfold wordSub word
  omega

/-- Below 9 bytes the difference wraps. -/
theorem slabSizeToOrder_of_lt (h1 : 1 ≤ size) (h9 : size < 9) :
    slabSizeToOrder size = 2 ^ 64 - 4 + Nat.clog 2 size := by
  have hlow : Nat.clog 2 size < 4 := clog_lt_iff.mpr h9
  rw [slabSizeToOrder_eq h1 (by omega)]
  unfold wordSub word
  omega

theorem isLeast_clog (size : ℕ) : IsLeast {k | size ≤ slabsMinAlloc * 2 ^ k} (Nat.clog 2 size - 4) := by
  have hmem : ∀ k, size ≤ slabsMinAlloc * 2 ^ k ↔ Nat.clog 2 size ≤ 4 + k := by
    intro k
    rw [Nat.clog_le_iff_le_pow (by decide), Nat.pow_add]
    rfl
  constructor
  · exact (hmem _).mpr (by omega)
  · intro k hk
    have := (hmem k).mp hk
    omega

theorem isLeast_iff (h1 : 1 ≤ size) (hlt : size < 2 ^ 64) :
    IsLeast {k | size ≤ slabsMinAlloc * 2 ^ k} (slabSizeToOrder size) ↔ 9 ≤ size := by
  constructor
  · intro hleast
    by_contra h9
    have heq := hleast.unique (isLeast_clog size)
    have hlow : Nat.clog 2 size < 4 := clog_lt_iff.mpr (by omega)
    rw [slabSizeToOrder_of_lt h1 (by omega)] at heq
    omega
  · intro h9
    rw [slabSizeToOrder_of_le h9 hlt]
    exact isLeast_clog size

/-! ## The index -/

theorem slabSizeToOrder_lt (h9 : 9 ≤ size) (h512 : size ≤ 512) : slabSizeToOrder size < slabsTotOrders := by
  have hclog : Nat.clog 2 size ≤ 9 := Nat.clog_le_of_le_pow (by omega)
  rw [slabSizeToOrder_of_le h9 (by omega), slabsTotOrders_val]
  omega

theorem slabObjectOrder_eq (hm : elementLength m (slabObject obj) = some size) :
    slabObjectOrder m obj = some (slabSizeToOrder size) := by
  unfold slabObjectOrder
  rw [hm]
  rfl

/-- The indices into `Partial` and `RemoveLock`: that of `SLABAllocate`, and that of `SLABListRemove` and
`SLABTrySafeListRemove` for the objects of a slab with blocks of this size. -/
structure IndexInBounds (size : Nat) : Prop where
  allocate : slabSizeToOrder size < slabsTotOrders
  remove : ∀ m obj, elementLength m (slabObject obj) = some size →
    ∃ order < slabsTotOrders, slabObjectOrder m obj = some order

theorem indexInBounds (h9 : 9 ≤ size) (h512 : size ≤ 512) : IndexInBounds size :=
  ⟨slabSizeToOrder_lt h9 h512, fun _ _ hm => ⟨_, slabSizeToOrder_lt h9 h512, slabObjectOrder_eq hm⟩⟩

/-- `SLABAllocate` takes the list of the smallest blocks that are large enough. -/
theorem slabAllocate_spec (h9 : 9 ≤ size) (h512 : size ≤ 512) (hslub : slub + 8 * slabsTotOrders ≤ 2 ^ 64) :
    ∃ order < slabsTotOrders, slabAllocate m slub size = m.loadPtr (partialHead slub order) ∧
      IsLeast {k | size ≤ slabsMinAlloc * 2 ^ k} order := by
  have hlt := slabSizeToOrder_lt h9 h512
  refine ⟨slabSizeToOrder size, hlt, ?_, (isLeast_iff (by omega) (by omega)).mpr h9⟩
  have hword : word (partialHead slub (slabSizeToOrder size)) = partialHead slub (slabSizeToOrder size) := by
    unfold word partialHead
    omega
  unfold slabAllocate
  simp only
  rw [hword]

/-- Every size above half of the smallest block gets the least class that holds it, and no smaller size does. -/
theorem slabSizeToOrder_iff (h1 : 1 ≤ size) (h63 : size ≤ 2 ^ 63) :
    (IsLeast {k | size ≤ slabsMinAlloc * 2 ^ k} (slabSizeToOrder size) ∧ (size ≤ 512 → IndexInBounds size)) ↔
      9 ≤ size := by
  have hlt : size < 2 ^ 64 := by omega
  constructor
  · rintro ⟨hleast, -⟩
    exact (isLeast_iff h1 hlt).mp hleast
  · intro h9
    exact ⟨(isLeast_iff h1 hlt).mpr h9, indexInBounds h9⟩

theorem slabSizeToOrder_iff_max :
    IsLeast {k | 512 ≤ slabsMinAlloc * 2 ^ k} (slabSizeToOrder 512) ∧ IndexInBounds 512 := by
  obtain ⟨hleast, hindex⟩ := (slabSizeToOrder_iff (show 1 ≤ 512 by decide) (by decide)).mpr (by decide)
  exact ⟨hleast, hindex le_rfl⟩

/-- A request for 8 bytes takes the word below `Partial` for the head of a list. -/
theorem slabSizeToOrder_fails :
    slabSizeToOrder 8 = 2 ^ 64 - 1 ∧ ¬ IsLeast {k | 8 ≤ slabsMinAlloc * 2 ^ k} (slabSizeToOrder 8) ∧
      ¬ slabSizeToOrder 8 < slabsTotOrders ∧ ∀ m, slabAllocate m 4096 8 = m.loadPtr 4088 := by
  have horder : slabSizeToOrder 8 = 2 ^ 64 - 1 := by
    rw [slabSizeToOrder_of_lt (by decide) (by decide)]
    decide
  refine ⟨horder, ?_, ?_, ?_⟩
  · rw [isLeast_iff (by decide) (by decide)]
    decide
  · rw [horder]
    decide
  · intro m
    unfold slabAllocate
    simp only
    rw [horder]
    rfl

end GenericOs.Slab
