import Mathlib.Data.Fin.VecNotation
import Mathlib.Tactic.FinCases
import Mathlib.Tactic.Positivity
import GenericOs.Library.Register
import GenericOs.MemoryRange.Run
import GenericOs.Random.Code

/-!
# The sequence of random numbers

`SEED` is a shift register of four words, and `x` is the cell that drops out. The feedback
mixes it with shifted copies of itself, which can be undone, so no state is reached from two.
-/

namespace GenericOs.Random

open Function
open Register (advance)
open MemoryRange (Memory randomHeightLoop randomMemoryRangeHeight)

variable {s : Seed} {p : ℚ} {k maxLevel : ℕ} {m : Memory}

/-- What a call leaves in `SEED`. -/
def update (s : Seed) : Seed := (random s).2

/-- The results of the calls that are made from the state `s` on. -/
def values (s : Seed) (k : Nat) : ℚ := (random (update^[k] s)).1

def zero : Seed := { x := 0, y := 0, z := 0, w := 0 }

/-! ## The register -/

def cells : Seed ≃ (Fin 4 → BitVec 64) where
  toFun s := ![s.x, s.y, s.z, s.w]
  invFun c := { x := c 0, y := c 1, z := c 2, w := c 3 }
  left_inv _ := rfl
  right_inv c := by
    funext i
    fin_cases i <;> rfl

/-- What the word that drops out adds to the new one. -/
def dropped (x : BitVec 64) : BitVec 64 :=
  let t := x ^^^ x <<< 11
  t ^^^ t >>> 8

def feedback (c : Fin 4 → BitVec 64) : BitVec 64 := (c 3 ^^^ c 3 >>> 19) ^^^ dropped (c 0)

theorem cells_update : Semiconj cells update (advance feedback) := by
  intro s
  funext i
  fin_cases i <;> rfl

theorem dropped_bijective : Bijective dropped :=
  (Register.xor_ushiftRight_bijective (by decide)).comp (Register.xor_shiftLeft_bijective (by decide))

theorem xor_bijective (a : BitVec 64) : Bijective fun x => a ^^^ x := by
  apply Involutive.bijective
  intro x
  simp only
  rw [← BitVec.xor_assoc, BitVec.xor_self, BitVec.zero_xor]

theorem feedback_bijective (t : Fin 3 → BitVec 64) : Bijective fun x => feedback (Fin.cons x t) :=
  (xor_bijective (t 2 ^^^ t 2 >>> 19)).comp dropped_bijective

theorem update_bijective : Bijective update := by
  have hreg : Bijective (cells ∘ update) := by
    rw [cells_update.comp_eq]
    exact (Register.advance_bijective feedback_bijective).comp cells.bijective
  exact (Bijective.of_comp_iff' cells.bijective update).mp hreg

/-! ## Runs -/

theorem update_zero : update zero = zero := by
  unfold update random zero
  simp

theorem iterate_ne_zero (hs : s ≠ zero) (k : ℕ) : update^[k] s ≠ zero :=
  Register.iterate_ne_of_fixed update_bijective.injective update_zero hs k

theorem seed_ne_zero : seed ≠ zero := by decide

theorem values_update (s : Seed) : (fun i => values s (i + 1)) = values (update s) := by
  funext i
  unfold values
  rw [iterate_succ_apply]

/-! ## Results -/

theorem double_zero : double 0 = 0 := Rounding.round_zero

theorem double_allOnes : double (~~~0) = 2 ^ 64 := by decide

theorem random_value (s : Seed) : (random s).1 = double (update s).w / 2 ^ 64 := by
  unfold update random
  rw [double_allOnes]
  push_cast
  rfl

theorem values_eq (s : Seed) (k : ℕ) : values s k = double (update^[k + 1] s).w / 2 ^ 64 := by
  unfold values
  rw [random_value, iterate_succ_apply']

theorem values_zero (k : ℕ) : values zero k = 0 := by
  have hw : zero.w = 0 := rfl
  rw [values_eq, iterate_fixed update_zero, hw, double_zero, Nat.cast_zero, zero_div]

theorem values_mem (s : Seed) (k : ℕ) : 0 ≤ values s k ∧ values s k ≤ 1 := by
  have hle : double (update^[k + 1] s).w ≤ 2 ^ 64 := Rounding.round_le (by decide) (BitVec.isLt _)
  have hcast : (double (update^[k + 1] s).w : ℚ) ≤ 2 ^ 64 := by exact_mod_cast hle
  rw [values_eq]
  constructor
  · positivity
  · exact div_le_one_of_le₀ hcast (by positivity)

theorem double_eq_zero {x : BitVec 64} : double x = 0 ↔ x = 0 := by
  constructor
  · intro h
    by_contra hx
    have hne : x.toNat ≠ 0 := fun he => hx (BitVec.eq_of_toNat_eq he)
    have hpos : 0 < double x := Rounding.round_pos (by decide) hne
    omega
  · rintro rfl
    exact double_zero

theorem values_eq_zero : values s k = 0 ↔ (update^[k + 1] s).w = 0 := by
  rw [values_eq, div_eq_zero_iff, Nat.cast_eq_zero, double_eq_zero]
  simp

/-- Four calls fill the register, so not all of them return 0. -/
theorem exists_values_pos (hs : s ≠ zero) (k : ℕ) : ∃ i < 4, 0 < values s (k + i) := by
  by_contra hall
  have hw : ∀ i < 4, (update^[k + i + 1] s).w = 0 := by
    intro i hi
    apply values_eq_zero.mp
    by_contra hne
    exact hall ⟨i, hi, lt_of_le_of_ne (values_mem ..).1 (Ne.symm hne)⟩
  have hcell : ∀ i, cells (update^[k + 4] s) i = 0 := by
    intro i
    have hsteps : k + 4 = 3 - i + (k + i + 1) := by omega
    rw [(cells_update.iterate_right _).eq, hsteps, Register.iterate_cell _ _ i (Fin.last 3) (by simp; omega),
      ← (cells_update.iterate_right _).eq]
    exact hw i i.isLt
  apply iterate_ne_zero hs (k + 4)
  apply cells.injective
  funext i
  rw [hcell]
  fin_cases i <;> rfl

/-! ## Heights -/

theorem randomHeightLoop_values (p : ℚ) (left level : ℕ) (s : Seed) :
    ∃ calls, (randomHeightLoop p left level (values s)).2 = values (update^[calls] s) := by
  induction left generalizing level s with
  | zero => exact ⟨1, values_update s⟩
  | succ left ih =>
    unfold randomHeightLoop
    rw [values_update]
    split_ifs
    · obtain ⟨calls, h⟩ := ih (level + 1) (update s)
      exact ⟨calls + 1, h⟩
    · exact ⟨1, rfl⟩

theorem randomMemoryRangeHeight_ne_zero (p : ℚ) (maxLevel : ℕ) (hm : ∃ s ≠ zero, m.random = values s) :
    ∃ s ≠ zero, (randomMemoryRangeHeight m p maxLevel).2.random = values s := by
  obtain ⟨s, hs, hm⟩ := hm
  obtain ⟨calls, h⟩ := randomHeightLoop_values p (maxLevel - 1) 1 s
  refine ⟨update^[calls] s, iterate_ne_zero hs calls, ?_⟩
  unfold randomMemoryRangeHeight
  rw [hm]
  exact h

theorem randomHeightLoop_zero (hp : 0 < p) (left level : ℕ) :
    randomHeightLoop p left level (values zero) = (level + left, values zero) := by
  induction left generalizing level with
  | zero =>
    unfold randomHeightLoop
    rw [values_update, update_zero, Nat.add_zero]
  | succ left ih =>
    unfold randomHeightLoop
    rw [values_update, update_zero, values_zero, if_pos hp, ih]
    congr 1
    omega

/-- Every draw would end at the same height, and leave the generator as it was. -/
theorem randomMemoryRangeHeight_zero (hm : m.random = values zero) (hp : 0 < p) (hmax : 1 ≤ maxLevel) :
    randomMemoryRangeHeight m p maxLevel = (maxLevel, m) := by
  unfold randomMemoryRangeHeight
  rw [hm, randomHeightLoop_zero hp, ← hm]
  simp only [Prod.mk.injEq, and_true]
  omega

/-- A call loses nothing of `SEED`, so the state that only returns 0 is never reached. -/
theorem random_neverDegenerates :
    Bijective update ∧ (∀ s ≠ zero, ∀ calls, update^[calls] s ≠ zero) ∧ (∀ calls, update^[calls] seed ≠ zero) ∧
      (∀ call, values zero call = 0) ∧
      ∀ (m : Memory) (p : ℚ) (maxLevel : ℕ), m.random = values zero → 0 < p → 1 ≤ maxLevel →
        randomMemoryRangeHeight m p maxLevel = (maxLevel, m) :=
  ⟨update_bijective, fun _ hs => iterate_ne_zero hs, iterate_ne_zero seed_ne_zero, values_zero,
    fun _ _ _ hm hp hmax => randomMemoryRangeHeight_zero hm hp hmax⟩

theorem random_neverDegenerates_seed :
    update^[1000] seed ≠ zero ∧
      randomMemoryRangeHeight { MemoryRange.zeroMemory with random := values zero } MemoryRange.memrangeAddrP
        SkipList.skipListMaxLevels = (7, { MemoryRange.zeroMemory with random := values zero }) := by
  obtain ⟨-, hrun, -, -, hheight⟩ := random_neverDegenerates
  exact ⟨hrun seed seed_ne_zero 1000, hheight _ _ _ rfl (by decide +kernel) (by decide)⟩

end GenericOs.Random
