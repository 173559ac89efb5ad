import Mathlib.Data.BitVec
import Mathlib.Data.Fin.Tuple.Basic
import Mathlib.Data.Fintype.EquivFin
import Mathlib.Logic.Function.Iterate

/-!
# Shift registers of words

A register has `n + 1` cells. In a step every cell takes the value of the next one, and the
last cell takes a feedback. Nothing is lost exactly when the feedback shows the cell that
drops out. Words are mixed with shifted copies of themselves, and that can be undone bit by bit.
-/

namespace Register

open Function

/-! ## A word and its shifted copy -/

section Mix

variable {n k : ℕ} {f : BitVec n → BitVec n} {rank : ℕ → ℕ}

/-- Bit `i` of `f x` depends on bits of `x` with a smaller rank only. -/
def Below (rank : ℕ → ℕ) (f : BitVec n → BitVec n) : Prop :=
  ∀ x y i, (∀ j, rank j < rank i → x.getLsbD j = y.getLsbD j) → (f x).getLsbD i = (f y).getLsbD i

/-- The bits of `x` can be read off in the order of their ranks. -/
theorem Below.xor_injective (h : Below rank f) : Injective fun x => x ^^^ f x := by
  intro x y hxy
  have hbits : ∀ r i, rank i = r → x.getLsbD i = y.getLsbD i := by
    intro r
    induction r using Nat.strong_induction_on with
    | _ r ih =>
      intro i hi
      have hf : (f x).getLsbD i = (f y).getLsbD i := by
        apply h
        intro j hj
        exact ih (rank j) (hi ▸ hj) j rfl
      have hbit : (x ^^^ f x).getLsbD i = (y ^^^ f y).getLsbD i := congrArg (·.getLsbD i) hxy
      rw [BitVec.getLsbD_xor, BitVec.getLsbD_xor, hf] at hbit
      exact Bool.xor_left_inj.mp hbit
  apply BitVec.eq_of_getLsbD_eq
  intro i _
  exact hbits (rank i) i rfl

theorem below_shiftLeft (hk : 0 < k) : Below id fun x : BitVec n => x <<< k := by
  intro x y i h
  rw [BitVec.getLsbD_shiftLeft, BitVec.getLsbD_shiftLeft]
  by_cases hi : i < k
  · simp [hi]
  · rw [h (i - k) (by simp only [id_eq]; omega)]

/-- The top bits come first. -/
theorem below_ushiftRight (hk : 0 < k) : Below (fun i => n - i) fun x : BitVec n => x >>> k := by
  intro x y i h
  rw [BitVec.getLsbD_ushiftRight, BitVec.getLsbD_ushiftRight]
  by_cases hi : k + i < n
  · have hrank : n - (k + i) < n - i := by omega
    exact h (k + i) hrank
  · rw [BitVec.getLsbD_of_ge x _ (by omega), BitVec.getLsbD_of_ge y _ (by omega)]

theorem bijective_of_injective {g : BitVec n → BitVec n} (hg : Injective g) : Bijective g :=
  have := Finite.of_equiv (Fin (2 ^ n)) (BitVec.equivFin (m := n)).toEquiv.symm
  Finite.injective_iff_bijective.mp hg

theorem xor_shiftLeft_bijective (hk : 0 < k) : Bijective fun x : BitVec n => x ^^^ x <<< k :=
  bijective_of_injective (below_shiftLeft hk).xor_injective

theorem xor_ushiftRight_bijective (hk : 0 < k) : Bijective fun x : BitVec n => x ^^^ x >>> k :=
  bijective_of_injective (below_ushiftRight hk).xor_injective

end Mix

/-! ## The register -/

section Cells

variable {α : Type*} {n : ℕ} {feedback : (Fin (n + 1) → α) → α} {s : Fin (n + 1) → α}

def advance (feedback : (Fin (n + 1) → α) → α) (s : Fin (n + 1) → α) : Fin (n + 1) → α :=
  Fin.snoc (Fin.tail s) (feedback s)

theorem advance_castSucc (i : Fin n) : advance feedback s i.castSucc = s i.succ :=
  Fin.snoc_castSucc (α := fun _ => α) ..

/-- Whatever the other cells hold, the feedback shows the first cell, and takes every value. -/
theorem advance_bijective (h : ∀ t : Fin n → α, Bijective fun a => feedback (Fin.cons a t)) :
    Bijective (advance feedback) := by
  constructor
  · intro s s' hs
    obtain ⟨htail, hfeed⟩ := Fin.snoc_inj.mp hs
    rw [← Fin.cons_self_tail s, ← Fin.cons_self_tail s', ← htail] at hfeed ⊢
    rw [(h (Fin.tail s)).injective hfeed]
  · intro s
    obtain ⟨a, ha⟩ := (h (Fin.init s)).surjective (s (Fin.last n))
    refine ⟨Fin.cons a (Fin.init s), ?_⟩
    unfold advance
    rw [Fin.tail_cons]
    exact (congrArg _ ha).trans (Fin.snoc_init_self s)

/-- What is in cell `j` is in cell `i` below it after as many steps as it lies further down. -/
theorem iterate_cell (k d : ℕ) (i j : Fin (n + 1)) (hij : (i : ℕ) + d = j) :
    (advance feedback)^[d + k] s i = (advance feedback)^[k] s j := by
  induction d generalizing i with
  | zero =>
    rw [show i = j from Fin.ext hij, Nat.zero_add]
  | succ d ih =>
    have hi : (i : ℕ) < n := by omega
    have hcell : i = (⟨i, hi⟩ : Fin n).castSucc := rfl
    rw [Nat.add_right_comm, iterate_succ_apply', hcell, advance_castSucc]
    apply ih
    simp only [Fin.val_succ]
    omega

end Cells

/-- A step that loses nothing gets to a state at rest from no other state. -/
theorem iterate_ne_of_fixed {σ : Type*} {step : σ → σ} {s z : σ} (hstep : Injective step) (hz : step z = z)
    (hs : s ≠ z) (k : ℕ) : step^[k] s ≠ z := by
  intro he
  apply hs
  apply hstep.iterate k
  rw [he, iterate_fixed hz]

end Register
