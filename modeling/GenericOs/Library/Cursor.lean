import Mathlib.Dynamics.PeriodicPts.Defs

/-!
# Iterators that are a cursor

`next` takes a cursor to the following one. The cursor `null` is before the first element
and behind the last one, so an iteration that has ended may start again.
-/

namespace Cursor

variable {α : Type*} {next : α → α} {null c x : α} {xs : List α} {n : Nat}

/-- Calls from `null` on go through `xs` and then `null`, round after round. -/
def Enumerates (next : α → α) (null : α) (xs : List α) : Prop :=
  ∀ k, (xs ++ [null])[k % (xs.length + 1)]? = some (next^[k + 1] null)

/-- Calls from `c` on go through `xs` and then `null`. -/
def Follows (next : α → α) (null : α) : α → List α → Prop
  | c, [] => next c = null
  | c, x :: xs => next c = x ∧ Follows next null x xs

theorem Follows.iterate (h : Follows next null c xs) {k : Nat} (hk : k ≤ xs.length) :
    (xs ++ [null])[k]? = some (next^[k + 1] c) := by
  induction xs generalizing c k with
  | nil =>
    obtain rfl : k = 0 := Nat.le_zero.mp hk
    exact congrArg some (show next c = null from h).symm
  | cons x xs ih =>
    obtain ⟨hx, hxs⟩ := h
    cases k with
    | zero => exact congrArg some hx.symm
    | succ k =>
      rw [Function.iterate_succ_apply, hx]
      exact ih hxs (Nat.le_of_succ_le_succ hk)

theorem enumerates_of_follows (h : Follows next null null xs) : Enumerates next null xs := by
  have hperiod : Function.IsPeriodicPt next (xs.length + 1) null := by
    have hlast := h.iterate (Nat.le_refl _)
    rw [List.getElem?_concat_length] at hlast
    exact (Option.some.inj hlast).symm
  intro k
  have hround : next^[k % (xs.length + 1) + 1] null = next^[k + 1] null := by
    rw [← hperiod.iterate_mod_apply (k + 1), ← hperiod.iterate_mod_apply (k % (xs.length + 1) + 1), Nat.mod_add_mod]
  rw [h.iterate (Nat.le_of_lt_succ (Nat.mod_lt k (Nat.succ_pos _))), hround]

theorem Enumerates.mem (h : Enumerates next null xs) (k : Nat) : next^[k] null ∈ xs ∨ next^[k] null = null := by
  cases k with
  | zero => exact Or.inr rfl
  | succ k =>
    have hmem := List.mem_of_getElem? (h k)
    rwa [List.mem_append, List.mem_singleton] at hmem

/-! ## Iterations that end -/

/-- An iteration makes at most `n` calls. -/
def EndsWithin (next : α → α) (null : α) (n : Nat) : Prop := ∃ k, 0 < k ∧ k ≤ n ∧ next^[k] null = null

/-- The cursors of the first round, without `null`. -/
inductive Visits (next : α → α) (null : α) : α → Prop
  | first : next null ≠ null → Visits next null (next null)
  | step {x : α} : Visits next null x → next x ≠ null → Visits next null (next x)

theorem EndsWithin.mono {k : Nat} (h : EndsWithin next null k) (hk : k ≤ n) : EndsWithin next null n := by
  obtain ⟨j, hpos, hj, heq⟩ := h
  exact ⟨j, hpos, hj.trans hk, heq⟩

theorem Visits.exists_iterate (h : Visits next null x) :
    ∃ j, next^[j + 1] null = x ∧ ∀ i ≤ j, next^[i + 1] null ≠ null := by
  induction h with
  | first h => exact ⟨0, rfl, fun i hi => by rw [Nat.le_zero.mp hi]; exact h⟩
  | @step x _ hx ih =>
    obtain ⟨j, hj, hbefore⟩ := ih
    have hnext : next^[j + 1 + 1] null = next x := by rw [Function.iterate_succ_apply', hj]
    refine ⟨j + 1, hnext, fun i hi => ?_⟩
    rcases Nat.le_succ_iff.mp hi with hle | rfl
    · exact hbefore i hle
    · rw [hnext]
      exact hx

theorem visits_iterate {j : Nat} (h : ∀ i ≤ j, next^[i + 1] null ≠ null) : Visits next null (next^[j + 1] null) := by
  induction j with
  | zero => exact Visits.first (h 0 (Nat.le_refl 0))
  | succ j ih =>
    have hlast := h (j + 1) (Nat.le_refl _)
    rw [Function.iterate_succ_apply'] at hlast ⊢
    exact Visits.step (ih fun i hi => h i (Nat.le_succ_of_le hi)) hlast

/-- An iteration makes more than `n` calls if `n` steps from one of its cursors on keep `P`. -/
theorem not_endsWithin_of_steps {P : Nat → α → Prop} (h : Visits next null x) (hstart : P 0 x)
    (hstep : ∀ j < n, ∀ y, P j y → P (j + 1) (next y)) (hP : ∀ j y, P j y → y ≠ null) : ¬ EndsWithin next null n := by
  rintro ⟨k, hpos, hkn, hk⟩
  obtain ⟨i, hi, hbefore⟩ := h.exists_iterate
  have hsteps : ∀ j ≤ n, P j (next^[j] x) := by
    intro j hj
    induction j with
    | zero => exact hstart
    | succ j ih =>
      rw [Function.iterate_succ_apply']
      exact hstep j hj _ (ih (Nat.le_of_succ_le hj))
  obtain ⟨k, rfl⟩ := Nat.exists_eq_succ_of_ne_zero (Nat.pos_iff_ne_zero.mp hpos)
  rcases Nat.lt_or_ge i k with hgt | hle
  · have hlater : next^[k - i] x = null := by
      rw [← hi, ← Function.iterate_add_apply, show k - i + (i + 1) = k + 1 by omega]
      exact hk
    exact hP _ _ (hsteps (k - i) (by omega)) hlater
  · exact hbefore k hle hk

/-- A cursor that stays where it is keeps the iteration from ending. -/
theorem not_endsWithin_of_fixed (h : Visits next null x) (hfix : next x = x) (n : Nat) : ¬ EndsWithin next null n := by
  obtain ⟨i, hi, hbefore⟩ := h.exists_iterate
  have hx : x ≠ null := by
    rw [← hi]
    exact hbefore i (Nat.le_refl i)
  apply not_endsWithin_of_steps (P := fun _ y => y = x) h rfl
  · intro _ _ y hy
    rw [hy, hfix]
  · intro _ y hy
    rw [hy]
    exact hx

/-- With a bounded measure that grows from cursor to cursor the iteration ends. -/
theorem endsWithin_of_measure {f : α → Nat} {b : Nat} (hbound : ∀ x, Visits next null x → f x < b)
    (hgrow : ∀ x, Visits next null x → next x ≠ null → f x < f (next x)) : EndsWithin next null (b + 1) := by
  by_contra hends
  have hgo : ∀ i ≤ b, next^[i + 1] null ≠ null := fun i hi heq =>
    hends ⟨i + 1, Nat.succ_pos i, Nat.succ_le_succ hi, heq⟩
  -- The `i`th cursor has at least the measure `i`.
  have hmeasure : ∀ i ≤ b, i ≤ f (next^[i + 1] null) := by
    intro i hi
    induction i with
    | zero => exact Nat.zero_le _
    | succ i ih =>
      have hvisits := visits_iterate fun j hj => hgo j (hj.trans (Nat.le_of_succ_le hi))
      have hlast := hgo (i + 1) hi
      rw [Function.iterate_succ_apply'] at hlast ⊢
      exact Nat.lt_of_le_of_lt (ih (Nat.le_of_succ_le hi)) (hgrow _ hvisits hlast)
  exact Nat.lt_irrefl b (Nat.lt_of_le_of_lt (hmeasure b (Nat.le_refl b)) (hbound _ (visits_iterate hgo)))

end Cursor
