import Mathlib.Order.Basic
import GenericOs.Library.Transition

/-! # Infinite runs, and what happens in the end -/

namespace Transition

variable {σ ℓ : Type*} {S : System σ ℓ} {allowed : σ → ℓ → Prop} {x : ℕ → σ} {e : ℕ → Option ℓ} {k j : ℕ}

/-- The states and the labels of an infinite run. At a moment without a label nothing happens. -/
structure Run (S : System σ ℓ) (allowed : σ → ℓ → Prop) (x : ℕ → σ) (e : ℕ → Option ℓ) : Prop where
  init : S.init (x 0)
  stay : ∀ k, e k = none → x (k + 1) = x k
  step : ∀ k l, e k = some l → allowed (x k) l ∧ S.step (x k) l (x (k + 1))

theorem Run.reachable (h : Run S allowed x e) (k : ℕ) : Reachable S allowed (x k) := by
  induction k with
  | zero => exact .init h.init
  | succ k ih =>
    cases he : e k with
    | none =>
      rw [h.stay k he]
      exact ih
    | some l =>
      obtain ⟨ha, hstep⟩ := h.step k l he
      exact .step ih ha hstep

/-- A preorder that every step respects. -/
theorem Run.mono {R : σ → σ → Prop} (h : Run S allowed x e) (hrefl : ∀ s, R s s)
    (htrans : ∀ s s' s'', R s s' → R s' s'' → R s s'') (hstep : ∀ s l s', allowed s l → S.step s l s' → R s s')
    (hkj : k ≤ j) : R (x k) (x j) := by
  induction hkj with
  | refl => exact hrefl _
  | @step j _ ih =>
    cases he : e j with
    | none =>
      rw [h.stay j he]
      exact ih
    | some l =>
      obtain ⟨ha, hs⟩ := h.step j l he
      exact htrans _ _ _ ih (hstep _ l _ ha hs)

/-- From `P` on it comes to `Q` if no step raises the rank, the steps with the label `l` lower it, and `l` is not
left out for ever. -/
theorem Run.leadsTo {P Q : σ → Prop} {l : ℓ} (rank : σ → ℕ) (h : Run S allowed x e)
    (hstep : ∀ s a s', P s → allowed s a → S.step s a s' →
      Q s' ∨ P s' ∧ rank s' ≤ rank s ∧ (a = l → rank s' < rank s))
    (hfair : ∀ j, ∃ i ≥ j, e i = some l ∨ ¬ P (x i)) (hP : P (x k)) : ∃ j ≥ k, Q (x j) := by
  induction hn : rank (x k) using Nat.strongRecOn generalizing k with
  | ind n ih =>
    by_contra hnever
    have hnext : ∀ i ≥ k, P (x i) → ∀ a, e i = some a →
        P (x (i + 1)) ∧ rank (x (i + 1)) ≤ rank (x i) ∧ (a = l → rank (x (i + 1)) < rank (x i)) := by
      intro i hi hPi a he
      obtain ⟨ha, hs⟩ := h.step i a he
      exact (hstep _ a _ hPi ha hs).resolve_left fun hQ => hnever ⟨i + 1, by omega, hQ⟩
    have hstays : ∀ i ≥ k, P (x i) ∧ rank (x i) ≤ n := by
      intro i hi
      induction hi with
      | refl => exact ⟨hP, Nat.le_of_eq hn⟩
      | @step i hi ih =>
        cases he : e i with
        | none =>
          rw [h.stay i he]
          exact ih
        | some a =>
          obtain ⟨hPi, hle, -⟩ := hnext i hi ih.1 a he
          exact ⟨hPi, Nat.le_trans hle ih.2⟩
    obtain ⟨i, hi, he⟩ := hfair k
    obtain ⟨hPi, hle⟩ := hstays i hi
    obtain ⟨hPi', -, hlt⟩ := hnext i hi hPi l (he.resolve_right (not_not.mpr hPi))
    obtain ⟨j, hj, hQ⟩ := ih _ (Nat.lt_of_lt_of_le (hlt rfl) hle) hPi' rfl
    exact hnever ⟨j, by omega, hQ⟩

/-- The run along a list of labels, after which nothing happens. -/
theorem Run.foldlM {f : σ → ℓ → Option σ} {s s' : σ} {ls : List ℓ} (hinit : S.init s)
    (hf : ∀ s l s', f s l = some s' → allowed s l ∧ S.step s l s') (hrun : ls.foldlM f s = some s') :
    Run S allowed (fun k => ((ls.take k).foldlM f s).getD s) (fun k => ls[k]?) := by
  have hprefix : ∀ k, ∃ y, (ls.take k).foldlM f s = some y := by
    intro k
    rw [← List.take_append_drop k ls, List.foldlM_append] at hrun
    obtain ⟨y, hy, -⟩ := Option.bind_eq_some_iff.mp hrun
    exact ⟨y, hy⟩
  refine ⟨hinit, fun k he => ?_, fun k l he => ?_⟩
  · simp only [List.take_add_one, he, Option.toList_none, List.append_nil]
  · obtain ⟨y, hy⟩ := hprefix k
    obtain ⟨z, hz⟩ := hprefix (k + 1)
    have hstep : f y l = some z := by
      rw [List.take_add_one, he, Option.toList_some, List.foldlM_append, hy] at hz
      simpa using hz
    rw [hy, hz]
    exact hf y l z hstep

end Transition
