import Mathlib.Logic.Basic

/-! # Labelled transition systems and their invariants -/

namespace Transition

structure System (σ ℓ : Type*) where
  init : σ → Prop
  step : σ → ℓ → σ → Prop

variable {σ ℓ : Type*} {S : System σ ℓ} {allowed : σ → ℓ → Prop} {P : σ → Prop} {s s' : σ} {l : ℓ}

/-- The states of the runs of `S` whose steps are all allowed in the state they start from. -/
inductive Reachable (S : System σ ℓ) (allowed : σ → ℓ → Prop) : σ → Prop
  | init {s : σ} (h : S.init s) : Reachable S allowed s
  | step {s s' : σ} {l : ℓ} (hr : Reachable S allowed s) (ha : allowed s l) (h : S.step s l s') :
    Reachable S allowed s'

theorem Reachable.invariant (hr : Reachable S allowed s) (hinit : ∀ s, S.init s → P s)
    (hstep : ∀ s l s', P s → allowed s l → S.step s l s' → P s') : P s := by
  induction hr with
  | init h => exact hinit _ h
  | step _ ha h ih => exact hstep _ _ _ ih ha h

theorem Reachable.mono {allowed' : σ → ℓ → Prop} (hr : Reachable S allowed s) (h : ∀ s l, allowed s l → allowed' s l) :
    Reachable S allowed' s := by
  induction hr with
  | init hi => exact .init hi
  | step _ ha hs ih => exact .step ih (h _ _ ha) hs

/-- A run from `s` to `s'` with these labels. -/
inductive Steps (S : System σ ℓ) (allowed : σ → ℓ → Prop) : σ → List ℓ → σ → Prop
  | nil {s : σ} : Steps S allowed s [] s
  | cons {s s' s'' : σ} {l : ℓ} {ls : List ℓ} (ha : allowed s l) (h : S.step s l s')
    (hs : Steps S allowed s' ls s'') : Steps S allowed s (l :: ls) s''

theorem Reachable.steps {ls : List ℓ} (hr : Reachable S allowed s) (hs : Steps S allowed s ls s') :
    Reachable S allowed s' := by
  induction hs with
  | nil => exact hr
  | cons ha h _ ih => exact ih (.step hr ha h)

/-! ## Runs that are computed -/

variable {f : σ → ℓ → Option σ} {ls : List ℓ}

theorem Steps.foldlM (hf : ∀ s l s', f s l = some s' → allowed s l ∧ S.step s l s') (hrun : ls.foldlM f s = some s') :
    Steps S allowed s ls s' := by
  induction ls generalizing s with
  | nil =>
    cases hrun
    exact .nil
  | cons l ls ih =>
    obtain ⟨s₁, h₁, hrun⟩ := Option.bind_eq_some_iff.mp hrun
    obtain ⟨ha, hstep⟩ := hf s l s₁ h₁
    exact .cons ha hstep (ih hrun)

theorem Reachable.foldlM (hr : Reachable S (fun _ _ => True) s) (hf : ∀ s l s', f s l = some s' → S.step s l s')
    (hrun : ls.foldlM f s = some s') : Reachable S (fun _ _ => True) s' :=
  hr.steps (Steps.foldlM (fun s l s' h => ⟨trivial, hf s l s' h⟩) hrun)

/-- The step `f`, if it is allowed. -/
def guarded (allowed : σ → ℓ → Prop) [∀ s l, Decidable (allowed s l)] (f : σ → ℓ → Option σ) (s : σ) (l : ℓ) :
    Option σ :=
  if allowed s l then f s l else none

variable [∀ s l, Decidable (allowed s l)]

theorem guarded_some {l : ℓ} (h : guarded allowed f s l = some s') : allowed s l ∧ f s l = some s' := by
  unfold guarded at h
  split at h
  · next ha => exact ⟨ha, h⟩
  · cases h

theorem Steps.of_guarded (hf : ∀ s l s', f s l = some s' → S.step s l s')
    (hrun : ls.foldlM (guarded allowed f) s = some s') : Steps S allowed s ls s' :=
  Steps.foldlM (fun s l s' h => (guarded_some h).imp_right (hf s l s')) hrun

theorem Reachable.of_guarded (hr : Reachable S allowed s) (hf : ∀ s l s', f s l = some s' → S.step s l s')
    (hrun : ls.foldlM (guarded allowed f) s = some s') : Reachable S allowed s' :=
  hr.steps (Steps.of_guarded hf hrun)

/-- The guards change nothing but that a run may end. -/
theorem foldlM_of_guarded (hrun : ls.foldlM (guarded allowed f) s = some s') : ls.foldlM f s = some s' := by
  induction ls generalizing s with
  | nil => exact hrun
  | cons l ls ih =>
    obtain ⟨s₁, h₁, hrun⟩ := Option.bind_eq_some_iff.mp hrun
    rw [List.foldlM_cons, (guarded_some h₁).2]
    exact ih hrun

end Transition
