import Mathlib.Data.List.Induction
import Mathlib.Data.Set.Insert
import Mathlib.Logic.Function.Basic

/-!
# Linearizable histories

Threads call the operations of one shared object, and the calls may overlap. A history is
linearizable if every operation can take effect at one moment between its call and its
return, so that the effects are a run of the sequential object.
-/

namespace Linearizable

inductive Event (Thread Op Res : Type*) where
  | call (t : Thread) (op : Op)
  | ret (t : Thread) (op : Op) (res : Res)
  deriving DecidableEq

/-- Where a thread is with its operation. In `done` the effect is over, and `res` is not returned yet. -/
inductive Phase (Op Res : Type*) where
  | idle
  | called (op : Op)
  | done (op : Op) (res : Res)

variable {σ Thread Op Res : Type*}

/-- What a thread may do to the history and to the atomic object with the sequential steps `step`. -/
inductive Does (step : σ → Op → Res → σ → Prop) (t : Thread) : List (Event Thread Op Res) → Phase Op Res → σ →
    List (Event Thread Op Res) → Phase Op Res → σ → Prop
  | call {h s op} : Does step t h .idle s (h ++ [.call t op]) (.called op) s
  | effect {h s op res s'} (hs : step s op res s') : Does step t h (.called op) s h (.done op res) s'
  | ret {h s op res} : Does step t h (.done op res) s (h ++ [.ret t op res]) .idle s

variable [DecidableEq Thread]

/-- The histories of the atomic object, and what may be inside it after them. -/
inductive Atomic (step : σ → Op → Res → σ → Prop) (start : σ) :
    List (Event Thread Op Res) → (Thread → Phase Op Res) → σ → Prop
  | init : Atomic step start [] (fun _ => .idle) start
  | does {h φ s t h' p s'} (ha : Atomic step start h φ s) (hd : Does step t h (φ t) s h' p s') :
    Atomic step start h' (Function.update φ t p) s'

variable {step : σ → Op → Res → σ → Prop} {start s s' : σ} {h h' : List (Event Thread Op Res)}
  {φ : Thread → Phase Op Res} {t u : Thread} {p d : Phase Op Res}

def IsLinearizable (step : σ → Op → Res → σ → Prop) (start : σ) (h : List (Event Thread Op Res)) : Prop :=
  ∃ φ s, Atomic step start h φ s

/-- What a thread does, it does wherever another one is. -/
theorem Atomic.does_beside (ha : Atomic step start h (Function.update φ u d) s)
    (hd : Does step t h (φ t) s h' p s') (hne : t ≠ u) :
    Atomic step start h' (Function.update (Function.update φ t p) u d) s' := by
  rw [Function.update_comm hne]
  apply ha.does
  rwa [Function.update_of_ne hne]

/-- What was in the object before the last event of a history. -/
theorem Atomic.before {e : Event Thread Op Res} (ha : Atomic step start (h ++ [e]) φ s) :
    ∃ φ₀ s₀, Atomic step start h φ₀ s₀ ∧ ∀ t op res, e = .ret t op res → φ₀ t = .done op res := by
  generalize he : h ++ [e] = all at ha
  induction ha with
  | init => simp at he
  | @does _ φ₀ s₀ t _ _ _ ha hd ih =>
    generalize hp : φ₀ t = p₀ at hd
    cases hd with
    | effect hs => exact ih he
    | call =>
      obtain ⟨rfl, hlast⟩ := List.append_inj' he rfl
      obtain rfl : e = .call t _ := by simpa using hlast
      exact ⟨φ₀, s₀, ha, by simp⟩
    | ret =>
      obtain ⟨rfl, hlast⟩ := List.append_inj' he rfl
      obtain rfl : e = .ret t _ _ := by simpa using hlast
      refine ⟨φ₀, s₀, ha, ?_⟩
      rintro _ _ _ ⟨⟩
      exact hp

theorem IsLinearizable.prefix (hl : IsLinearizable step start (h ++ h')) : IsLinearizable step start h := by
  induction h' using List.reverseRecOn with
  | nil => simpa using hl
  | append_singleton h' e ih =>
    obtain ⟨φ, s, ha⟩ := hl
    rw [← List.append_assoc] at ha
    obtain ⟨φ₀, s₀, ha₀, -⟩ := ha.before
    exact ih ⟨φ₀, s₀, ha₀⟩

end Linearizable
