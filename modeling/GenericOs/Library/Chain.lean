import Mathlib.Data.List.Basic
import Mathlib.Data.List.Nodup
import Mathlib.Logic.Relation

/-!
# Null-terminated doubly linked chains

`next` and `prev` are the two pointer fields, read as functions of the node. A chain
starts behind a head node that is not part of the chain itself.
-/

namespace Pointer

variable {α : Type*} {next prev next' prev' : α → Option α} {s n : α} {xs ys : List α}

/-- From `s` the `next` pointers visit exactly the list, then null, and every `prev` points back. -/
def Chain (next prev : α → Option α) : α → List α → Prop
  | s, [] => next s = none
  | s, x :: xs => next s = some x ∧ prev x = some s ∧ Chain next prev x xs

@[simp] theorem chain_nil : Chain next prev s [] ↔ next s = none := Iff.rfl

@[simp] theorem chain_cons {x : α} :
    Chain next prev s (x :: xs) ↔ next s = some x ∧ prev x = some s ∧ Chain next prev x xs := Iff.rfl

theorem Chain.next_head (h : Chain next prev s xs) : next s = xs.head? := by
  cases xs with
  | nil => exact h
  | cons x xs => exact h.1

/-- From `s` the `next` pointers visit exactly the list, then null; nothing is said of `prev`. -/
def Path (next : α → Option α) : α → List α → Prop
  | s, [] => next s = none
  | s, x :: xs => next s = some x ∧ Path next x xs

theorem Chain.path (h : Chain next prev s xs) : Path next s xs := by
  induction xs generalizing s with
  | nil => exact h
  | cons x xs ih => exact ⟨h.1, ih h.2.2⟩

theorem Path.next_head (h : Path next s xs) : next s = xs.head? := by
  cases xs with
  | nil => exact h
  | cons x xs => exact h.1

theorem getLastD_mem (xs : List α) (s : α) : xs.getLastD s ∈ s :: xs := by
  induction xs generalizing s with
  | nil => simp
  | cons x xs ih => rw [List.getLastD_cons]; exact List.mem_cons_of_mem _ (ih x)

theorem getLastD_mem_of_subset (h : xs ⊆ ys) : xs.getLastD s ∈ s :: ys :=
  List.cons_subset_cons s h (getLastD_mem xs s)

/-! ## Frames -/

/-- A chain reads `next` of the head and the members, and `prev` of the members. -/
theorem Chain.congr (h : Chain next prev s xs) (hn : ∀ a ∈ s :: xs, next' a = next a)
    (hp : ∀ a ∈ xs, prev' a = prev a) : Chain next' prev' s xs := by
  induction xs generalizing s with
  | nil => exact (hn s (by simp)).trans h
  | cons x xs ih =>
    obtain ⟨h1, h2, h3⟩ := h
    refine ⟨(hn s (by simp)).trans h1, (hp x (by simp)).trans h2, ih h3 ?_ ?_⟩
    · intro a ha; exact hn a (List.mem_cons_of_mem _ ha)
    · intro a ha; exact hp a (List.mem_cons_of_mem _ ha)

/-! ## Walking along a chain -/

theorem Path.suffix {q : α} (h : Path next s (xs ++ ys)) (hq : q ∈ s :: xs) :
    ∃ zs, Path next q (zs ++ ys) ∧ zs.getLastD q = xs.getLastD s ∧ zs <:+ xs := by
  induction xs generalizing s with
  | nil =>
    obtain rfl : q = s := by simpa using hq
    exact ⟨[], h, rfl, List.suffix_rfl⟩
  | cons x xs ih =>
    rcases List.mem_cons.mp hq with rfl | hq
    · exact ⟨x :: xs, h, rfl, List.suffix_rfl⟩
    · obtain ⟨zs, hc, hl, hs⟩ := ih h.2 hq
      exact ⟨zs, hc, by rw [hl, List.getLastD_cons], hs.trans (List.suffix_cons _ _)⟩

theorem Chain.at_last (h : Chain next prev s (xs ++ ys)) : Chain next prev (xs.getLastD s) ys := by
  induction xs generalizing s with
  | nil => exact h
  | cons x xs ih => rw [List.getLastD_cons]; exact ih h.2.2

theorem Path.at_last (h : Path next s (xs ++ ys)) : Path next (xs.getLastD s) ys := by
  induction xs generalizing s with
  | nil => exact h
  | cons x xs ih => rw [List.getLastD_cons]; exact ih h.2

theorem Chain.prev_mem (h : Chain next prev s (xs ++ n :: ys)) : prev n = some (xs.getLastD s) := by
  induction xs generalizing s with
  | nil => exact h.2.1
  | cons x xs ih => rw [List.getLastD_cons]; exact ih h.2.2

theorem Path.unique (h : Path next s xs) (h' : Path next s ys) : xs = ys := by
  induction xs generalizing s ys with
  | nil => cases ys with
    | nil => rfl
    | cons y ys => exact absurd (h.symm.trans h'.1) (by simp)
  | cons x xs ih => cases ys with
    | nil => exact absurd (h.1.symm.trans h') (by simp)
    | cons y ys =>
      obtain rfl : x = y := Option.some.inj (h.1.symm.trans h'.1)
      rw [ih h.2 h'.2]

theorem Chain.unique (h : Chain next prev s xs) (h' : Chain next prev s ys) : xs = ys :=
  h.path.unique h'.path

/-- The list says every pointer. -/
theorem Chain.same (h : Chain next prev s xs) (h' : Chain next' prev' s xs) :
    (∀ a ∈ s :: xs, next' a = next a) ∧ ∀ a ∈ xs, prev' a = prev a := by
  induction xs generalizing s with
  | nil =>
    simp only [List.mem_singleton, forall_eq]
    exact ⟨h'.trans h.symm, by simp⟩
  | cons x xs ih =>
    obtain ⟨hnext, hprev⟩ := ih h.2.2 h'.2.2
    simp only [List.mem_cons, forall_eq_or_imp] at hnext ⊢
    exact ⟨⟨h'.1.trans h.1.symm, hnext⟩, h'.2.1.trans h.2.1.symm, hprev⟩

/-- Following `next` one or more times from the head reaches the members and nothing else. -/
theorem Chain.reaches_iff (h : Chain next prev s xs) :
    Relation.TransGen (fun a b => next a = some b) s n ↔ n ∈ xs := by
  induction xs generalizing s with
  | nil =>
    rw [chain_nil] at h
    simp only [List.not_mem_nil, iff_false]
    intro hr
    obtain ⟨b, hb, -⟩ := Relation.TransGen.head'_iff.mp hr
    rw [h] at hb
    cases hb
  | cons x xs ih =>
    obtain ⟨h1, -, h3⟩ := h
    rw [List.mem_cons, ← ih h3, Relation.TransGen.head'_iff]
    constructor
    · rintro ⟨b, hb, hr⟩
      obtain rfl : x = b := Option.some.inj (h1.symm.trans hb)
      rcases Relation.reflTransGen_iff_eq_or_transGen.mp hr with h | h
      · exact Or.inl h
      · exact Or.inr h
    · rintro (rfl | hr)
      · exact ⟨n, h1, .refl⟩
      · exact ⟨x, h1, hr.to_reflTransGen⟩

/-- Links that lower a rank never lead back, as far as `P` holds on the way. -/
theorem no_return {r : α → α → Prop} {t y : α} (P : α → Prop) (rank : α → ℕ)
    (hstep : ∀ a b, P a → r a b → P b ∧ rank b < rank a) (ht : P t) (hy : Relation.ReflTransGen r t y) :
    ¬ Relation.TransGen r y y := by
  have hP : P y := by
    induction hy with
    | refl => exact ht
    | tail _ hab ih => exact (hstep _ _ ih hab).1
  have hlt : ∀ z, Relation.TransGen r y z → P z ∧ rank z < rank y := by
    intro z hz
    induction hz with
    | single h => exact hstep _ _ hP h
    | tail _ hab ih =>
      obtain ⟨h1, h2⟩ := hstep _ _ ih.1 hab
      exact ⟨h1, Nat.lt_trans h2 ih.2⟩
  intro hcycle
  exact Nat.lt_irrefl _ (hlt y hcycle).2

/-! ## Linking a node in and out -/

/-- Four pointers link `n` in behind the last node of `xs`. -/
theorem Chain.link (h : Chain next prev s (xs ++ ys)) (hnodup : (s :: (xs ++ ys)).Nodup)
    (hfresh : n ∉ s :: (xs ++ ys))
    (hq : next' (xs.getLastD s) = some n) (hn : next' n = ys.head?)
    (hpn : prev' n = some (xs.getLastD s)) (hy : ∀ y ∈ ys.head?, prev' y = some n)
    (hnext : ∀ a, a ≠ xs.getLastD s → a ≠ n → next' a = next a)
    (hprev : ∀ a, a ≠ n → a ∉ ys.head? → prev' a = prev a) :
    Chain next' prev' s (xs ++ n :: ys) := by
  induction xs generalizing s with
  | nil =>
    -- `n` goes right behind the head: the old chain continues behind `n`.
    simp only [List.nil_append, List.getLastD_nil] at *
    refine ⟨hq, hpn, ?_⟩
    cases ys with
    | nil => exact hn
    | cons y ys =>
      simp only [List.nodup_cons, List.mem_cons, not_or, List.head?_cons] at hnodup hfresh hn hy hprev
      refine ⟨hn, hy y rfl, h.2.2.congr ?_ ?_⟩
      · intro a ha
        exact hnext a (by rintro rfl; simp_all) (by rintro rfl; simp_all)
      · intro a ha
        exact hprev a (by rintro rfl; simp_all) (by rintro ⟨⟩; simp_all)
  | cons x xs ih =>
    obtain ⟨h1, h2, h3⟩ := h
    have hs : s ∉ x :: (xs ++ ys) := (List.nodup_cons.mp hnodup).1
    rw [List.getLastD_cons] at hq hpn hnext
    have hlast := getLastD_mem xs x
    have hx : x ∉ ys.head? := by
      intro hx
      have := List.mem_of_mem_head? hx
      simp_all
    refine ⟨?_, ?_, ih h3 (List.nodup_cons.mp hnodup).2 (fun h => hfresh (List.mem_cons_of_mem _ h))
      hq hpn hnext⟩
    · rw [hnext s (by rintro rfl; exact hs (by simp_all)) (by rintro rfl; simp at hfresh), h1]
    · rw [hprev x (by rintro rfl; simp at hfresh) hx, h2]

/-- Two pointers link `n` out again. -/
theorem Chain.unlink (h : Chain next prev s (xs ++ n :: ys)) (hnodup : (s :: (xs ++ n :: ys)).Nodup)
    (hq : next' (xs.getLastD s) = ys.head?) (hy : ∀ y ∈ ys.head?, prev' y = some (xs.getLastD s))
    (hnext : ∀ a, a ≠ xs.getLastD s → next' a = next a)
    (hprev : ∀ a, a ∉ ys.head? → prev' a = prev a) :
    Chain next' prev' s (xs ++ ys) := by
  induction xs generalizing s with
  | nil =>
    simp only [List.nil_append, List.getLastD_nil] at *
    obtain ⟨-, -, h⟩ := h
    cases ys with
    | nil => exact hq
    | cons y ys =>
      simp only [List.nodup_cons, List.mem_cons, not_or, List.head?_cons] at hnodup hq hy hprev
      refine ⟨hq, hy y rfl, h.2.2.congr ?_ ?_⟩
      · intro a ha; exact hnext a (by rintro rfl; simp_all)
      · intro a ha; exact hprev a (by rintro ⟨⟩; simp_all)
  | cons x xs ih =>
    obtain ⟨h1, h2, h3⟩ := h
    have hs : s ∉ x :: (xs ++ n :: ys) := (List.nodup_cons.mp hnodup).1
    rw [List.getLastD_cons] at hq hy hnext
    have hlast := getLastD_mem xs x
    have hx : x ∉ ys.head? := by
      intro hx
      have := List.mem_of_mem_head? hx
      simp_all
    refine ⟨?_, ?_, ih h3 (List.nodup_cons.mp hnodup).2 hq hy hnext⟩
    · rw [hnext s (by rintro rfl; exact hs (by simp_all)), h1]
    · rw [hprev x hx, h2]

end Pointer
