import Mathlib.Algebra.Group.Nat.Defs
import Mathlib.Logic.Equiv.Basic
import Mathlib.Order.Defs.Unbundled
import Mathlib.Tactic.SplitIfs

/-!
# Heaps in arrays

The children of node `i` are the nodes `2 * i` and `2 * i + 1`, so node 0 has the child 1
only, and the nodes from 1 on are the usual heap. An array is a function from indices,
and its elements are ordered by `r`, where the greatest goes to the top.
-/

namespace Heap

variable {α : Type*}

/-! ## Trees of nodes -/

/-- Node `j` is in the tree below `i`: halving leads from `j` to `i`. -/
inductive Below (i : Nat) : Nat → Prop
  | self : Below i i
  | child {j : Nat} : 0 < j → Below i (j / 2) → Below i j

section Below

variable {i j k : Nat}

theorem Below.le (h : Below i j) : i ≤ j := by
  induction h with
  | self => exact Nat.le_refl i
  | child _ _ ih => omega

theorem Below.trans (hik : Below i k) (hkj : Below k j) : Below i j := by
  induction hkj with
  | self => exact hik
  | child hpos _ ih => exact Below.child hpos ih

theorem Below.parent (h : Below i j) (hne : j ≠ i) : 0 < j ∧ Below i (j / 2) := by
  cases h with
  | self => exact absurd rfl hne
  | child hpos hhalf => exact ⟨hpos, hhalf⟩

theorem below_of_half (h : j = i ∨ j / 2 = i) : Below i j := by
  rcases h with rfl | rfl
  · exact Below.self
  · rcases Nat.eq_zero_or_pos j with rfl | hpos
    · exact Below.self
    · exact Below.child hpos Below.self

/-- The nodes above a node are on one path. -/
theorem Below.of_le (hij : Below i j) (hkj : Below k j) (hik : i ≤ k) : Below i k := by
  induction hkj with
  | self => exact hij
  | child hpos hk ih =>
    cases hij with
    | self =>
      have := hk.le
      omega
    | child _ hi => exact ih hi

theorem below_zero (j : Nat) : Below 0 j := by
  induction j using Nat.strongRecOn with
  | _ j ih =>
    rcases Nat.eq_zero_or_pos j with rfl | hpos
    · exact Below.self
    · exact Below.child hpos (ih (j / 2) (by omega))

theorem below_iff : Below i j ↔ ∃ e, j / 2 ^ e = i := by
  constructor
  · intro h
    induction h with
    | self => exact ⟨0, by rw [Nat.pow_zero, Nat.div_one]⟩
    | child _ _ ih =>
      obtain ⟨e, he⟩ := ih
      exact ⟨e + 1, by rw [Nat.pow_succ', ← Nat.div_div_eq_div_mul, he]⟩
  · rintro ⟨e, he⟩
    induction e generalizing j with
    | zero =>
      rw [Nat.pow_zero, Nat.div_one] at he
      rw [he]
      exact Below.self
    | succ e ih =>
      rw [Nat.pow_succ', ← Nat.div_div_eq_div_mul] at he
      rcases Nat.eq_zero_or_pos j with rfl | hpos
      · rw [Nat.zero_div] at he
        rw [← he]
        exact Below.self
      · exact Below.child hpos (ih he)

end Below

/-! ## Sifting down -/

section Sift

variable (r : α → α → Prop) [DecidableRel r]

/-- The node `c` if it is there and its element is after that of `i`, and otherwise `i`. -/
def larger (n : Nat) (a : Nat → α) (i c : Nat) : Nat := if c < n ∧ r (a i) (a c) then c else i

/-- Where the greatest element of node `i` and its children is. -/
def pick (n : Nat) (a : Nat → α) (i : Nat) : Nat := larger r n a (larger r n a i (2 * i)) (2 * i + 1)

variable {r}

theorem pick_cases (n : Nat) (a : Nat → α) (i : Nat) :
    pick r n a i = i ∨ (i < pick r n a i ∧ pick r n a i < n ∧ pick r n a i / 2 = i) := by
  unfold pick larger
  split_ifs <;> omega

variable (r)

/-- The array after the element of node `i` has sunk, among the first `n` nodes. -/
def siftDown (n : Nat) (a : Nat → α) (i : Nat) : Nat → α :=
  if pick r n a i = i then a else siftDown n (a ∘ Equiv.swap i (pick r n a i)) (pick r n a i)
termination_by n - i
decreasing_by
  have := pick_cases (r := r) n a i
  omega

variable {r}
variable {n : Nat} {a : Nat → α} {i j k : Nat}

theorem siftDown_perm (r : α → α → Prop) [DecidableRel r] (n : Nat) (a : Nat → α) (i : Nat) :
    ∃ σ : Equiv.Perm Nat, siftDown r n a i = a ∘ σ ∧ ∀ j, σ j ≠ j → Below i j ∧ j < n := by
  induction a, i using siftDown.induct r n with
  | case1 a i hstop =>
    refine ⟨Equiv.refl Nat, ?_, fun j hj => absurd rfl hj⟩
    unfold siftDown
    rw [if_pos hstop]
    rfl
  | case2 a i hgo ih =>
    obtain ⟨hlt, hn, hhalf⟩ := (pick_cases n a i).resolve_left hgo
    have hbelow : Below i (pick r n a i) := Below.child (by omega) (by rw [hhalf]; exact Below.self)
    obtain ⟨σ, hσ, hmoved⟩ := ih
    refine ⟨σ.trans (Equiv.swap i (pick r n a i)), ?_, ?_⟩
    · unfold siftDown
      rw [if_neg hgo, hσ]
      rfl
    · intro j hj
      by_cases hsame : σ j = j
      · rw [Equiv.trans_apply, hsame] at hj
        rcases Equiv.swap_apply_ne_self_iff.mp hj with ⟨-, rfl | rfl⟩
        · exact ⟨Below.self, by omega⟩
        · exact ⟨hbelow, hn⟩
      · obtain ⟨hk, hj⟩ := hmoved j hsame
        exact ⟨hbelow.trans hk, hj⟩

theorem moved_symm {σ : Equiv.Perm Nat} (hmoved : ∀ j, σ j ≠ j → Below k j ∧ j < n) :
    ∀ j, σ.symm j ≠ j → Below k j ∧ j < n := by
  intro j hj
  apply hmoved
  intro hsame
  apply hj
  rw [Equiv.symm_apply_eq, hsame]

theorem below_of_moved {σ : Equiv.Perm Nat} (hmoved : ∀ j, σ j ≠ j → Below k j ∧ j < n) (hik : Below i j)
    (hi : i ≤ k) (hj : j < n) : Below i (σ j) ∧ σ j < n := by
  by_cases hsame : σ j = j
  · rw [hsame]
    exact ⟨hik, hj⟩
  · have hk := (hmoved j hsame).1
    have hmoved' := hmoved (σ j) fun h => hsame (σ.injective h)
    exact ⟨(hik.of_le hk hi).trans hmoved'.1, hmoved'.2⟩

end Sift

/-! ## Order -/

section Order

variable {r : α → α → Prop} {n : Nat} {a : Nat → α} {i j k : Nat}

section

variable [IsStrictWeakOrder α r]

theorem not_rel_trans {x y z : α} (hxy : ¬ r x y) (hyz : ¬ r y z) : ¬ r x z := by
  intro hxz
  have hyx : ¬ r y x := fun h => hyz (Trans.trans h hxz)
  have hzy : ¬ r z y := fun h => hxy (Trans.trans hxz h)
  exact (IsStrictWeakOrder.incomp_trans x y z ⟨hxy, hyx⟩ ⟨hyz, hzy⟩).1 hxz

theorem not_rel_of_rel {x y : α} (h : r x y) : ¬ r y x := fun h' => irrefl_of r x (Trans.trans h h')

/-- Below node `i` no child comes after its parent. -/
def HeapFrom (r : α → α → Prop) (n : Nat) (a : Nat → α) (i : Nat) : Prop :=
  ∀ j, 0 < j → j < n → Below i (j / 2) → ¬ r (a (j / 2)) (a j)

theorem HeapFrom.top (h : HeapFrom r n a i) (hij : Below i j) (hj : j < n) : ¬ r (a i) (a j) := by
  induction hij with
  | self => exact irrefl_of r _
  | @child j hpos hhalf ih => exact not_rel_trans (ih (by omega)) (h j hpos hj hhalf)

end

variable [DecidableRel r]

theorem siftDown_root : siftDown r n a i i = a (pick r n a i) := by
  unfold siftDown
  split_ifs with hstop
  · rw [hstop]
  · obtain ⟨σ, hσ, hmoved⟩ := siftDown_perm r n (a ∘ Equiv.swap i (pick r n a i)) (pick r n a i)
    have hlt := ((pick_cases (r := r) n a i).resolve_left hstop).1
    have hfix : σ i = i := by
      by_contra hne
      have := (hmoved i hne).1.le
      omega
    rw [hσ, Function.comp_apply, hfix, Function.comp_apply, Equiv.swap_apply_left]

variable [IsStrictWeakOrder α r]

theorem larger_not_before (c : Nat) : ¬ r (a (larger r n a i c)) (a i) := by
  unfold larger
  split_ifs with h
  · exact not_rel_of_rel h.2
  · exact irrefl_of r _

theorem larger_not_before_child {c : Nat} (hc : c < n) : ¬ r (a (larger r n a i c)) (a c) := by
  unfold larger
  split_ifs with h
  · exact irrefl_of r _
  · exact fun hr => h ⟨hc, hr⟩

omit [IsStrictWeakOrder α r] in
theorem larger_rel (c : Nat) : larger r n a i c = i ∨ r (a i) (a (larger r n a i c)) := by
  unfold larger
  split_ifs with h
  · exact Or.inr h.2
  · exact Or.inl rfl

theorem pick_rel (hgo : pick r n a i ≠ i) : r (a i) (a (pick r n a i)) := by
  unfold pick at hgo ⊢
  rcases larger_rel (r := r) (n := n) (a := a) (i := i) (2 * i) with hleft | hleft
  · rw [hleft] at hgo ⊢
    exact (larger_rel _).resolve_left hgo
  · rcases larger_rel (r := r) (n := n) (a := a) (i := larger r n a i (2 * i)) (2 * i + 1) with hright | hright
    · rwa [hright]
    · exact Trans.trans hleft hright

theorem pick_not_before {c : Nat} (hc : c = i ∨ c / 2 = i) (hn : c < n) : ¬ r (a (pick r n a i)) (a c) := by
  unfold pick
  have hleft : ¬ r (a (larger r n a (larger r n a i (2 * i)) (2 * i + 1))) (a (larger r n a i (2 * i))) :=
    larger_not_before (2 * i + 1)
  have hcases : c = i ∨ c = 2 * i ∨ c = 2 * i + 1 := by omega
  rcases hcases with rfl | rfl | rfl
  · exact not_rel_trans hleft (larger_not_before _)
  · exact not_rel_trans hleft (larger_not_before_child hn)
  · exact larger_not_before_child hn

/-- If only node `i` was out of order, nothing below it is any more. -/
theorem siftDown_heap (h : ∀ j, 0 < j → j < n → Below i (j / 2) → j / 2 ≠ i → ¬ r (a (j / 2)) (a j)) :
    HeapFrom r n (siftDown r n a i) i := by
  induction a, i using siftDown.induct r n with
  | case1 a i hstop =>
    intro j hpos hj hbelow
    unfold siftDown
    rw [if_pos hstop]
    by_cases htop : j / 2 = i
    · have := pick_not_before (r := r) (a := a) (Or.inr htop) hj
      rwa [hstop, ← htop] at this
    · exact h j hpos hj hbelow htop
  | case2 a i hgo ih =>
    obtain ⟨hlt, hn, hhalf⟩ := (pick_cases n a i).resolve_left hgo
    have hroot := siftDown_root (r := r) (n := n) (a := a) (i := i)
    unfold siftDown at hroot ⊢
    rw [if_neg hgo] at hroot ⊢
    generalize hpick : pick r n a i = k at *
    obtain ⟨σ, hσ, hmoved⟩ := siftDown_perm r n (a ∘ Equiv.swap i k) k
    have hother : ∀ j, j ≠ i → j ≠ k → (a ∘ Equiv.swap i k) j = a j := fun j hji hjk => by
      rw [Function.comp_apply, Equiv.swap_apply_of_ne_of_ne hji hjk]
    have hk : (a ∘ Equiv.swap i k) k = a i := by
      rw [Function.comp_apply, Equiv.swap_apply_right]
    have hbelow : Below i k := Below.child (by omega) (by rw [hhalf]; exact Below.self)
    have hheap : HeapFrom r n a k := fun j hpos hj hkj =>
      h j hpos hj (hbelow.trans hkj) (by have := hkj.le; omega)
    have hsifted := ih fun j hpos hj hkj hne => by
      have hle := hkj.le
      rw [hother (j / 2) (by omega) hne, hother j (by omega) (by omega)]
      exact hheap j hpos hj hkj
    intro j hpos hj hij
    have hle := hij.le
    by_cases hkj : Below k (j / 2)
    · exact hsifted j hpos hj hkj
    -- Nothing has moved at the parent of `j` by the sifting at `k`.
    have hfix : ∀ l, ¬ Below k l → siftDown r n (a ∘ Equiv.swap i k) k l = (a ∘ Equiv.swap i k) l := by
      intro l hl
      have hσl : σ l = l := by
        by_contra hne
        exact hl (hmoved l hne).1
      rw [hσ, Function.comp_apply, hσl]
    by_cases hjk : j = k
    · subst hjk
      rw [hhalf, hroot]
      have hmem := below_of_moved hmoved Below.self (Nat.le_refl j) hj
      rw [hσ, Function.comp_apply]
      by_cases hsame : σ j = j
      · rw [hsame, hk, ← hpick]
        exact pick_not_before (Or.inl rfl) (by omega)
      · have hgt := hmem.1.le
        rw [hother (σ j) (by omega) hsame]
        exact hheap.top hmem.1 hmem.2
    · have hkj' : ¬ Below k j := by
        intro hbj
        cases hbj with
        | self => exact hjk rfl
        | child _ hbj => exact hkj hbj
      rw [hfix j hkj', hother j (by omega) hjk]
      by_cases htop : j / 2 = i
      · rw [htop, hroot, ← hpick]
        exact pick_not_before (Or.inr htop) hj
      · have hhalfk : j / 2 ≠ k := fun heq => hkj (by rw [heq]; exact Below.self)
        rw [hfix (j / 2) hkj, hother (j / 2) htop hhalfk]
        exact h j hpos hj hij htop

/-- The elements that rise came after the one that sinks, and so do those that come in their places, or it does. -/
theorem siftDown_risen {l : Nat} (hl : l ≠ i) : siftDown r n a i l = a l ∨
    (Below i l ∧ l < n ∧ r (a i) (a l) ∧ ¬ r (siftDown r n a i l) (a i)) := by
  induction a, i using siftDown.induct r n with
  | case1 a i hstop =>
    unfold siftDown
    rw [if_pos hstop]
    exact Or.inl rfl
  | case2 a i hgo ih =>
    obtain ⟨hlt, hn, hhalf⟩ := (pick_cases n a i).resolve_left hgo
    have hbelow : Below i (pick r n a i) := below_of_half (Or.inr hhalf)
    have hsunk : (a ∘ Equiv.swap i (pick r n a i)) (pick r n a i) = a i := by
      rw [Function.comp_apply, Equiv.swap_apply_right]
    unfold siftDown
    rw [if_neg hgo]
    by_cases hlk : l = pick r n a i
    · right
      have hroot := siftDown_root (r := r) (n := n) (a := a ∘ Equiv.swap i (pick r n a i)) (i := pick r n a i)
      rw [hlk, hroot]
      refine ⟨hbelow, hn, pick_rel hgo, ?_⟩
      rw [← hsunk]
      exact pick_not_before (Or.inl rfl) hn
    · have hother : (a ∘ Equiv.swap i (pick r n a i)) l = a l := by
        rw [Function.comp_apply, Equiv.swap_apply_of_ne_of_ne hl hlk]
      have := ih hlk
      rw [hsunk, hother] at this
      exact this.imp_right fun ⟨hb, hrest⟩ => ⟨hbelow.trans hb, hrest⟩

end Order

/-! ## The build loop -/

section Build

variable (r : α → α → Prop) [DecidableRel r]

/-- The array after the nodes `0`, ..., `k - 1` were sifted down, in this order. -/
def passes (n : Nat) (a : Nat → α) : Nat → Nat → α
  | 0 => a
  | k + 1 => siftDown r n (passes n a k) k

/-- Some greatest element below node `i` is at the node itself or at one of its children. -/
def InReach (n : Nat) (a : Nat → α) (i : Nat) : Prop :=
  ∀ j, Below i j → j < n → ∃ c, (c = i ∨ c / 2 = i) ∧ c < n ∧ ¬ r (a c) (a j)

/-- Every pass finds the greatest element in reach. -/
def Buildable (n : Nat) (a : Nat → α) : Prop := ∀ i < n / 2, InReach r n (passes r n a i) i

variable {r}
variable {n : Nat} {a : Nat → α} {i j k : Nat}

theorem passes_perm (r : α → α → Prop) [DecidableRel r] (n : Nat) (a : Nat → α) (k : Nat) :
    ∃ σ : Equiv.Perm Nat, passes r n a k = a ∘ σ ∧ ∀ j, n ≤ j → σ j = j := by
  induction k with
  | zero => exact ⟨Equiv.refl Nat, rfl, fun _ _ => rfl⟩
  | succ k ih =>
    obtain ⟨σ, hσ, hfix⟩ := ih
    obtain ⟨τ, hτ, hmoved⟩ := siftDown_perm r n (passes r n a k) k
    refine ⟨τ.trans σ, ?_, ?_⟩
    · unfold passes
      rw [hτ, hσ]
      rfl
    · intro j hj
      have hsame : τ j = j := by
        by_contra hne
        have := (hmoved j hne).2
        omega
      rw [Equiv.trans_apply, hsame, hfix j hj]

/-- A pass brings the greatest element to its node exactly if it is in reach. -/
theorem siftDown_top_iff [IsStrictWeakOrder α r] (hi : i < n) :
    InReach r n a i ↔ ∀ j, Below i j → j < n → ¬ r (siftDown r n a i i) (siftDown r n a i j) := by
  obtain ⟨σ, hσ, hmoved⟩ := siftDown_perm r n a i
  constructor
  · intro hreach j hij hj
    obtain ⟨hbelow, hlt⟩ := below_of_moved hmoved hij (Nat.le_refl i) hj
    obtain ⟨c, hc, hcn, hcj⟩ := hreach (σ j) hbelow hlt
    rw [siftDown_root, hσ, Function.comp_apply]
    exact not_rel_trans (pick_not_before hc hcn) hcj
  · intro htop j hij hj
    -- The element is somewhere below the node after the pass, too.
    obtain ⟨hbelow, hlt⟩ := below_of_moved (moved_symm hmoved) hij (Nat.le_refl i) hj
    have hj' := htop (σ.symm j) hbelow hlt
    rw [siftDown_root, hσ, Function.comp_apply, Equiv.apply_symm_apply] at hj'
    rcases pick_cases (r := r) n a i with hstop | ⟨-, hn, hhalf⟩
    · exact ⟨pick r n a i, Or.inl hstop, by omega, hj'⟩
    · exact ⟨pick r n a i, Or.inr hhalf, hn, hj'⟩

/-- Later passes keep what an earlier one has achieved, whether it is a heap or not. -/
theorem passes_top_iff (hik : i < k) :
    (∀ j, Below i j → j < n → ¬ r (passes r n a k i) (passes r n a k j)) ↔
      ∀ j, Below i j → j < n → ¬ r (passes r n a (i + 1) i) (passes r n a (i + 1) j) := by
  induction k with
  | zero => omega
  | succ k ih =>
    rcases Nat.lt_succ_iff_lt_or_eq.mp hik with hlt | rfl
    · rw [← ih hlt]
      obtain ⟨σ, hσ, hmoved⟩ := siftDown_perm r n (passes r n a k) k
      have hi : σ i = i := by
        by_contra hne
        have := (hmoved i hne).1.le
        omega
      change (∀ j, Below i j → j < n → ¬ r (siftDown r n (passes r n a k) k i) (siftDown r n (passes r n a k) k j)) ↔ _
      rw [hσ]
      simp only [Function.comp_apply, hi]
      constructor
      · intro h j hij hj
        obtain ⟨hbelow, hlt⟩ := below_of_moved (moved_symm hmoved) hij (by omega) hj
        have := h (σ.symm j) hbelow hlt
        rwa [Equiv.apply_symm_apply] at this
      · intro h j hij hj
        obtain ⟨hbelow, hlt⟩ := below_of_moved hmoved hij (by omega) hj
        exact h (σ j) hbelow hlt
    · rfl

/-- The loop builds a heap exactly if every pass finds the greatest element in reach. -/
theorem buildable_iff [IsStrictWeakOrder α r] :
    Buildable r n a ↔ ∀ i < n / 2, ∀ j, Below i j → j < n → ¬ r (passes r n a (n / 2) i) (passes r n a (n / 2) j) := by
  apply forall_congr'
  intro i
  apply forall_congr'
  intro hi
  rw [passes_top_iff hi, siftDown_top_iff (by omega)]
  rfl

end Build

/-! ## Arrays of which the loop builds a heap -/

section Shallow

/-- From node `k` on no element comes after a node three or more levels above it, nor after all of its
grandparent and the children of that. -/
structure ShallowFrom (r : α → α → Prop) (n : Nat) (a : Nat → α) (k : Nat) : Prop where
  reach : ∀ j < n, k ≤ j / 4 → ∃ c, (c = j / 4 ∨ c / 2 = j / 4) ∧ c < n ∧ ¬ r (a c) (a j)
  above : ∀ i j, k ≤ i → Below i (j / 8) → 4 ≤ j → j < n → ¬ r (a i) (a j)

def Shallow (r : α → α → Prop) (n : Nat) (a : Nat → α) : Prop := ShallowFrom r n a 0

variable {r : α → α → Prop} [DecidableRel r] [IsStrictWeakOrder α r] {n : Nat} {a : Nat → α} {k : Nat}

/-- A pass changes two levels at most, and puts nothing there that the element at its node comes after. -/
theorem ShallowFrom.changes (h : ShallowFrom r n a k) {l : Nat} (hl : k < l) : siftDown r n a k l = a l ∨
    ((l / 2 = k ∨ l / 4 = k) ∧ ¬ r (siftDown r n a k l) (a k)) := by
  refine (siftDown_risen (Nat.ne_of_gt hl)).imp_right ?_
  rintro ⟨hbelow, hn, hrise, hnot⟩
  refine ⟨?_, hnot⟩
  by_contra hdeep
  rw [not_or] at hdeep
  obtain ⟨-, hhalf⟩ := hbelow.parent (Nat.ne_of_gt hl)
  obtain ⟨-, hquarter⟩ := hhalf.parent hdeep.1
  rw [Nat.div_div_eq_div_mul] at hquarter
  obtain ⟨hpos, heighth⟩ := hquarter.parent hdeep.2
  rw [Nat.div_div_eq_div_mul] at heighth
  exact h.above k l (Nat.le_refl k) heighth (by omega) hn hrise

theorem ShallowFrom.sift (h : ShallowFrom r n a k) : ShallowFrom r n (siftDown r n a k) (k + 1) := by
  have hsame : ∀ j, k + 1 ≤ j / 4 → siftDown r n a k j = a j := fun j hj =>
    (h.changes (show k < j by omega)).resolve_right fun hc => by omega
  constructor
  · intro j hj hkj
    obtain ⟨c, hc, hcn, hcj⟩ := h.reach j hj (by omega)
    refine ⟨c, hc, hcn, ?_⟩
    rw [hsame j hkj]
    rcases h.changes (show k < c by omega) with heq | ⟨hup, hnot⟩
    · rwa [heq]
    · have hbelow : Below k (j / 8) := below_of_half (by omega)
      exact not_rel_trans hnot (h.above k j (Nat.le_refl k) hbelow (by omega) hj)
  · intro i j hki hij h4 hj
    have hle := hij.le
    rw [hsame j (by omega)]
    rcases h.changes (show k < i by omega) with heq | ⟨hup, hnot⟩
    · rw [heq]
      exact h.above i j (by omega) hij h4 hj
    · have hbelow : Below k i := Below.child (by omega) (below_of_half (by omega))
      exact not_rel_trans hnot (h.above k j (Nat.le_refl k) (hbelow.trans hij) h4 hj)

theorem Shallow.passes (h : Shallow r n a) (k : Nat) : ShallowFrom r n (passes r n a k) k := by
  induction k with
  | zero => exact h
  | succ k ih => exact ih.sift

theorem Shallow.buildable (h : Shallow r n a) : Buildable r n a := by
  intro i hi j hij hj
  have hs := h.passes i
  by_cases hi0 : j = i
  · exact ⟨j, Or.inl hi0, hj, irrefl_of r _⟩
  obtain ⟨-, hhalf⟩ := hij.parent hi0
  by_cases hi1 : j / 2 = i
  · exact ⟨j, Or.inr hi1, hj, irrefl_of r _⟩
  obtain ⟨-, hquarter⟩ := hhalf.parent hi1
  rw [Nat.div_div_eq_div_mul] at hquarter
  by_cases hi2 : j / 4 = i
  · obtain ⟨c, hc, hcn, hcj⟩ := hs.reach j hj (by omega)
    exact ⟨c, by rwa [hi2] at hc, hcn, hcj⟩
  · obtain ⟨hpos, heighth⟩ := hquarter.parent hi2
    rw [Nat.div_div_eq_div_mul] at heighth
    exact ⟨i, Or.inl rfl, by omega, hs.above i j (Nat.le_refl i) heighth (by omega) hj⟩

end Shallow

/-! ## The extraction loop -/

section Extract

variable (r : α → α → Prop) [DecidableRel r]

/-- Put the top of the first `m` elements behind the others, one after the other. -/
def extract : Nat → (Nat → α) → Nat → α
  | 0, a => a
  | i + 1, a => extract i (siftDown r i (a ∘ Equiv.swap 0 i) 0)

variable {r}
variable {n m : Nat} {a : Nat → α}

/-- One round takes the top out and rearranges the others. -/
theorem extract_step_perm (r : α → α → Prop) [DecidableRel r] (a : Nat → α) (i : Nat) :
    ∃ τ : Equiv.Perm Nat, siftDown r i (a ∘ Equiv.swap 0 i) 0 = a ∘ τ ∧ (∀ j, i < j → τ j = j) ∧ τ i = 0 := by
  obtain ⟨σ, hσ, hmoved⟩ := siftDown_perm r i (a ∘ Equiv.swap 0 i) 0
  have hfix : ∀ j, i ≤ j → σ j = j := by
    intro j hj
    by_contra hne
    have := (hmoved j hne).2
    omega
  refine ⟨σ.trans (Equiv.swap 0 i), ?_, ?_, ?_⟩
  · rw [hσ]
    rfl
  · intro j hj
    rw [Equiv.trans_apply, hfix j (by omega), Equiv.swap_apply_of_ne_of_ne (by omega) (by omega)]
  · rw [Equiv.trans_apply, hfix i (Nat.le_refl i), Equiv.swap_apply_right]

theorem perm_lt {τ : Equiv.Perm Nat} {i : Nat} (hfix : ∀ j, i < j → τ j = j) {j : Nat} (hj : j ≤ i) : τ j ≤ i := by
  by_contra hgt
  have hsame := hfix (τ j) (by omega)
  have := τ.injective hsame
  omega

theorem extract_perm (r : α → α → Prop) [DecidableRel r] (m : Nat) (a : Nat → α) :
    ∃ σ : Equiv.Perm Nat, extract r m a = a ∘ σ ∧ ∀ j, m ≤ j → σ j = j := by
  induction m generalizing a with
  | zero => exact ⟨Equiv.refl Nat, rfl, fun _ _ => rfl⟩
  | succ i ih =>
    obtain ⟨τ, hτ, hfixτ, -⟩ := extract_step_perm r a i
    obtain ⟨σ, hσ, hfixσ⟩ := ih (siftDown r i (a ∘ Equiv.swap 0 i) 0)
    refine ⟨σ.trans τ, ?_, ?_⟩
    · unfold extract
      rw [hσ, hτ]
      rfl
    · intro j hj
      rw [Equiv.trans_apply, hfixσ j (by omega), hfixτ j (by omega)]

/-- The first `m` of the `n` elements are still to be taken out, from a heap that need not hold the last one. -/
structure Draining (r : α → α → Prop) (n m : Nat) (a : Nat → α) : Prop where
  top : ∀ j < m, ¬ r (a 0) (a j)
  heap : ∀ c, 2 ≤ c → c + 1 < m → ¬ r (a (c / 2)) (a c)
  placed : ∀ j k, k < j → m ≤ j → j < n → ¬ r (a j) (a k)

theorem extract_step [IsStrictWeakOrder α r] {i : Nat} (h : Draining r n (i + 1) a) :
    Draining r n i (siftDown r i (a ∘ Equiv.swap 0 i) 0) := by
  obtain ⟨τ, hτ, hfix, hlast⟩ := extract_step_perm r a i
  have hheap : HeapFrom r i (siftDown r i (a ∘ Equiv.swap 0 i) 0) 0 := by
    apply siftDown_heap
    intro j hpos hj _ hhalf
    have hother : ∀ l, l ≠ 0 → l < i → (a ∘ Equiv.swap 0 i) l = a l := fun l hl hli => by
      rw [Function.comp_apply, Equiv.swap_apply_of_ne_of_ne hl (by omega)]
    rw [hother (j / 2) hhalf (by omega), hother j (by omega) hj]
    exact h.heap j (by omega) (by omega)
  constructor
  · exact fun j hj => hheap.top (below_zero j) hj
  · exact fun c hc hci => hheap c (by omega) (by omega) (below_zero _)
  · intro j k hkj hij hj
    rw [hτ, Function.comp_apply, Function.comp_apply]
    rcases Nat.eq_or_lt_of_le hij with rfl | hlt
    · rw [hlast]
      have := perm_lt hfix (Nat.le_of_lt hkj)
      exact h.top (τ k) (by omega)
    · rw [hfix j hlt]
      apply h.placed j (τ k) _ hlt hj
      rcases Nat.lt_or_ge i k with hk | hk
      · rw [hfix k hk]
        exact hkj
      · have := perm_lt hfix hk
        omega

theorem extract_run [IsStrictWeakOrder α r] (h : Draining r n m a) : Draining r n 0 (extract r m a) := by
  induction m generalizing a with
  | zero => exact h
  | succ i ih =>
    unfold extract
    exact ih (extract_step h)

/-- After a build loop that builds the heap, the extraction sorts. -/
theorem extract_sorted [IsStrictWeakOrder α r] (h : Buildable r n a) {j k : Nat} (hkj : k < j) (hj : j < n) :
    ¬ r (extract r n (passes r n a (n / 2)) j) (extract r n (passes r n a (n / 2)) k) := by
  have hbuilt := buildable_iff.mp h
  have hstart : Draining r n n (passes r n a (n / 2)) := by
    constructor
    · intro l hl
      rcases Nat.eq_zero_or_pos (n / 2) with hzero | hpos
      · have hl0 : l = 0 := by omega
        rw [hl0]
        exact irrefl_of r _
      · exact hbuilt 0 hpos l (below_zero l) hl
    · intro c hc hcn
      exact hbuilt (c / 2) (by omega) c (Below.child (by omega) Below.self) (by omega)
    · intro j k _ hnj hj
      omega
  exact (extract_run hstart).placed j k hkj (Nat.zero_le j) hj

theorem extract_last (hm : 0 < m) : extract r m a (m - 1) = a 0 := by
  obtain ⟨i, rfl⟩ := Nat.exists_eq_succ_of_ne_zero (Nat.pos_iff_ne_zero.mp hm)
  obtain ⟨τ, hτ, -, hlast⟩ := extract_step_perm r a i
  obtain ⟨σ, hσ, hfix⟩ := extract_perm r i (siftDown r i (a ∘ Equiv.swap 0 i) 0)
  unfold extract
  rw [hσ, hτ, Nat.succ_sub_one, Function.comp_apply, hfix i (Nat.le_refl i), Function.comp_apply, hlast]

theorem sort_perm (r : α → α → Prop) [DecidableRel r] (n k : Nat) (a : Nat → α) :
    ∃ σ : Equiv.Perm Nat, extract r n (passes r n a k) = a ∘ σ ∧ ∀ j, n ≤ j → σ j = j := by
  obtain ⟨σ, hσ, hfixσ⟩ := passes_perm r n a k
  obtain ⟨τ, hτ, hfixτ⟩ := extract_perm r n (passes r n a k)
  refine ⟨τ.trans σ, ?_, ?_⟩
  · rw [hτ, hσ]
    rfl
  · intro j hj
    rw [Equiv.trans_apply, hfixτ j hj, hfixσ j hj]

theorem lt_of_fixed {σ : Equiv.Perm Nat} (hfix : ∀ j, n ≤ j → σ j = j) {j : Nat} (hj : j < n) : σ j < n := by
  by_contra hge
  have hsame := hfix (σ j) (by omega)
  have := σ.injective hsame
  omega

/-- Nothing sorts unless the very first pass finds the greatest element in reach. -/
theorem inReach_of_sorted [IsStrictWeakOrder α r] (hn : 0 < n / 2)
    (h : ∀ j < n, ∀ k < j, ¬ r (extract r n (passes r n a (n / 2)) j) (extract r n (passes r n a (n / 2)) k)) :
    InReach r n a 0 := by
  obtain ⟨σ, hσ, hfix⟩ := extract_perm r n (passes r n a (n / 2))
  have hlast := extract_last (r := r) (a := passes r n a (n / 2)) (show 0 < n by omega)
  rw [siftDown_top_iff (by omega)]
  apply (passes_top_iff (r := r) (a := a) hn).mp
  intro j _ hj
  -- The top of the heap goes to the last place and every other element somewhere before it.
  have hfix' : ∀ l, n ≤ l → σ.symm l = l := fun l hl => by
    rw [Equiv.symm_apply_eq, hfix l hl]
  have hplace := lt_of_fixed hfix' hj
  have hvalue : extract r n (passes r n a (n / 2)) (σ.symm j) = passes r n a (n / 2) j := by
    rw [hσ, Function.comp_apply, Equiv.apply_symm_apply]
  rw [← hlast, ← hvalue]
  rcases Nat.lt_or_ge (σ.symm j) (n - 1) with hlt | hge
  · exact h (n - 1) (by omega) (σ.symm j) hlt
  · have hsame : σ.symm j = n - 1 := by omega
    rw [hsame]
    exact irrefl_of r _

end Extract

end Heap
