import Mathlib.Data.Set.Basic
import Mathlib.Order.Interval.Set.Defs

/-!
# Sets of numbers as disjoint intervals

`Tiling A len F`: the intervals from `x` to `x + len x`, for `x` in `A`, are disjoint and
cover exactly `F`. When no two of them touch they are the maximal runs of `F`, so `F`
alone determines them.
-/

namespace Interval

structure Tiling (A : Set ℕ) (len : ℕ → ℕ) (F : Set ℕ) : Prop where
  pos : ∀ x ∈ A, 0 < len x
  apart : ∀ x ∈ A, ∀ y ∈ A, x < y → x + len x ≤ y
  cover : ∀ j, j ∈ F ↔ ∃ x ∈ A, x ≤ j ∧ j < x + len x

/-- Between two intervals there is a gap. -/
def Separated (A : Set ℕ) (len : ℕ → ℕ) : Prop := ∀ x ∈ A, ∀ y ∈ A, x < y → x + len x < y

/-- The places where one interval ends and the next begins. -/
def joints (A : Set ℕ) (len : ℕ → ℕ) : Set ℕ := {y | y ∈ A ∧ ∃ x ∈ A, x + len x = y}

/-- The interval from `k` to `k + n` lies in `F`, and no longer one around it does. -/
structure IsRun (F : Set ℕ) (k n : ℕ) : Prop where
  pos : 0 < n
  inside : ∀ j, k ≤ j → j < k + n → j ∈ F
  above : k + n ∉ F
  below : ∀ j, j + 1 = k → j ∉ F

variable {A : Set ℕ} {len len' : ℕ → ℕ} {F : Set ℕ} {x y b k k' n n' : ℕ}

theorem Tiling.congr (h : Tiling A len F) (heq : ∀ x ∈ A, len' x = len x) : Tiling A len' F where
  pos x hx := by rw [heq x hx]; exact h.pos x hx
  apart x hx y hy := by rw [heq x hx]; exact h.apart x hx y hy
  cover j := by
    rw [h.cover j]
    constructor
    · rintro ⟨x, hx, hj⟩; exact ⟨x, hx, by rwa [heq x hx]⟩
    · rintro ⟨x, hx, hj⟩; exact ⟨x, hx, by rwa [heq x hx] at hj⟩

/-! ## Edits of a tiling -/

theorem Tiling.insert (h : Tiling A len F) (hn : 0 < len' b) (hb : ∀ j, b ≤ j → j < b + len' b → j ∉ F)
    (heq : ∀ x ∈ A, len' x = len x) : Tiling (insert b A) len' (F ∪ Set.Ico b (b + len' b)) := by
  -- No old interval reaches into the new one.
  have hout : ∀ x ∈ A, x + len x ≤ b ∨ b + len' b ≤ x := by
    intro x hx
    by_contra hc
    have hpos := h.pos x hx
    apply hb (max x b) (by omega) (by omega)
    rw [h.cover]
    exact ⟨x, hx, by omega, by omega⟩
  refine ⟨?_, ?_, ?_⟩
  · rintro x (rfl | hx)
    · exact hn
    · rw [heq x hx]; exact h.pos x hx
  · rintro x (rfl | hx) y (rfl | hy) hxy
    · omega
    · have := hout y hy
      have := h.pos y hy
      omega
    · rw [heq x hx]
      have := hout x hx
      omega
    · rw [heq x hx]; exact h.apart x hx y hy hxy
  · intro j
    rw [Set.mem_union, h.cover, Set.mem_Ico]
    constructor
    · rintro (⟨x, hx, hj⟩ | hj)
      · exact ⟨x, Or.inr hx, by rwa [heq x hx]⟩
      · exact ⟨b, Or.inl rfl, hj⟩
    · rintro ⟨x, rfl | hx, hj⟩
      · exact Or.inr hj
      · exact Or.inl ⟨x, hx, by rwa [heq x hx] at hj⟩

theorem Tiling.merge (h : Tiling A len F) (hx : x ∈ A) (hy : y ∈ A) (hxy : x < y)
    (htouch : x + len x = y) (hlen : len' x = len x + len y) (heq : ∀ a ∈ A, a ≠ x → len' a = len a) :
    Tiling (A \ {y}) len' F := by
  refine ⟨?_, ?_, ?_⟩
  · rintro a ⟨ha, -⟩
    by_cases hax : a = x
    · rw [hax, hlen]
      have := h.pos x hx
      omega
    · rw [heq a ha hax]; exact h.pos a ha
  · rintro a ⟨ha, hay⟩ c ⟨hc, hcy⟩ hac
    by_cases hax : a = x
    · subst hax
      have h1 := h.apart a ha c hc hac
      have h2 : y ≠ c := fun he => hcy he.symm
      have h3 := h.apart y hy c hc (by omega)
      omega
    · rw [heq a ha hax]; exact h.apart a ha c hc hac
  · intro j
    rw [h.cover]
    constructor
    · rintro ⟨a, ha, hj⟩
      by_cases hay : a = y
      · exact ⟨x, ⟨hx, by rintro rfl; omega⟩, by rw [hay] at hj; omega⟩
      · by_cases hax : a = x
        · exact ⟨x, ⟨hx, by rintro rfl; omega⟩, by rw [hax] at hj; omega⟩
        · exact ⟨a, ⟨ha, hay⟩, by rwa [heq a ha hax]⟩
    · rintro ⟨a, ⟨ha, hay⟩, hj⟩
      by_cases hax : a = x
      · rw [hax, hlen] at hj
        by_cases hjy : j < y
        · exact ⟨x, hx, by omega⟩
        · exact ⟨y, hy, by omega⟩
      · exact ⟨a, ha, by rwa [heq a ha hax] at hj⟩

/-- Cutting `k` off the end of an interval. -/
theorem Tiling.shrink (h : Tiling A len F) (hx : x ∈ A) (hk : k < len x) (hlen : len' x = len x - k)
    (heq : ∀ a ∈ A, a ≠ x → len' a = len a) :
    Tiling A len' (F \ Set.Ico (x + len' x) (x + len x)) := by
  refine ⟨?_, ?_, ?_⟩
  · intro a ha
    by_cases hax : a = x
    · rw [hax]; omega
    · rw [heq a ha hax]; exact h.pos a ha
  · intro a ha c hc hac
    have := h.apart a ha c hc hac
    by_cases hax : a = x
    · rw [hax] at this ⊢; omega
    · rwa [heq a ha hax]
  · intro j
    rw [Set.mem_sdiff, h.cover, Set.mem_Ico]
    constructor
    · rintro ⟨⟨a, ha, hj⟩, hout⟩
      refine ⟨a, ha, ?_⟩
      by_cases hax : a = x
      · subst hax; omega
      · rwa [heq a ha hax]
    · rintro ⟨a, ha, hj⟩
      by_cases hax : a = x
      · subst hax; exact ⟨⟨a, ha, by omega⟩, by omega⟩
      · rw [heq a ha hax] at hj
        refine ⟨⟨a, ha, hj⟩, ?_⟩
        rcases Nat.lt_or_gt_of_ne hax with hlt | hgt
        · have := h.apart a ha x hx hlt
          omega
        · have := h.apart x hx a ha hgt
          omega

theorem Tiling.erase (h : Tiling A len F) (hx : x ∈ A) :
    Tiling (A \ {x}) len (F \ Set.Ico x (x + len x)) := by
  refine ⟨fun a ha => h.pos a ha.1, fun a ha c hc => h.apart a ha.1 c hc.1, ?_⟩
  intro j
  rw [Set.mem_sdiff, h.cover, Set.mem_Ico]
  constructor
  · rintro ⟨⟨a, ha, hj⟩, hout⟩
    exact ⟨a, ⟨ha, by rintro rfl; exact hout hj⟩, hj⟩
  · rintro ⟨a, ⟨ha, hax⟩, hj⟩
    refine ⟨⟨a, ha, hj⟩, ?_⟩
    rcases Nat.lt_or_gt_of_ne (fun he : a = x => hax he) with hlt | hgt
    · have := h.apart a ha x hx hlt
      omega
    · have := h.apart x hx a ha hgt
      omega

/-! ## Joints -/

theorem Tiling.separated (h : Tiling A len F) (hj : joints A len ⊆ ∅) : Separated A len := by
  intro x hx y hy hxy
  have hle := h.apart x hx y hy hxy
  have hne : x + len x ≠ y := fun he => hj ⟨hy, x, hx, he⟩
  omega

theorem Separated.mono {B : Set ℕ} (h : Separated A len) (hB : B ⊆ A) (hle : ∀ x ∈ B, len' x ≤ len x) :
    Separated B len' := by
  intro x hx y hy hxy
  have := h x (hB hx) y (hB hy) hxy
  have := hle x hx
  omega

theorem Tiling.joints_insert (h : Tiling A len F) (hsep : Separated A len) (heq : ∀ x ∈ A, len' x = len x) :
    joints (Insert.insert b A) len' ⊆ {b, b + len' b} := by
  rintro y ⟨rfl | hy, x, hx, he⟩
  · exact Or.inl rfl
  · rcases hx with rfl | hx
    · exact Or.inr he.symm
    · rw [heq x hx] at he
      have := h.pos x hx
      have := hsep x hx y hy (by omega)
      omega

theorem joints_merge (hy : y ∈ A) (htouch : x + len x = y) (hlen : len' x = len x + len y)
    (heq : ∀ a ∈ A, a ≠ x → len' a = len a) : joints (A \ {y}) len' ⊆ joints A len \ {y} := by
  rintro z ⟨⟨hz, hzy⟩, a, ⟨ha, -⟩, he⟩
  refine ⟨⟨hz, ?_⟩, hzy⟩
  by_cases hax : a = x
  · exact ⟨y, hy, by rw [hax] at he; omega⟩
  · exact ⟨a, ha, by rwa [heq a ha hax] at he⟩

/-! ## Maximal runs -/

theorem IsRun.unique (h : IsRun F k n) (h' : IsRun F k' n') (hle : k ≤ k') (hlt : k' < k + n) :
    k = k' ∧ n = n' := by
  obtain rfl : k = k' := by
    by_contra hne
    exact h'.below (k' - 1) (by omega) (h.inside (k' - 1) (by omega) (by omega))
  refine ⟨rfl, ?_⟩
  rcases Nat.lt_trichotomy n n' with hlt | heq | hgt
  · exact absurd (h'.inside (k + n) (by omega) (by omega)) h.above
  · exact heq
  · exact absurd (h.inside (k + n') (by omega) (by omega)) h'.above

theorem Tiling.isRun (h : Tiling A len F) (hsep : Separated A len) (hx : x ∈ A) : IsRun F x (len x) where
  pos := h.pos x hx
  inside j h1 h2 := (h.cover j).mpr ⟨x, hx, h1, h2⟩
  above := by
    rw [h.cover]
    rintro ⟨y, hy, h1, h2⟩
    have := h.pos x hx
    rcases Nat.lt_trichotomy x y with hlt | heq | hgt
    · have := hsep x hx y hy hlt
      omega
    · rw [heq] at h2; omega
    · have := hsep y hy x hx hgt
      omega
  below := by
    intro j hj
    rw [h.cover]
    rintro ⟨y, hy, h1, h2⟩
    have := hsep y hy x hx (by omega)
    omega

theorem Tiling.start_mem (h : Tiling A len F) (hk : k ∈ F) (hbelow : ∀ j, j + 1 = k → j ∉ F) : k ∈ A := by
  obtain ⟨x, hx, h1, h2⟩ := (h.cover k).mp hk
  rcases Nat.lt_or_eq_of_le h1 with hlt | rfl
  · exact absurd ((h.cover (k - 1)).mpr ⟨x, hx, by omega, by omega⟩) (hbelow (k - 1) (by omega))
  · exact hx

/-- A separated tiling lists the maximal runs. -/
theorem Tiling.mem_iff (h : Tiling A len F) (hsep : Separated A len) :
    x ∈ A ∧ len x = n ↔ IsRun F x n := by
  constructor
  · rintro ⟨hx, rfl⟩
    exact h.isRun hsep hx
  · intro hrun
    have hin := hrun.inside x le_rfl (by have := hrun.pos; omega)
    obtain ⟨y, hy, h1, h2⟩ := (h.cover x).mp hin
    obtain ⟨rfl, hlen⟩ := (h.isRun hsep hy).unique hrun h1 h2
    exact ⟨hy, hlen⟩

end Interval
