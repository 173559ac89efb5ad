import GenericOs.MemoryRange.Accounting

/-!
# Exact requests, in terms of the free pages

A request is met exactly when that many consecutive pages are free. The pages come from the
upper end of a shortest run of free pages that is long enough.
-/

namespace GenericOs.MemoryRange

open Interval (Tiling Separated IsRun)
open Transition (Reachable guarded)

variable {m m' : Memory} {lists : NodePtr → List NodePtr} {A : Set ℕ} {s n : NodePtr} {need x y : ℕ}

theorem Index.rangeClass_eq (hI : Index m lists A A) (hx : x ∈ A) :
    rangeClass m x = if (m.range x).pages ≥ pagesPerHugepage then .aligned2MBig else .aligned2M := by
  rw [rangeClass, hI.begin x hx, sizeClass_aligned (hI.header x hx).aligned]

/-- An exact search finds the smallest range of its list that is large enough. -/
theorem Index.best_least (hI : Index m lists A A) (hs : s ∈ sizeSentinels)
    (hn : best m need true s = some (sizeNode x)) (hx : x ∈ A) (hy : y ∈ A) (hc : rangeClass m y = s)
    (hle : need ≤ (m.range y).pages) : (m.range x).pages ≤ (m.range y).pages := by
  obtain ⟨ht, hT⟩ := hI.forest.threaded s hs.1
  have hsorted := hI.forest.sorted s hs.1
  have hbest := SkipList.skipListBest_exact (w := need) hT.searchable hsorted (hI.length_lt hs.1)
  rw [hI.best_eq hs.1, hn] at hbest
  obtain ⟨-, front, rest, hlists, hfront⟩ := List.find?_eq_some_iff_append.mp (Option.some.inj hbest).symm
  have hmem : sizeNode y ∈ lists s := (hI.size_iff hs).mpr ⟨hy, hc⟩
  rw [hlists, List.mem_append, List.mem_cons] at hmem
  rcases hmem with hlow | heq | hhigh
  · -- The nodes in front of it are too light.
    have := hfront _ hlow
    rw [hI.sizeWeight y hy] at this
    simp [hle] at this
  · rw [sizeNode_inj.mp heq]
  · rw [hlists] at hsorted
    have hlight := (List.pairwise_cons.mp (List.pairwise_append.mp hsorted).2.1).1 _ hhigh
    rwa [hI.sizeWeight x hx, hI.sizeWeight y hy] at hlight

/-- The lists are searched from the smaller ranges to the larger ones. -/
theorem Index.picked_least (hI : Index m lists A A) (hn : picked m need true = some (sizeNode x)) (hx : x ∈ A)
    (hy : y ∈ A) (hle : need ≤ (m.range y).pages) : (m.range x).pages ≤ (m.range y).pages := by
  obtain ⟨s, hs, hbest, hearlier⟩ : ∃ s ∈ searched need, best m need true s = some (sizeNode x) ∧
      (s = .aligned2MBig → need < pagesPerHugepage → best m need true .aligned2M = none) := by
    unfold picked searched at hn
    unfold searched
    split_ifs at hn ⊢ with hsmall
    · simp only [List.findSome?_cons, List.findSome?_nil] at hn
      cases hu : best m need true .unaligned2M with
      | some n =>
        rw [hu] at hn
        exact ⟨.unaligned2M, by simp, hu.trans hn, by simp⟩
      | none =>
        rw [hu] at hn
        cases ha : best m need true .aligned2M with
        | some n =>
          rw [ha] at hn
          exact ⟨.aligned2M, by simp, ha.trans hn, by simp⟩
        | none =>
          rw [ha] at hn
          refine ⟨.aligned2MBig, by simp, ?_, fun _ _ => rfl⟩
          cases hb : best m need true .aligned2MBig with
          | some n => rw [hb] at hn; exact hn
          | none => simp [hb] at hn
    · refine ⟨.aligned2MBig, by simp, ?_, fun _ hlt => absurd hlt hsmall⟩
      cases hb : best m need true .aligned2MBig with
      | some n => simpa [hb] using hn
      | none => simp [hb] at hn
  obtain ⟨z, hz, he, hclass⟩ := hI.best_mem (searched_sub hs) hbest
  obtain rfl := sizeNode_inj.mp he
  have hclassx := hI.rangeClass_eq hx
  have hclassy := hI.rangeClass_eq hy
  by_cases hcy : rangeClass m y = s
  · exact hI.best_least (searched_sub hs) hbest hx hy hcy hle
  · rw [hclass] at hclassx
    split_ifs at hclassx hclassy with hbigx hbigy hbigy
    · exact absurd (hclassy.trans hclassx.symm) hcy
    · -- No range of the other list was large enough.
      have hsmall : need < pagesPerHugepage := by omega
      have hin : .aligned2M ∈ searched need := by rw [searched, if_pos hsmall]; simp
      have := (hI.best_exact (searched_sub hin)).2 (hearlier hclassx hsmall) y hy hclassy
      omega
    · omega
    · exact absurd (hclassy.trans hclassx.symm) hcy

/-- So many consecutive pages are free. -/
def Consecutive (m : Memory) (need : Nat) : Prop := ∃ k, ∀ i < need, m.owned (k + i) = true

theorem Index.consecutive_iff (hI : Index m lists A A) (hL : Layout m A) (hneed : 1 ≤ need) :
    Consecutive m need ↔ ∃ x ∈ A, need ≤ (m.range x).pages := by
  have hpage : ∀ k i, (k * pageSize + i * pageSize) / pageSize = k + i := by
    intro k i
    rw [← Nat.add_mul, Nat.mul_div_cancel _ (by decide)]
  constructor
  · rintro ⟨k, hk⟩
    have hmem : ∀ i < need, k * pageSize + i * pageSize ∈ freeBytes m := by
      intro i hi
      rw [freeBytes, Set.mem_ofPred_eq, hpage]
      exact hk i hi
    obtain ⟨x, hx, hlow, hhigh⟩ := (hL.tiling.cover _).mp (hmem 0 hneed)
    have hrun := hL.tiling.isRun hL.separated hx
    have haligned := (hI.header x hx).aligned
    refine ⟨x, hx, ?_⟩
    by_contra hlt
    -- The range would end inside the free pages.
    have habove := hrun.above
    obtain ⟨i, hi⟩ : ∃ i, x + len m x = k * pageSize + i * pageSize ∧ i < need := by
      refine ⟨(x + len m x) / pageSize - k, ?_, ?_⟩
      · simp only [len, pageSize_val] at *
        omega
      · simp only [len, pageSize_val] at *
        omega
    rw [hi.1] at habove
    exact habove (hmem i hi.2)
  · rintro ⟨x, hx, hle⟩
    have haligned := (hI.header x hx).aligned
    refine ⟨x / pageSize, fun i hi => ?_⟩
    have hin : x + i * pageSize ∈ freeBytes m := by
      refine (hL.tiling.cover _).mpr ⟨x, hx, by omega, ?_⟩
      simp only [len, pageSize_val] at *
      omega
    rw [freeBytes, Set.mem_ofPred_eq] at hin
    rwa [show (x + i * pageSize) / pageSize = x / pageSize + i by simp only [pageSize_val] at *; omega] at hin

theorem Index.picked_none_consecutive (hI : Index m lists A A) (hL : Layout m A) (hneed : 1 ≤ need) :
    picked m need true = none ↔ ¬Consecutive m need := by
  rw [hI.consecutive_iff hL hneed]
  constructor
  · rintro hnone ⟨x, hx, hle⟩
    have := hI.picked_none hnone x hx
    omega
  · intro hno
    cases hp : picked m need true with
    | none => rfl
    | some n =>
      obtain ⟨s, hs, hb, -⟩ := allocatePages_first hI hp
      obtain ⟨x, hx, rfl, -⟩ := hI.best_mem (searched_sub hs) hb
      have hle := (hI.best_exact (searched_sub hs)).1 _ hb
      rw [hI.sizeWeight x hx] at hle
      exact absurd ⟨x, hx, hle⟩ hno

/-- The block is the upper end of a shortest run of free pages that is long enough. -/
structure BestFit (m : Memory) (need : Nat) (out : Out) : Prop where
  pages : out.pages = need
  run : ∃ b w, IsRun (freeBytes m) b (w * pageSize) ∧ need ≤ w ∧ out.begin = b + (w - need) * pageSize ∧
    ∀ b' w', IsRun (freeBytes m) b' (w' * pageSize) → need ≤ w' → w ≤ w'

theorem Inv.bestFit (h : Inv m) (hneed : 1 ≤ need) (out : Out) :
    ∃ ok out' m', allocatePages m out need true = some (ok, out', m') ∧ (ok = true ↔ Consecutive m need) ∧
      (ok = true → BestFit m need out') := by
  rcases h.allocate (Or.inl rfl : true = true ∨ ¬ Short m need true) with
    ⟨hnone, hrun⟩ | ⟨m', x, begin, A, A', hA, hrun⟩
  · obtain ⟨lists, A, hI, hL⟩ := h
    have hno := (hI.picked_none_consecutive hL hneed).mp hnone
    exact ⟨false, _, m, hrun out, ⟨by simp, fun hc => absurd hc hno⟩, by simp⟩
  · have hruns := fun b w => h.ranges_iff (b := b) (w := w)
    obtain ⟨lists, A₀, hI₀, hL₀⟩ := h
    obtain ⟨lists', hI⟩ := hA.before
    have hx := hA.takes.mem
    refine ⟨true, _, m', hrun out, ⟨fun _ => ?_, fun _ => rfl⟩, fun _ => ⟨rfl, x, (m.range x).pages, ?_, hA.takes.le,
      hA.begin_eq hneed, ?_⟩⟩
    · by_contra hno
      have hpicked := hA.picked
      rw [(hI₀.picked_none_consecutive hL₀ hneed).mpr hno] at hpicked
      cases hpicked
    · rw [← hruns, hI.ranges_addr]
      exact ⟨hx, rfl⟩
    · intro b w hbw hle
      rw [← hruns, hI.ranges_addr] at hbw
      obtain ⟨hb, rfl⟩ := hbw
      exact hI.picked_least hA.picked hx hb hle

/-- Exact requests in every reachable state. -/
theorem exact_best_fit (hr : Reachable client ExactCall m) (hneed : 1 ≤ need) (out : Out) :
    ∃ ok out' m', allocatePages m out need true = some (ok, out', m') ∧ (ok = true ↔ Consecutive m need) ∧
      (ok = true → BestFit m need out') :=
  (reachable_inv hr ExactCall.sound).bestFit hneed out

/-- With runs of two pages and of one page, a request for one page gets the single one. -/
theorem exact_best_fit_three :
    ∃ m out' m', threeRegions.foldlM exec zeroMemory = some m ∧ (m.range 4096).pages = 2 ∧ (m.range 16384).pages = 1 ∧
      allocatePages m ⟨0, 0⟩ 1 true = some (true, out', m') ∧ out'.begin = 16384 ∧ BestFit m 1 out' := by
  have hrun : (threeRegions.foldlM (guarded ExactCall exec) zeroMemory).map
      (fun m => ((m.range 4096).pages, (m.range 16384).pages,
        (allocatePages m ⟨0, 0⟩ 1 true).map fun r => (r.1, r.2.1.begin))) =
      some (2, 1, some (true, 16384)) := by decide +kernel
  obtain ⟨m, h, hrun⟩ := Option.map_eq_some_iff.mp hrun
  simp only [Prod.mk.injEq] at hrun
  obtain ⟨htwo, hone, hserved⟩ := hrun
  obtain ⟨hr, hcalls⟩ := zeroMemory_reaches h
  obtain ⟨ok, out', m', hcall, -, hfit⟩ := exact_best_fit hr (by decide : 1 ≤ 1) ⟨0, 0⟩
  rw [hcall, Option.map_some, Option.some.injEq, Prod.mk.injEq] at hserved
  obtain ⟨rfl, hbegin⟩ := hserved
  exact ⟨m, out', m', hcalls, htwo, hone, hcall, hbegin, hfit rfl⟩

end GenericOs.MemoryRange
