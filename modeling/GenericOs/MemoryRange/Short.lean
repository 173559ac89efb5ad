import GenericOs.MemoryRange.Accounting

/-!
# Requests that allow a short answer

With `exact == false` any range of the searched lists will do. A request of 512 pages or
more looks into `Aligned2MBig` only, so it leaves the smaller ranges alone.
-/

namespace GenericOs.MemoryRange

open Transition (Reachable)

variable {m : Memory} {lists : NodePtr → List NodePtr} {A : Set ℕ} {need : ℕ}

/-- Some page is free, and for a request of 512 pages or more also a range of that size. -/
def Findable (m : Memory) (need : Nat) : Prop :=
  (∃ k, m.owned k = true) ∧ (need < pagesPerHugepage ∨ ∃ p ∈ rangesIn m .addr, pagesPerHugepage ≤ p.2)

theorem Index.picked_short (hI : Index m lists A A) (hL : Layout m A) (hneed : need < 2 ^ 64) :
    picked m need false = none ↔
      ∀ x ∈ A, pagesPerHugepage ≤ need ∧ (m.range x).pages < pagesPerHugepage := by
  have hnone : picked m need false = none ↔ ∀ s ∈ searched need, ∀ x ∈ A, rangeClass m x ≠ s := by
    rw [picked, List.findSome?_eq_none_iff]
    apply forall₂_congr
    intro s hs
    exact hI.best_short hL.tiling hL.bound (searched_sub hs) hneed
  have hclass : ∀ x ∈ A, rangeClass m x = if (m.range x).pages ≥ pagesPerHugepage then .aligned2MBig else .aligned2M := by
    intro x hx
    rw [rangeClass, hI.begin x hx, sizeClass_aligned (hI.header x hx).aligned]
  rw [hnone]
  unfold searched
  constructor
  · intro hall x hx
    have hx' := fun s hs => hall s hs x hx
    rw [hclass x hx] at hx'
    split_ifs at hx' with hsmall hbig
    · simp at hx'
    · simp at hx'
    · simp at hx'
    · omega
  · intro hall s hs x hx
    obtain ⟨hbig, hshort⟩ := hall x hx
    rw [if_neg (by omega), List.mem_singleton] at hs
    rw [hclass x hx, if_neg (by omega), hs]
    simp

theorem Index.findable_iff (hI : Index m lists A A) (hL : Layout m A) :
    Findable m need ↔ ∃ x ∈ A, need < pagesPerHugepage ∨ pagesPerHugepage ≤ (m.range x).pages := by
  constructor
  · rintro ⟨⟨k, hk⟩, hsmall | ⟨⟨b, w⟩, hp, hbig⟩⟩
    · have hj : k * pageSize ∈ freeBytes m := by
        rw [freeBytes, Set.mem_ofPred_eq, Nat.mul_div_cancel _ (by decide)]
        exact hk
      obtain ⟨x, hx, -, -⟩ := (hL.tiling.cover _).mp hj
      exact ⟨x, hx, Or.inl hsmall⟩
    · obtain ⟨hb, rfl⟩ := hI.ranges_addr.mp hp
      exact ⟨b, hb, Or.inr hbig⟩
  · rintro ⟨x, hx, hor⟩
    refine ⟨⟨_, (hI.header x hx).owned⟩, hor.imp_right fun hbig => ?_⟩
    exact ⟨(x, (m.range x).pages), hI.ranges_addr.mpr ⟨hx, rfl⟩, hbig⟩

theorem Index.picked_none_iff (hI : Index m lists A A) (hL : Layout m A) (hneed : need < 2 ^ 64) :
    picked m need false = none ↔ ¬ Findable m need := by
  rw [hI.picked_short hL hneed, hI.findable_iff hL]
  constructor
  · rintro hall ⟨x, hx, hor⟩
    have := hall x hx
    omega
  · intro hno x hx
    exact ⟨Nat.not_lt.mp fun hlt => hno ⟨x, hx, Or.inl hlt⟩, Nat.not_le.mp fun hle => hno ⟨x, hx, Or.inr hle⟩⟩

theorem Inv.picked_none_iff (h : Inv m) (hneed : need < 2 ^ 64) : picked m need false = none ↔ ¬ Findable m need := by
  obtain ⟨lists, A, hI, hL⟩ := h
  exact hI.picked_none_iff hL hneed

/-- The block that a successful call returns. -/
structure Granted (m : Memory) (need : Nat) (out : Out) : Prop where
  pos : 1 ≤ out.pages
  le : out.pages ≤ need
  aligned : out.begin % pageSize = 0
  free : Set.Ico out.begin (out.begin + out.pages * pageSize) ⊆ freeBytes m

theorem Inv.granted_short (h : Inv m) (hshort : Short m need false) :
    ∃ out' m', (∀ out, allocatePages m out need false = some (true, out', m')) ∧ Granted m need out' := by
  obtain ⟨lists, A, hI, hL⟩ := h
  obtain ⟨n, hn, hlt⟩ := hshort
  obtain ⟨x, m', lists', hx, rfl, hrun, -, -⟩ := allocatePages_short hI hL.tiling hL.bound hn hlt
  rw [hI.sizeWeight x hx] at hlt
  refine ⟨_, m', hrun, ?_, hlt.le, (hI.header x hx).aligned, ?_⟩
  · have hpos := hL.tiling.pos x hx
    rw [len] at hpos
    exact Nat.pos_of_mul_pos_right hpos
  · rintro j ⟨h1, h2⟩
    exact (hL.tiling.cover j).mpr ⟨x, hx, h1, h2⟩

theorem Inv.allocate_short (h : Inv m) (hpos : 1 ≤ need) (hneed : need < 2 ^ 64) (out : Out) :
    ∃ ok out' m', allocatePages m out need false = some (ok, out', m') ∧ (ok = true ↔ Findable m need) ∧
      (ok = true → Granted m need out') ∧ (ok = false → out'.pages = 0 ∧ m' = m) := by
  have hnone_iff := h.picked_none_iff hneed
  by_cases hshort : Short m need false
  · obtain ⟨out', m', hrun, hG⟩ := h.granted_short hshort
    obtain ⟨n, hn, -⟩ := hshort
    have hfind : Findable m need := by
      by_contra hno
      rw [hnone_iff.mpr hno] at hn
      cases hn
    exact ⟨true, out', m', hrun out, ⟨fun _ => hfind, fun _ => rfl⟩, fun _ => hG, by simp⟩
  · rcases h.allocate (Or.inr hshort) with ⟨hnone, hrun⟩ | ⟨m', x, begin, A, A', hA, hrun⟩
    · have hno := hnone_iff.mp hnone
      exact ⟨false, _, m, hrun out, ⟨by simp, fun hf => absurd hf hno⟩, by simp, fun _ => ⟨rfl, rfl⟩⟩
    · have hfind : Findable m need := by
        by_contra hno
        have hpicked := hA.picked
        rw [hnone_iff.mpr hno] at hpicked
        cases hpicked
      exact ⟨true, _, m', hrun out, ⟨fun _ => hfind, fun _ => rfl⟩,
        fun _ => ⟨hpos, le_rfl, hA.aligned, hA.block⟩, by simp⟩

/-- A request that allows a short answer is met from free pages whenever a searched list has a range,
and otherwise nothing changes. -/
theorem exact_short_request (hr : Reachable client ExactCall m) (hpos : 1 ≤ need) (hneed : need < 2 ^ 64)
    (out : Out) :
    ∃ ok out' m', allocatePages m out need false = some (ok, out', m') ∧ (ok = true ↔ Findable m need) ∧
      (ok = true → Granted m need out') ∧ (ok = false → out'.pages = 0 ∧ m' = m) :=
  (reachable_inv hr ExactCall.sound).allocate_short hpos hneed out

theorem exact_short_request_insert :
    ∃ m ok out' m', exec zeroMemory (.insert 8192 3) = some m ∧
      allocatePages m ⟨0, 0⟩ 5 false = some (ok, out', m') ∧ (ok = true ↔ Findable m 5) := by
  obtain ⟨m, hrun, hr⟩ := region_reachable
  obtain ⟨ok, out', m', hcall, hok, -, -⟩ :=
    exact_short_request hr (by decide : 1 ≤ 5) (by decide) ⟨0, 0⟩
  exact ⟨m, ok, out', m', hrun, hcall, hok⟩

/-- One page is free, but a request of 512 pages does not look into its list. -/
theorem exact_short_request_fails :
    ∃ m out', exec zeroMemory (.insert 4096 1) = some m ∧ Reachable client ExactCall m ∧ m.owned 1 = true ∧
      ∃ m', allocatePages m ⟨0, 0⟩ 512 false = some (false, out', m') := by
  have hrun : (exec zeroMemory (.insert 4096 1)).map (fun m =>
      (m.owned 1, (allocatePages m ⟨0, 0⟩ 512 false).map (fun r => r.1))) = some (true, some false) := by
    decide +kernel
  obtain ⟨m, h, hm⟩ := Option.map_eq_some_iff.mp hrun
  obtain ⟨howned, hcall⟩ := Prod.mk.inj hm
  obtain ⟨⟨ok, out', m'⟩, hcall, rfl⟩ := Option.map_eq_some_iff.mp hcall
  have hc : ExactCall zeroMemory (.insert 4096 1) :=
    ⟨zeroMemory_region (by decide) (by decide), by decide⟩
  exact ⟨m, out', h, .step (.init zeroMemory_start) hc h, howned, m', hcall⟩

end GenericOs.MemoryRange
