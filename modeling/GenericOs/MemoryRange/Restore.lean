import Mathlib.Data.Set.Card
import Mathlib.Order.Interval.Finset.Nat
import GenericOs.MemoryRange.BestFit
import GenericOs.MemoryRange.Lists

/-!
# Blocks that go out and come back

Whatever blocks a list of exact requests gets, giving them back in any order restores all lists.
Requests for single pages get every free page, each once.
-/

namespace GenericOs.MemoryRange

open Transition (Reachable guarded)

variable {m m' : Memory} {needs : List ℕ} {blocks blocks' : List (ℕ × ℕ)} {need : ℕ} {s : NodePtr} {out : Out}

/-- Exact requests one after the other: the blocks of those that are met, and the memory at the end. -/
def serve (m : Memory) : List Nat → Option (List (ℕ × ℕ) × Memory)
  | [] => some ([], m)
  | need :: needs => do
    let (ok, out, m) ← allocatePages m ⟨0, 0⟩ need true
    if ok then
      let (blocks, m) ← serve (m.take out.begin out.pages) needs
      return ((out.begin, out.pages) :: blocks, m)
    else serve m needs

/-- What one exact request does to the free bytes. -/
theorem Inv.exact_step (h : Inv m) (hneed : 1 ≤ need) (out : Out) :
    (¬Consecutive m need ∧ allocatePages m out need true = some (false, { out with pages := 0 }, m)) ∨
    ∃ begin m', allocatePages m out need true = some (true, ⟨need, begin⟩, m') ∧ Inv (m'.take begin need) ∧
      freeBytes (m'.take begin need) = freeBytes m \ regionBytes (begin, need) ∧
      regionBytes (begin, need) ⊆ freeBytes m ∧ begin % pageSize = 0 ∧ begin ≠ 0 ∧
      begin + need * pageSize ≤ 2 ^ 64 := by
  rcases h.allocate (Or.inl rfl : true = true ∨ ¬ Short m need true) with
    ⟨hnone, hrun⟩ | ⟨m', x, begin, A, A', hA, hrun⟩
  · obtain ⟨lists, A, hI, hL⟩ := h
    exact Or.inl ⟨(hI.picked_none_consecutive hL hneed).mp hnone, hrun out⟩
  · obtain ⟨lists, hI⟩ := hA.before
    obtain ⟨_, _, -, hL⟩ := h
    have hpos := (hI.header x hA.takes.mem).pos
    have hbegin := hA.begin_eq hneed
    refine Or.inr ⟨begin, m', hrun out, hA.inv, ?_, hA.block, hA.aligned, by omega, ?_⟩
    · rw [freeBytes_take hA.aligned, freeBytes, hA.owned]
      rfl
    · have hlast := hL.bound (hA.block (a := begin + need * pageSize - 1) ⟨by simp only [pageSize_val]; omega,
        by simp only [pageSize_val]; omega⟩)
      rw [Set.mem_Iio] at hlast
      omega

/-- The blocks are disjoint regions, they were free, and they are free no longer. -/
theorem Inv.serve_spec (h : Inv m) (hneeds : ∀ need ∈ needs, 1 ≤ need) :
    ∃ blocks m', serve m needs = some (blocks, m') ∧ Inv m' ∧ Regions blocks ∧
      (∀ p ∈ blocks, regionBytes p ⊆ freeBytes m) ∧
      ∀ j, j ∈ freeBytes m' ↔ j ∈ freeBytes m ∧ ∀ p ∈ blocks, j ∉ regionBytes p := by
  induction needs generalizing m with
  | nil => exact ⟨[], m, rfl, h, ⟨by simp, by simp, by simp, .nil⟩, by simp, by simp⟩
  | cons need needs ih =>
    have hrest : ∀ need ∈ needs, 1 ≤ need := fun n hn => hneeds n (by simp [hn])
    rcases h.exact_step (hneeds need (by simp)) ⟨0, 0⟩ with
      ⟨-, hrun⟩ | ⟨begin, m₁, hrun, hI₁, hfree₁, hin, haligned, h0, hfit⟩
    · obtain ⟨blocks, m', hserve, hall⟩ := ih h hrest
      refine ⟨blocks, m', ?_, hall⟩
      simp only [serve, hrun, Option.bind_eq_bind, Option.bind_some]
      exact hserve
    · obtain ⟨blocks, m', hserve, hI', hR, hsub, hfree'⟩ := ih hI₁ hrest
      refine ⟨(begin, need) :: blocks, m', ?_, hI', ⟨?_, ?_, ?_, ?_⟩, ?_, fun j => ?_⟩
      · simp only [serve, hrun, Option.bind_eq_bind, Option.bind_some, if_pos, hserve]
        rfl
      · exact List.forall_mem_cons.mpr ⟨haligned, hR.aligned⟩
      · exact List.forall_mem_cons.mpr ⟨h0, hR.nonzero⟩
      · exact List.forall_mem_cons.mpr ⟨hfit, hR.fits⟩
      · refine List.pairwise_cons.mpr ⟨fun p hp => ?_, hR.apart⟩
        rw [Set.disjoint_left]
        intro j hj hjp
        have := hsub p hp hjp
        rw [hfree₁] at this
        exact this.2 hj
      · refine List.forall_mem_cons.mpr ⟨hin, fun p hp => (hsub p hp).trans ?_⟩
        rw [hfree₁]
        exact Set.sdiff_subset
      · rw [hfree', hfree₁, Set.mem_sdiff, List.forall_mem_cons, and_assoc]

/-- Giving the blocks back, in whatever order, restores the ranges of every list. -/
theorem exact_restore (hr : Reachable client ExactCall m) (hneeds : ∀ need ∈ needs, 1 ≤ need) :
    ∃ blocks m', serve m needs = some (blocks, m') ∧ ∀ blocks', blocks.Perm blocks' →
      ∃ m'', insertAll m' blocks' = some m'' ∧ ∀ s ∈ sentinels, rangesIn m'' s = rangesIn m s := by
  have hI := reachable_inv hr ExactCall.sound
  obtain ⟨blocks, m', hserve, hI', hR, hsub, hfree⟩ := hI.serve_spec hneeds
  refine ⟨blocks, m', hserve, fun blocks' hp => ?_⟩
  have hout : ∀ p ∈ blocks', Disjoint (regionBytes p) (freeBytes m') := by
    intro p hpb
    rw [Set.disjoint_left]
    intro j hj hjf
    exact ((hfree j).mp hjf).2 p (hp.mem_iff.mpr hpb) hj
  obtain ⟨m'', hinsert, hI'', hfree''⟩ := insertAll_spec hI' (hR.perm hp) hout
  refine ⟨m'', hinsert, fun s hs => hI''.canonical hI ?_ hs⟩
  ext j
  rw [hfree'', hfree]
  simp only [← hp.mem_iff]
  constructor
  · rintro (⟨hj, -⟩ | ⟨p, hpb, hj⟩)
    · exact hj
    · exact hsub p hpb hj
  · intro hj
    by_cases hin : ∃ p ∈ blocks, j ∈ regionBytes p
    · exact Or.inr hin
    · exact Or.inl ⟨hj, fun p hpb hjp => hin ⟨p, hpb, hjp⟩⟩

/-- One request takes a whole range and one cuts another. The blocks come back in the other order. -/
theorem exact_restore_three : ∃ m m' m'', threeRegions.foldlM exec zeroMemory = some m ∧
    serve m [1, 1] = some ([(16384, 1), (8192, 1)], m') ∧ insertAll m' [(8192, 1), (16384, 1)] = some m'' ∧
      ∀ s ∈ sentinels, rangesIn m'' s = rangesIn m s := by
  have hrun : ((threeRegions.foldlM (guarded ExactCall exec) zeroMemory).bind
      fun m => (serve m [1, 1]).map Prod.fst) = some [(16384, 1), (8192, 1)] := by decide +kernel
  obtain ⟨m, h, hrun⟩ := Option.bind_eq_some_iff.mp hrun
  obtain ⟨hr, hcalls⟩ := zeroMemory_reaches h
  obtain ⟨blocks, m', hserve, hback⟩ := exact_restore hr (by decide : ∀ need ∈ [1, 1], 1 ≤ need)
  rw [hserve, Option.map_some, Option.some.injEq] at hrun
  obtain rfl : blocks = [(16384, 1), (8192, 1)] := hrun
  obtain ⟨m'', hinsert, hsame⟩ := hback _ (List.Perm.swap ..)
  exact ⟨m, m', m'', hcalls, hserve, hinsert, hsame⟩

/-! ## One page after the other -/

def freePages (m : Memory) : Set ℕ := {k | m.owned k = true}

theorem freePages_iff {k : ℕ} : k ∈ freePages m ↔ k * pageSize ∈ freeBytes m := by
  rw [freeBytes, Set.mem_ofPred_eq, Nat.mul_div_cancel _ (by decide)]
  rfl

theorem Inv.freePages_finite (h : Inv m) : (freePages m).Finite := by
  obtain ⟨_, _, -, hL⟩ := h
  apply (Set.finite_Iio (2 ^ 64)).subset
  intro k hk
  have := hL.bound (freePages_iff.mp hk)
  simp only [Set.mem_Iio, pageSize_val] at *
  omega

theorem freePages_take {begin : ℕ} (h : begin % pageSize = 0)
    (hfree : freeBytes m' = freeBytes m \ regionBytes (begin, 1)) :
    freePages m' = freePages m \ {begin / pageSize} := by
  ext k
  rw [Set.mem_sdiff, Set.mem_singleton_iff, freePages_iff, freePages_iff, hfree, Set.mem_sdiff]
  apply and_congr_right
  intro _
  simp only [regionBytes, Set.mem_Ico, pageSize_val] at *
  omega

theorem Inv.drain (h : Inv m) (k : ℕ) :
    ∃ (pages : List ℕ) (m' : Memory),
      serve m (List.replicate k 1) = some (pages.map fun j => (j * pageSize, 1), m') ∧ pages.Nodup ∧
      (∀ j ∈ pages, j ∈ freePages m) ∧ pages.length = min k (freePages m).ncard := by
  induction k generalizing m with
  | zero => exact ⟨[], m, rfl, .nil, by simp, by simp⟩
  | succ k ih =>
    rw [List.replicate_succ]
    rcases h.exact_step (le_refl 1) ⟨0, 0⟩ with ⟨hno, hrun⟩ | ⟨begin, m₁, hrun, hI₁, hfree₁, hin, haligned, -, -⟩
    · have hempty : freePages m = ∅ := by
        ext j
        simp only [Set.mem_empty_iff_false, iff_false]
        intro hj
        refine hno ⟨j, fun i hi => ?_⟩
        rw [Nat.lt_one_iff.mp hi, Nat.add_zero]
        exact hj
      obtain ⟨pages, m', hserve, hnodup, hmem, hlen⟩ := ih h
      refine ⟨pages, m', ?_, hnodup, hmem, ?_⟩
      · simp only [serve, hrun, Option.bind_eq_bind, Option.bind_some]
        exact hserve
      · rw [hlen, hempty, Set.ncard_empty, Nat.min_zero, Nat.min_zero]
    · have hpages := freePages_take haligned hfree₁
      have hbegin : begin / pageSize * pageSize = begin := Nat.div_mul_cancel (Nat.dvd_of_mod_eq_zero haligned)
      have hfirst : begin / pageSize ∈ freePages m := by
        rw [freePages_iff, hbegin]
        exact hin ⟨le_rfl, by simp⟩
      obtain ⟨pages, m', hserve, hnodup, hmem, hlen⟩ := ih hI₁
      refine ⟨begin / pageSize :: pages, m', ?_, ?_, ?_, ?_⟩
      · simp only [serve, hrun, Option.bind_eq_bind, Option.bind_some, if_pos, hserve, List.map_cons, hbegin]
        rfl
      · refine List.nodup_cons.mpr ⟨fun hj => ?_, hnodup⟩
        have := hmem _ hj
        rw [hpages] at this
        exact this.2 rfl
      · refine List.forall_mem_cons.mpr ⟨hfirst, fun j hj => ?_⟩
        have := hmem j hj
        rw [hpages] at this
        exact this.1
      · have hpos := (Set.ncard_pos h.freePages_finite).mpr ⟨_, hfirst⟩
        rw [List.length_cons, hlen, hpages, Set.ncard_sdiff_singleton_of_mem hfirst]
        omega

/-- So many requests for one page get different free pages, and they fail only when no page is left. -/
theorem exact_drain (hr : Reachable client ExactCall m) (k : ℕ) :
    ∃ (pages : List ℕ) (m' : Memory),
      serve m (List.replicate k 1) = some (pages.map fun j => (j * pageSize, 1), m') ∧ pages.Nodup ∧
      (∀ j ∈ pages, m.owned j = true) ∧ pages.length = min k (freePages m).ncard ∧
      ((freePages m).ncard ≤ k → ∀ j, m.owned j = true → j ∈ pages) := by
  have hI := reachable_inv hr ExactCall.sound
  obtain ⟨pages, m', hserve, hnodup, hmem, hlen⟩ := hI.drain k
  refine ⟨pages, m', hserve, hnodup, hmem, hlen, fun hle j hj => ?_⟩
  have hsub : (pages.toFinset : Set ℕ) ⊆ freePages m := fun i hi => hmem i (by simpa using hi)
  have hcard : (freePages m).ncard ≤ (pages.toFinset : Set ℕ).ncard := by
    rw [Set.ncard_coe_finset, List.toFinset_card_of_nodup hnodup, hlen]
    omega
  have heq := Set.eq_of_subset_of_ncard_le hsub hcard hI.freePages_finite
  have hj' : j ∈ (pages.toFinset : Set ℕ) := by
    rw [heq]
    exact hj
  simpa using hj'

theorem exact_drain_insert : ∃ (m : Memory) (pages : List ℕ) (m' : Memory), exec zeroMemory (.insert 8192 3) = some m ∧
    serve m (List.replicate 5 1) = some (pages.map fun j => (j * pageSize, 1), m') ∧ pages.Nodup := by
  obtain ⟨m, hrun, hr⟩ := region_reachable
  obtain ⟨pages, m', hserve, hnodup, -⟩ := exact_drain hr 5
  exact ⟨m, pages, m', hrun, hserve, hnodup⟩

end GenericOs.MemoryRange
