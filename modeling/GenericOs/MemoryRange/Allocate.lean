import Mathlib.Order.Interval.Set.Basic
import GenericOs.MemoryRange.Proofs
import GenericOs.SkipList.Best

/-!
# Allocating a block

`AllocatePages` goes through one or three size lists and takes from the first range
that `SkipListBest` finds. A range with enough pages loses its tail or disappears.
-/

namespace GenericOs.MemoryRange

open SkipList (Heap Node Forest)
open Interval (Tiling Separated)

variable {m m' : Memory} {lists : NodePtr → List NodePtr} {A A' F : Set ℕ} {x need : ℕ} {exact : Bool}
  {s n : NodePtr} {out : Out}

/-- The size lists that `AllocatePages` searches, in this order. -/
def searched (need : Nat) : List NodePtr :=
  if need < pagesPerHugepage then [.unaligned2M, .aligned2M, .aligned2MBig] else [.aligned2MBig]

def best (m : Memory) (need : Nat) (exact : Bool) (s : NodePtr) : Option NodePtr :=
  (SkipList.skipListBest rounds m.heap (some s) need exact).join

/-- The size node that `AllocatePages` takes pages from. -/
def picked (m : Memory) (need : Nat) (exact : Bool) : Option NodePtr :=
  (searched need).findSome? (best m need exact)

theorem searched_sub (hs : s ∈ searched need) : s ∈ sizeSentinels := by
  have hs : s = .unaligned2M ∨ s = .aligned2M ∨ s = .aligned2MBig := by
    unfold searched at hs
    split_ifs at hs <;> simp at hs <;> tauto
  rcases hs with rfl | rfl | rfl <;> exact ⟨by intro a; simp, by simp⟩

/-! ## `SkipListBest` on a size list -/

theorem Index.best_eq (hI : Index m lists A A) (hs : s ∈ sentinels) (need : Nat) (exact : Bool) :
    SkipList.skipListBest rounds m.heap (some s) need exact = some (best m need exact s) := by
  obtain ⟨ht, hT⟩ := hI.forest.threaded s hs
  obtain ⟨r, hr, -⟩ := SkipList.skipListBest_mem (w := need) hT.searchable (hI.forest.sorted s hs) (hI.length_lt hs) exact
  rw [best, hr]
  rfl

theorem Index.best_mem (hI : Index m lists A A) (hs : s ∈ sizeSentinels) (hn : best m need exact s = some n) :
    ∃ x ∈ A, n = sizeNode x ∧ rangeClass m x = s := by
  obtain ⟨ht, hT⟩ := hI.forest.threaded s hs.1
  obtain ⟨r, hr, hmem⟩ :=
    SkipList.skipListBest_mem (w := need) hT.searchable (hI.forest.sorted s hs.1) (hI.length_lt hs.1) exact
  rw [hI.best_eq hs.1, hn] at hr
  obtain rfl := Option.some.inj hr
  exact (hI.size_mem s hs n).mp (hmem n rfl)

/-- An exact search finds a range when there is one, and one that is large enough. -/
theorem Index.best_exact (hI : Index m lists A A) (hs : s ∈ sizeSentinels) :
    (∀ n, best m need true s = some n → need ≤ m.heap.weight n) ∧
      (best m need true s = none → ∀ x ∈ A, rangeClass m x = s → (m.range x).pages < need) := by
  obtain ⟨ht, hT⟩ := hI.forest.threaded s hs.1
  have hbest := SkipList.skipListBest_exact (w := need) hT.searchable (hI.forest.sorted s hs.1) (hI.length_lt hs.1)
  rw [hI.best_eq hs.1] at hbest
  have hbest := Option.some.inj hbest
  constructor
  · intro n hn
    rw [hbest] at hn
    simpa using List.find?_some hn
  · intro hn x hx hc
    rw [hbest, List.find?_eq_none] at hn
    have := hn (sizeNode x) ((hI.size_iff hs).mpr ⟨hx, hc⟩)
    rw [hI.sizeWeight x hx] at this
    simpa using this

theorem pages_lt {F : Set ℕ} (hT : Tiling A (len m) F) (hF : F ⊆ Set.Iio (2 ^ 64)) (hx : x ∈ A) :
    (m.range x).pages < 2 ^ 64 := by
  have hend := tiling_end hT hF hx
  simp only [len, pageSize_val] at hend
  omega

/-- Any other search only comes back without a range when the list is empty. -/
theorem Index.best_short (hI : Index m lists A A) (hT : Tiling A (len m) F) (hF : F ⊆ Set.Iio (2 ^ 64))
    (hs : s ∈ sizeSentinels) (hneed : need < 2 ^ 64) :
    best m need false s = none ↔ ∀ x ∈ A, rangeClass m x ≠ s := by
  obtain ⟨ht, hthread⟩ := hI.forest.threaded s hs.1
  have hsearch := hthread.searchable
  have hbest := hI.best_eq hs.1 need false
  constructor
  · intro hn x hx hc
    have hmem : sizeNode x ∈ lists s := (hI.size_iff hs).mpr ⟨hx, hc⟩
    have hsize : ∀ n ∈ lists s, m.heap.weight n ≤ SkipList.sizeMax := by
      intro n hn
      obtain ⟨r, hr, rfl, -⟩ := (hI.size_mem s hs n).mp hn
      rw [hI.sizeWeight r hr]
      exact Nat.le_pred_of_lt (pages_lt hT hF hr)
    obtain ⟨r, hr, -⟩ := SkipList.skipListBest_short hsearch (hI.forest.sorted s hs.1) (hI.length_lt hs.1)
      (Nat.le_pred_of_lt hneed) hsize (List.ne_nil_of_mem hmem)
    rw [hbest, hn] at hr
    cases hr
  · intro hnone
    cases hb : best m need false s with
    | none => rfl
    | some n =>
      obtain ⟨x, hx, -, hc⟩ := hI.best_mem hs hb
      exact absurd hc (hnone x hx)

/-! ## `AllocatePagesFromList` -/

/-- `x` loses `need` pages at its end, or disappears when it has no more than these. -/
structure Takes (m m' : Memory) (A A' : Set ℕ) (x need : Nat) : Prop where
  mem : x ∈ A
  le : need ≤ (m.range x).pages
  cases : (need = (m.range x).pages ∧ A' = A \ {x} ∧ m'.range = m.range) ∨
    (need < (m.range x).pages ∧ A' = A ∧
      m'.range = Function.update m.range x { m.range x with pages := (m.range x).pages - need })

theorem allocatePagesFromList_none (hI : Index m lists A A) (hs : s ∈ sizeSentinels)
    (hn : best m need exact s = none) :
    allocatePagesFromList m s out need exact = some (false, { out with pages := 0 }, m) := by
  unfold allocatePagesFromList
  simp only [hI.best_eq hs.1, hn, Option.bind_eq_bind, Option.bind_some]
  rfl

/-- With a range to take from: all of it is taken when it has exactly the pages that are needed. -/
theorem allocatePagesFromList_eq (hI : Index m lists A A) (hs : s ∈ sizeSentinels) (hx : x ∈ A)
    (hn : best m need exact s = some (sizeNode x)) :
    allocatePagesFromList m s out need exact =
      let pages := min (m.range x).pages need
      let out : Out := ⟨pages, word (x + word (((m.range x).pages - pages) * pageSize))⟩
      if (m.range x).pages = need then (memoryRangeRemove m x).map fun m' => (true, out, m')
      else (setMemoryRangePages m x (wordSub (m.range x).pages pages)).map fun m' => (true, out, m') := by
  have hh := hI.header x hx
  have hload : m.heap.load (sizeNode x) = some (m.heap.node (sizeNode x)) :=
    Heap.load_eq (live_sizeNode hh.aligned hh.owned)
  have hweight : (m.heap.node (sizeNode x)).weight = (m.range x).pages := hI.sizeWeight x hx
  have hpayload : (m.heap.node (sizeNode x)).payload = x := hh.sizePayload
  unfold allocatePagesFromList
  simp only [hI.best_eq hs.1, hn, hload, hweight, hpayload, hh.load, hI.begin x hx, Option.bind_eq_bind,
    Option.bind_some]
  split_ifs <;> exact (Option.map_eq_bind ..).symm

theorem allocatePagesFromList_some (hI : Index m lists A A) (hT : Tiling A (len m) F)
    (hF : F ⊆ Set.Iio (2 ^ 64)) (hs : s ∈ sizeSentinels) (hx : x ∈ A)
    (hn : best m need exact s = some (sizeNode x)) (hle : need ≤ (m.range x).pages) :
    ∃ m' lists' A', (∀ out, allocatePagesFromList m s out need exact =
        some (true, ⟨need, word (x + ((m.range x).pages - need) * pageSize)⟩, m')) ∧
      Index m' lists' A' A' ∧ m'.owned = m.owned ∧ Takes m m' A A' x need := by
  have hend := tiling_end hT hF hx
  have hpos := (hI.header x hx).pos
  unfold len at hend
  have hmul : ((m.range x).pages - need) * pageSize ≤ (m.range x).pages * pageSize :=
    Nat.mul_le_mul_right _ (Nat.sub_le ..)
  have hwmul : word (((m.range x).pages - need) * pageSize) = ((m.range x).pages - need) * pageSize :=
    word_eq (by omega)
  rcases Nat.eq_or_lt_of_le hle with heq | hlt
  · obtain ⟨m', lists', hrem, hI', howned, hrange⟩ := memoryRangeRemove_spec hI hx
    refine ⟨m', lists', _, fun out => ?_, hI', howned, hx, hle, Or.inl ⟨heq, rfl, hrange⟩⟩
    simp only [allocatePagesFromList_eq hI hs hx hn, Nat.min_eq_right hle, hwmul, if_pos heq.symm, hrem,
      Option.map_some]
  · obtain ⟨m', lists', hset, hI', howned, hrange⟩ :=
      setMemoryRangePages_spec hI hx (Or.inl hx) ((m.range x).pages - need)
    rw [Set.insert_eq_of_mem hx] at hI'
    refine ⟨m', lists', _, fun out => ?_, hI', howned, hx, hle, Or.inr ⟨hlt, rfl, hrange⟩⟩
    simp only [allocatePagesFromList_eq hI hs hx hn, Nat.min_eq_right hle, hwmul, if_neg hlt.ne',
      wordSub_eq hle (pages_lt hT hF hx), hset, Option.map_some]

/-- A range with fewer pages is handed out whole, but stays linked, without pages. -/
theorem allocatePagesFromList_short (hI : Index m lists A A) (hT : Tiling A (len m) F)
    (hF : F ⊆ Set.Iio (2 ^ 64)) (hs : s ∈ sizeSentinels) (hx : x ∈ A)
    (hn : best m need exact s = some (sizeNode x)) (hlt : (m.range x).pages < need) :
    ∃ m' lists', (∀ out, allocatePagesFromList m s out need exact =
        some (true, ⟨(m.range x).pages, x⟩, m')) ∧
      Index m' lists' A A ∧ (m'.range x).pages = 0 := by
  have hword : word (x + word (0 * pageSize)) = x := by
    rw [Nat.zero_mul, word_eq (by decide : 0 < 2 ^ 64), Nat.add_zero, word_eq (hI.header x hx).lt]
  obtain ⟨m', lists', hset, hI', -, hrange⟩ := setMemoryRangePages_spec hI hx (Or.inl hx) 0
  rw [Set.insert_eq_of_mem hx] at hI'
  refine ⟨m', lists', fun out => ?_, hI', by rw [hrange, Function.update_self]⟩
  simp only [allocatePagesFromList_eq hI hs hx hn, Nat.min_eq_left hlt.le, Nat.sub_self, hword, if_neg hlt.ne,
    wordSub_eq le_rfl (pages_lt hT hF hx), hset, Option.map_some]

/-! ## `AllocatePages` -/

theorem allocatePages_none (hI : Index m lists A A) (hn : picked m need exact = none) :
    allocatePages m out need exact = some (false, { out with pages := 0 }, m) := by
  have hnone : ∀ s ∈ searched need, ∀ out,
      allocatePagesFromList m s out need exact = some (false, { out with pages := 0 }, m) := by
    intro s hs out
    exact allocatePagesFromList_none hI (searched_sub hs) (List.findSome?_eq_none_iff.mp hn s hs)
  unfold allocatePages
  unfold searched at hnone
  split_ifs at hnone ⊢ with hneed
  · rw [hnone .unaligned2M (by simp)]
    simp only [Option.bind_eq_bind, Option.bind_some, Bool.false_eq_true, if_false]
    rw [hnone .aligned2M (by simp)]
    simp only [Option.bind_some, Bool.false_eq_true, if_false]
    rw [hnone .aligned2MBig (by simp)]
  · rw [hnone .aligned2MBig (by simp)]

/-- The first list with an answer decides. -/
theorem allocatePages_first (hI : Index m lists A A) (hn : picked m need exact = some n) :
    ∃ s ∈ searched need, best m need exact s = some n ∧
      ∀ out' m', (∀ out, allocatePagesFromList m s out need exact = some (true, out', m')) →
        ∀ out, allocatePages m out need exact = some (true, out', m') := by
  have hnone : ∀ s ∈ searched need, best m need exact s = none → ∀ out,
      allocatePagesFromList m s out need exact = some (false, { out with pages := 0 }, m) := by
    intro s hs hb out
    exact allocatePagesFromList_none hI (searched_sub hs) hb
  unfold allocatePages
  unfold picked searched at hn
  unfold searched at hnone ⊢
  split_ifs at hn hnone ⊢ with hneed
  · cases h1 : best m need exact .unaligned2M with
    | some k =>
      obtain rfl : k = n := by simpa [h1] using hn
      refine ⟨.unaligned2M, by simp, h1, fun out' m' hrun out => ?_⟩
      rw [hrun]
      rfl
    | none =>
      cases h2 : best m need exact .aligned2M with
      | some k =>
        obtain rfl : k = n := by simpa [h1, h2] using hn
        refine ⟨.aligned2M, by simp, h2, fun out' m' hrun out => ?_⟩
        rw [hnone _ (by simp) h1]
        simp only [Option.bind_eq_bind, Option.bind_some, Bool.false_eq_true, if_false]
        rw [hrun]
        rfl
      | none =>
        have h3 : best m need exact .aligned2MBig = some n := by simpa [h1, h2] using hn
        refine ⟨.aligned2MBig, by simp, h3, fun out' m' hrun out => ?_⟩
        rw [hnone _ (by simp) h1]
        simp only [Option.bind_eq_bind, Option.bind_some, Bool.false_eq_true, if_false]
        rw [hnone _ (by simp) h2]
        simp only [Option.bind_some, Bool.false_eq_true, if_false]
        exact hrun _
  · have h3 : best m need exact .aligned2MBig = some n := by simpa using hn
    exact ⟨.aligned2MBig, by simp, h3, fun out' m' hrun out => hrun _⟩

/-- The picked range has enough pages: it loses them. -/
theorem allocatePages_some (hI : Index m lists A A) (hT : Tiling A (len m) F) (hF : F ⊆ Set.Iio (2 ^ 64))
    (hn : picked m need exact = some n) (hle : need ≤ m.heap.weight n) :
    ∃ x m' lists' A', n = sizeNode x ∧
      (∀ out, allocatePages m out need exact =
        some (true, ⟨need, word (x + ((m.range x).pages - need) * pageSize)⟩, m')) ∧
      Index m' lists' A' A' ∧ m'.owned = m.owned ∧ Takes m m' A A' x need := by
  obtain ⟨s, hs, hb, hrun⟩ := allocatePages_first hI hn
  obtain ⟨x, hx, rfl, -⟩ := hI.best_mem (searched_sub hs) hb
  rw [hI.sizeWeight x hx] at hle
  obtain ⟨m', lists', A', hlist, hI', howned, htakes⟩ :=
    allocatePagesFromList_some hI hT hF (searched_sub hs) hx hb hle
  exact ⟨x, m', lists', A', rfl, hrun _ _ hlist, hI', howned, htakes⟩

theorem allocatePages_short (hI : Index m lists A A) (hT : Tiling A (len m) F) (hF : F ⊆ Set.Iio (2 ^ 64))
    (hn : picked m need exact = some n) (hlt : m.heap.weight n < need) :
    ∃ x m' lists', x ∈ A ∧ n = sizeNode x ∧
      (∀ out, allocatePages m out need exact = some (true, ⟨(m.range x).pages, x⟩, m')) ∧
      Index m' lists' A A ∧ (m'.range x).pages = 0 := by
  obtain ⟨s, hs, hb, hrun⟩ := allocatePages_first hI hn
  obtain ⟨x, hx, rfl, -⟩ := hI.best_mem (searched_sub hs) hb
  rw [hI.sizeWeight x hx] at hlt
  obtain ⟨m', lists', hlist, hI', hzero⟩ :=
    allocatePagesFromList_short hI hT hF (searched_sub hs) hx hb hlt
  exact ⟨x, m', lists', hx, rfl, hrun _ _ hlist, hI', hzero⟩

/-! ## What is left -/

/-- The pages that `x` loses are the last ones of its run. -/
theorem Takes.tiling (h : Takes m m' A A' x need) (hT : Tiling A (len m) F) :
    Tiling A' (len m') (F \ Set.Ico (x + ((m.range x).pages - need) * pageSize) (x + len m x)) := by
  rcases h.cases with ⟨heq, rfl, hrange⟩ | ⟨hlt, rfl, hrange⟩
  · have hlen : len m' = len m := by
      funext y
      rw [len, hrange, len]
    rw [hlen, heq, Nat.sub_self, Nat.zero_mul, Nat.add_zero]
    exact hT.erase h.mem
  · have hlenx : len m' x = ((m.range x).pages - need) * pageSize := by
      rw [len_update hrange]
    rw [← hlenx]
    refine hT.shrink (k := need * pageSize) h.mem ?_ ?_ ?_
    · exact Nat.mul_lt_mul_of_pos_right hlt (by decide)
    · rw [hlenx, Nat.sub_mul]
      rfl
    · intro a _ hax
      exact len_update_of_ne hrange hax

theorem Takes.sub (h : Takes m m' A A' x need) : A' ⊆ A := by
  rcases h.cases with ⟨-, rfl, -⟩ | ⟨-, rfl, -⟩
  · exact Set.sdiff_subset
  · exact subset_rfl

theorem Takes.separated (h : Takes m m' A A' x need) (hsep : Separated A (len m)) :
    Separated A' (len m') := by
  rcases h.cases with ⟨-, rfl, hrange⟩ | ⟨-, rfl, hrange⟩
  · exact hsep.mono Set.sdiff_subset fun a _ => by rw [len, hrange, len]
  · refine hsep.mono subset_rfl fun a _ => ?_
    by_cases hax : a = x
    · subst hax
      rw [len_update hrange]
      exact Nat.mul_le_mul_right _ (Nat.sub_le ..)
    · exact (len_update_of_ne hrange hax).le

/-- The block that `AllocatePages` returns is the end of `x`. Without pages its address may wrap. -/
theorem Takes.block (h : Takes m m' A A' x need) (hr : x % pageSize = 0) (hend : x + len m x ≤ 2 ^ 64) :
    ∃ begin, begin = word (x + ((m.range x).pages - need) * pageSize) ∧
      (0 < need → begin = x + ((m.range x).pages - need) * pageSize) ∧ begin % pageSize = 0 ∧
      Set.Ico begin (begin + need * pageSize) =
        Set.Ico (x + ((m.range x).pages - need) * pageSize) (x + len m x) := by
  have hle := h.le
  have hsplit : len m x = ((m.range x).pages - need) * pageSize + need * pageSize := by
    rw [← Nat.add_mul, Nat.sub_add_cancel hle, len]
  have hbegin : 0 < need → word (x + ((m.range x).pages - need) * pageSize) =
      x + ((m.range x).pages - need) * pageSize := by
    intro hpos
    have hone : pageSize ≤ need * pageSize := Nat.le_mul_of_pos_left _ hpos
    have hsize : 0 < pageSize := by decide
    exact word_eq (by omega)
  refine ⟨_, rfl, hbegin, ?_, ?_⟩
  · simp only [word, pageSize_val] at *
    omega
  · rcases Nat.eq_zero_or_pos need with rfl | hpos
    · rw [Nat.zero_mul, Nat.add_zero, Nat.sub_zero, len, Set.Ico_self, Set.Ico_self]
    · rw [hbegin hpos, hsplit, Nat.add_assoc]

end GenericOs.MemoryRange
