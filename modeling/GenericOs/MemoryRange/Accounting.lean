import Mathlib.Data.Set.BooleanAlgebra
import Mathlib.Order.CompletePartialOrder
import GenericOs.MemoryRange.Run

/-!
# No page is lost and none is handed out twice

What holds in every state of a run: of the free pages, of the headers inside them, and
of the blocks that `AllocatePages` returns.
-/

namespace GenericOs.MemoryRange

open SkipList (Node)
open Interval (Tiling Separated IsRun)
open Transition (System Reachable guarded)

variable {m m' : Memory} {lists : NodePtr → List NodePtr} {A : Set ℕ} {s n : NodePtr}
  {begin pages need b w : ℕ} {exact : Bool} {c : Call}

/-! ## Exact allocation -/

/-- Regions away from page 0, and allocations with `exact == true`. -/
def ExactCall (m : Memory) : Call → Prop
  | .insert begin pages => IsRegion m begin pages ∧ begin ≠ 0
  | .allocate _ _ exact => exact = true
  | .write _ _ => True

instance (m : Memory) : ∀ c, Decidable (ExactCall m c)
  | .insert begin pages => inferInstanceAs (Decidable (IsRegion m begin pages ∧ begin ≠ 0))
  | .allocate _ _ exact => inferInstanceAs (Decidable (exact = true))
  | .write _ _ => .isTrue trivial

theorem ExactCall.sound (m : Memory) (c : Call) (h : ExactCall m c) : Sound m c := by
  cases c with
  | insert begin pages => exact ⟨h.1, Or.inr h.2⟩
  | allocate out need exact => exact Or.inl h
  | write node range => trivial

/-- The ranges in the address list are disjoint and cover the free bytes. -/
structure Accounted (m : Memory) : Prop where
  disjoint : ∀ n n', Linked m .addr n → Linked m .addr n' → n ≠ n' → Disjoint (bytesOf m n) (bytesOf m n')
  cover : ∀ j, j ∈ freeBytes m ↔ ∃ n, Linked m .addr n ∧ j ∈ bytesOf m n

/-- The free pages after a call: a region is added, a returned block is gone. -/
def Moves (m m' : Memory) : Call → Prop
  | .insert begin pages =>
    ∀ k, m'.owned k ↔ m.owned k ∨ (begin / pageSize ≤ k ∧ k < begin / pageSize + pages)
  | .allocate out pagesNeed exact => ∃ ok out' m₁, allocatePages m out pagesNeed exact = some (ok, out', m₁) ∧
    ∀ k, m'.owned k ↔ m.owned k ∧
      ¬ (ok = true ∧ out'.begin / pageSize ≤ k ∧ k < out'.begin / pageSize + out'.pages)
  | .write _ _ => ∀ k, m'.owned k ↔ m.owned k

theorem Index.bytesOf_addr (hI : Index m lists A A) {r : ℕ} (hr : r ∈ A) :
    bytesOf m (addrNode r) = Set.Ico r (r + len m r) := by
  rw [bytesOf, hI.rangeOf_addr hr, hI.begin r hr, len]

theorem Inv.accounted (h : Inv m) : Accounted m := by
  obtain ⟨lists, A, hI, hL⟩ := h
  constructor
  · intro n n' hn hn' hne
    obtain ⟨r, hr, rfl⟩ := hI.linked_addr.mp hn
    obtain ⟨r', hr', rfl⟩ := hI.linked_addr.mp hn'
    rw [hI.bytesOf_addr hr, hI.bytesOf_addr hr', Set.disjoint_left]
    rintro j ⟨h1, h2⟩ ⟨h3, h4⟩
    rw [ne_eq, addrNode_inj] at hne
    rcases Nat.lt_or_gt_of_ne hne with hlt | hgt
    · have := hL.tiling.apart r hr r' hr' hlt
      omega
    · have := hL.tiling.apart r' hr' r hr hgt
      omega
  · intro j
    rw [hL.tiling.cover]
    constructor
    · rintro ⟨r, hr, h1, h2⟩
      refine ⟨addrNode r, hI.linked_addr.mpr ⟨r, hr, rfl⟩, ?_⟩
      rw [hI.bytesOf_addr hr]
      exact ⟨h1, h2⟩
    · rintro ⟨n, hn, hj⟩
      obtain ⟨r, hr, rfl⟩ := hI.linked_addr.mp hn
      rw [hI.bytesOf_addr hr] at hj
      exact ⟨r, hr, hj.1, hj.2⟩

theorem Inv.moves (h : Inv m) (hs : Sound m c) : ∃ m', exec m c = some m' ∧ Moves m m' c := by
  cases c with
  | insert begin pages =>
    obtain ⟨m', hrun, -, howned⟩ := h.insert hs.1 hs.2
    refine ⟨m', hrun, fun k => ?_⟩
    rw [howned]
    simp only [Memory.give, Bool.or_eq_true, Bool.and_eq_true, decide_eq_true_eq]
  | allocate out need exact =>
    rcases h.allocate hs with ⟨-, hrun⟩ | ⟨m', x, begin, A, A', hA, hrun⟩
    · refine ⟨m, by simp [exec, hrun], _, _, _, hrun out, fun k => ?_⟩
      simp
    · refine ⟨m'.take begin need, by simp [exec, hrun], _, _, _, hrun out, fun k => ?_⟩
      simp only [Memory.take, hA.owned, Bool.and_eq_true, Bool.not_eq_true', Bool.and_eq_false_iff,
        decide_eq_false_iff_not, not_and, true_implies]
      apply and_congr_right
      intro _
      omega
  | write node range =>
    obtain ⟨m', hrun, -, howned⟩ := h.write node range
    exact ⟨m', hrun, fun k => by rw [howned]⟩

/-- In every run with exact allocations the ranges are the free pages, no call gets stuck, and a
returned block was free and has the size that was asked for. -/
theorem exact_accounting (hr : Reachable client ExactCall m) :
    Accounted m ∧ (∀ c, ExactCall m c → ∃ m', exec m c = some m' ∧ Moves m m' c) ∧
      ∀ out need out' m', allocatePages m out need true = some (true, out', m') →
        out'.pages = need ∧ out'.begin % pageSize = 0 ∧
          Set.Ico out'.begin (out'.begin + need * pageSize) ⊆ freeBytes m := by
  have hI := reachable_inv hr ExactCall.sound
  refine ⟨hI.accounted, fun c hc => hI.moves (ExactCall.sound m c hc), ?_⟩
  intro out need out' m' hrun
  rcases hI.allocate (Or.inl rfl : true = true ∨ ¬ Short m need true) with ⟨-, hnone⟩ | ⟨m₁, x, begin, A, A', hA, hsome⟩
  · rw [hnone] at hrun
    cases hrun
  · rw [hsome] at hrun
    cases hrun
    exact ⟨rfl, hA.aligned, hA.block⟩

/-- One region of three pages. -/
theorem region_reachable : ∃ m, exec zeroMemory (.insert 8192 3) = some m ∧ Reachable client ExactCall m := by
  have hc : ExactCall zeroMemory (.insert 8192 3) := by decide
  obtain ⟨m, hrun, -⟩ := zeroMemory_start.inv.returns (ExactCall.sound _ _ hc)
  exact ⟨m, hrun, .step (.init zeroMemory_start) hc hrun⟩

/-- The first request takes the range at 16384, the second one cuts the merged range at 4096. -/
theorem exact_accounting_served :
    ∃ m out' m', (threeRegions ++ [Call.allocate ⟨0, 0⟩ 1 true]).foldlM exec zeroMemory = some m ∧
      m.heap.next 0 .addr = some (addrNode 4096) ∧ m.heap.next 0 (addrNode 4096) = none ∧ (m.range 4096).pages = 2 ∧
      Accounted m ∧ allocatePages m ⟨0, 0⟩ 1 true = some (true, out', m') ∧ out'.pages = 1 ∧
      Set.Ico out'.begin (out'.begin + 1 * pageSize) ⊆ freeBytes m := by
  have hrun : ((threeRegions ++ [Call.allocate ⟨0, 0⟩ 1 true]).foldlM (guarded ExactCall exec) zeroMemory).map (fun m =>
      (m.heap.next 0 .addr, m.heap.next 0 (addrNode 4096), (m.range 4096).pages,
        (allocatePages m ⟨0, 0⟩ 1 true).map fun r => r.1)) =
      some (some (addrNode 4096), none, 2, some true) := by decide +kernel
  obtain ⟨m, h, hrun⟩ := Option.map_eq_some_iff.mp hrun
  simp only [Prod.mk.injEq] at hrun
  obtain ⟨hfirst, hlast, hpages, hcall⟩ := hrun
  obtain ⟨⟨_, out', m'⟩, hcall, rfl⟩ := Option.map_eq_some_iff.mp hcall
  obtain ⟨hr, hcalls⟩ := zeroMemory_reaches h
  obtain ⟨haccounted, -, hblock⟩ := exact_accounting hr
  obtain ⟨hone, -, hfree⟩ := hblock _ _ _ _ hcall
  exact ⟨m, out', m', hcalls, hfirst, hlast, hpages, haccounted, hcall, hone, hfree⟩

/-! ## Any allocation -/

/-- Regions away from page 0, and allocations of at least one page. -/
def AnyCall (m : Memory) : Call → Prop
  | .insert begin pages => IsRegion m begin pages ∧ begin ≠ 0
  | .allocate _ pagesNeed _ => 1 ≤ pagesNeed
  | .write _ _ => True

/-- No allocation takes from a range with fewer pages than it needs. -/
def NeverShort (m : Memory) (c : Call) : Prop :=
  AnyCall m c ∧ ∀ out pagesNeed exact, c = .allocate out pagesNeed exact → ¬ Short m pagesNeed exact

theorem neverShort_insert : NeverShort m (.insert begin pages) ↔ IsRegion m begin pages ∧ begin ≠ 0 :=
  ⟨fun h => h.1, fun h => ⟨h, nofun⟩⟩

theorem neverShort_allocate {out : Out} :
    NeverShort m (.allocate out need exact) ↔ 1 ≤ need ∧ ¬ Short m need exact := by
  refine ⟨fun h => ⟨h.1, h.2 _ _ _ rfl⟩, fun h => ⟨h.1, ?_⟩⟩
  rintro _ _ _ ⟨⟩
  exact h.2

instance (m : Memory) : ∀ c, Decidable (NeverShort m c)
  | .insert _ _ => decidable_of_iff' _ neverShort_insert
  | .allocate _ _ _ => decidable_of_iff' _ neverShort_allocate
  | .write _ _ => .isTrue ⟨trivial, nofun⟩

theorem NeverShort.sound (m : Memory) (c : Call) (h : NeverShort m c) : Sound m c := by
  cases c with
  | insert begin pages => exact ⟨h.1.1, Or.inr h.1.2⟩
  | allocate out need exact => exact Or.inr (h.2 out need exact rfl)
  | write node range => trivial

/-- The range that `n` belongs to is stored at its own `Begin`, and `n` is one of the two nodes behind it. -/
def StoredAtBegin (m : Memory) (n : NodePtr) : Prop :=
  m.heap.payload n = (rangeOf m n).begin ∧
    (n = sizeNode (rangeOf m n).begin ∨ n = addrNode (rangeOf m n).begin)

/-- Every linked range has a page, and its header is in free memory. -/
def HeadersFree (m : Memory) : Prop :=
  ∀ s ∈ sentinels, ∀ n, Linked m s n → 1 ≤ (rangeOf m n).pages ∧ StoredAtBegin m n ∧
    Set.Ico (rangeOf m n).begin ((rangeOf m n).begin + headerSize) ⊆ freeBytes m

theorem Inv.headersFree (h : Inv m) : HeadersFree m := by
  obtain ⟨lists, A, hI, hL⟩ := h
  have hheader : ∀ r ∈ A, 1 ≤ (m.range r).pages ∧ Set.Ico r (r + headerSize) ⊆ freeBytes m := by
    intro r hr
    have hpos := hL.tiling.pos r hr
    have hpages : 1 ≤ (m.range r).pages := by
      rw [len] at hpos
      exact Nat.pos_of_mul_pos_right hpos
    refine ⟨hpages, ?_⟩
    rintro j ⟨h1, h2⟩
    refine (hL.tiling.cover j).mpr ⟨r, hr, h1, lt_of_lt_of_le h2 ?_⟩
    have hone : pageSize ≤ len m r := Nat.le_mul_of_pos_left _ hpages
    have hfit : headerSize ≤ pageSize := by decide
    omega
  intro s hs n hn
  by_cases ha : s = .addr
  · subst ha
    obtain ⟨r, hr, rfl⟩ := hI.linked_addr.mp hn
    obtain ⟨hpages, hfree⟩ := hheader r hr
    rw [StoredAtBegin, hI.rangeOf_addr hr, hI.begin r hr, (hI.header r hr).addrPayload]
    exact ⟨hpages, ⟨rfl, Or.inr rfl⟩, hfree⟩
  · obtain ⟨r, hr, rfl, -⟩ := (hI.linked_size ⟨hs, ha⟩).mp hn
    obtain ⟨hpages, hfree⟩ := hheader r hr
    rw [StoredAtBegin, hI.rangeOf_size hr, hI.begin r hr, (hI.header r hr).sizePayload]
    exact ⟨hpages, ⟨rfl, Or.inl rfl⟩, hfree⟩

/-- A short allocation leaves a range without pages in the lists. -/
theorem Inv.short (h : Inv m) {out : Out} (hshort : Short m need exact)
    (hrun : exec m (.allocate out need exact) = some m') : ¬ HeadersFree m' := by
  obtain ⟨lists, A, hI, hL⟩ := h
  obtain ⟨n, hn, hlt⟩ := hshort
  obtain ⟨x, m₁, lists₁, hx, -, hcall, hI₁, hzero⟩ := allocatePages_short hI hL.tiling hL.bound hn hlt
  have hm : m' = m₁.take x (m.range x).pages := by
    simpa [exec, hcall] using hrun.symm
  subst hm
  intro hfree
  have hlinked : Linked m₁ .addr (addrNode x) := hI₁.linked_addr.mpr ⟨x, hx, rfl⟩
  have hpages := (hfree .addr addr_sentinel (addrNode x) hlinked).1
  have hrange : rangeOf (m₁.take x (m.range x).pages) (addrNode x) = m₁.range x := hI₁.rangeOf_addr hx
  rw [hrange, hzero] at hpages
  exact absurd hpages (by decide)

/-- In every run without short allocations the headers stay in free memory. A further call gets by
without touching memory that was handed out, and keeps it so, if and only if it is no short allocation.
A returned block has pages, but not too many. -/
theorem neverShort_headersFree (hr : Reachable client NeverShort m) :
    HeadersFree m ∧
      (∀ c, AnyCall m c → (NeverShort m c ↔ ∃ m', exec m c = some m' ∧ HeadersFree m')) ∧
      ∀ out need exact out' m', NeverShort m (.allocate out need exact) →
        allocatePages m out need exact = some (true, out', m') → 1 ≤ out'.pages ∧ out'.pages ≤ need := by
  have hI := reachable_inv hr NeverShort.sound
  refine ⟨hI.headersFree, fun c hc => ⟨fun hn => ?_, ?_⟩, ?_⟩
  · obtain ⟨m', hrun, hI'⟩ := hI.returns (NeverShort.sound m c hn)
    exact ⟨m', hrun, hI'.headersFree⟩
  · rintro ⟨m', hrun, hfree⟩
    refine ⟨hc, ?_⟩
    rintro out need exact rfl hshort
    exact hI.short hshort hrun hfree
  · intro out need exact out' m' hc hrun
    have hneed : 1 ≤ need := hc.1
    rcases hI.allocate (NeverShort.sound m _ hc) with ⟨-, hnone⟩ | ⟨m₁, x, begin, A, A', hA, hsome⟩
    · rw [hnone] at hrun
      cases hrun
    · rw [hsome] at hrun
      cases hrun
      exact ⟨hneed, le_rfl⟩

/-- Two requests that allow a short answer get a page each, and one page is left: a request for two would be short. -/
theorem neverShort_headersFree_served :
    ∃ m, (threeRegions ++ [Call.allocate ⟨0, 0⟩ 1 false, .allocate ⟨0, 0⟩ 1 false]).foldlM exec zeroMemory = some m ∧
      m.heap.next 0 .addr = some (addrNode 4096) ∧ (m.range 4096).pages = 1 ∧ HeadersFree m ∧
      (∃ m', exec m (.allocate ⟨0, 0⟩ 1 false) = some m' ∧ HeadersFree m') ∧
      ¬ ∃ m', exec m (.allocate ⟨0, 0⟩ 2 false) = some m' ∧ HeadersFree m' := by
  have hrun : ((threeRegions ++ [Call.allocate ⟨0, 0⟩ 1 false, .allocate ⟨0, 0⟩ 1 false]).foldlM
      (guarded NeverShort exec) zeroMemory).map (fun m => (m.heap.next 0 .addr, (m.range 4096).pages,
        decide (NeverShort m (.allocate ⟨0, 0⟩ 1 false)), decide (NeverShort m (.allocate ⟨0, 0⟩ 2 false)))) =
      some (some (addrNode 4096), 1, true, false) := by decide +kernel
  obtain ⟨m, h, hrun⟩ := Option.map_eq_some_iff.mp hrun
  simp only [Prod.mk.injEq, decide_eq_true_eq, decide_eq_false_iff_not] at hrun
  obtain ⟨hfirst, hpages, hone, htwo⟩ := hrun
  obtain ⟨hr, hcalls⟩ := zeroMemory_reaches h
  obtain ⟨hfree, hiff, -⟩ := neverShort_headersFree hr
  have hany : ∀ need, 1 ≤ need → AnyCall m (.allocate ⟨0, 0⟩ need false) := fun _ h => h
  exact ⟨m, hcalls, hfirst, hpages, hfree, (hiff _ (hany 1 le_rfl)).mp hone,
    fun hkept => htwo ((hiff _ (hany 2 (by decide))).mpr hkept)⟩

/-- One free page, two asked for: the page is handed out with the header in it, and the next insert
reads that header. -/
theorem anyCall_headersFree_fails :
    ∃ m₁ m₂, exec zeroMemory (.insert 4096 1) = some m₁ ∧ exec m₁ (.allocate ⟨0, 0⟩ 2 false) = some m₂ ∧
      Reachable client AnyCall m₂ ∧ ¬ HeadersFree m₂ ∧ exec m₂ (.insert 8192 1) = none := by
  have hrun : ((exec zeroMemory (.insert 4096 1)).bind fun m₁ =>
      (exec m₁ (.allocate ⟨0, 0⟩ 2 false)).map fun m₂ =>
        (picked m₁ 2 false, m₁.heap.weight (.at 4128), (exec m₂ (.insert 8192 1)).isNone)) =
      some (some (.at 4128), 1, true) := by decide +kernel
  obtain ⟨m₁, h₁, hrun⟩ := Option.bind_eq_some_iff.mp hrun
  obtain ⟨m₂, h₂, hrun⟩ := Option.map_eq_some_iff.mp hrun
  simp only [Prod.mk.injEq, Option.isNone_iff_eq_none] at hrun
  obtain ⟨hpicked, hweight, hnone⟩ := hrun
  have hc : AnyCall zeroMemory (.insert 4096 1) :=
    ⟨zeroMemory_region (by decide) (by decide), by decide⟩
  have hsound : Sound zeroMemory (.insert 4096 1) := ⟨hc.1, Or.inr hc.2⟩
  have hI : Inv m₁ := zeroMemory_start.inv.step hsound h₁
  have hshort : Short m₁ 2 false := ⟨.at 4128, hpicked, by omega⟩
  have hr₁ : Reachable client AnyCall m₁ := .step (.init zeroMemory_start) hc h₁
  have hc₂ : AnyCall m₁ (.allocate ⟨0, 0⟩ 2 false) := (by omega : 1 ≤ 2)
  exact ⟨m₁, m₂, h₁, h₂, .step hr₁ hc₂ h₂, hI.short hshort h₂, hnone⟩

/-! ## What one exact allocation does -/

/-- Requests of 512 pages or more look into one list only, but no other list has such a range. -/
theorem Index.picked_none (hI : Index m lists A A) (hn : picked m need true = none) :
    ∀ x ∈ A, (m.range x).pages < need := by
  intro x hx
  have hclass : rangeClass m x = if (m.range x).pages ≥ pagesPerHugepage then .aligned2MBig else .aligned2M := by
    rw [rangeClass, hI.begin x hx, sizeClass_aligned (hI.header x hx).aligned]
  have hnone : ∀ s ∈ searched need, rangeClass m x = s → (m.range x).pages < need := fun s hs hc =>
    (hI.best_exact (searched_sub hs)).2 (List.findSome?_eq_none_iff.mp hn s hs) x hx hc
  unfold searched at hnone
  split_ifs at hnone hclass with hneed hbig
  · exact hnone _ (by simp) hclass
  · exact hnone _ (by simp) hclass
  · exact hnone _ (by simp) hclass
  · omega

/-- An exact allocation succeeds when some range is large enough, and then that range alone changes.
Otherwise nothing does. -/
theorem exact_allocation (hr : Reachable client ExactCall m) (hneed : 1 ≤ need) (out : Out) :
    ∃ ok out' m', allocatePages m out need true = some (ok, out', m') ∧
      (ok = true ↔ ∃ p ∈ rangesIn m .addr, need ≤ p.2) ∧
      (ok = true → ∃ b w, (b, w) ∈ rangesIn m .addr ∧ need ≤ w ∧
        out' = ⟨need, b + (w - need) * pageSize⟩ ∧
        rangesIn m' .addr = rangesIn m .addr \ {(b, w)} ∪ {p | p = (b, w - need) ∧ need < w}) ∧
      (ok = false → out'.pages = 0 ∧ m' = m) := by
  have hI := reachable_inv hr ExactCall.sound
  rcases hI.allocate (Or.inl rfl : true = true ∨ ¬ Short m need true) with
    ⟨hnone, hrun⟩ | ⟨m', x, begin, A, A', hA, hrun⟩
  · obtain ⟨lists, A, hI, hL⟩ := hI
    refine ⟨false, _, m, hrun out, ⟨by simp, ?_⟩, by simp, fun _ => ⟨rfl, rfl⟩⟩
    rintro ⟨⟨b, w⟩, hp, hle⟩
    obtain ⟨hb, rfl⟩ := hI.ranges_addr.mp hp
    have := hI.picked_none hnone b hb
    omega
  · obtain ⟨lists, hI⟩ := hA.before
    obtain ⟨lists', hI'⟩ := hA.after
    have hmem : (x, (m.range x).pages) ∈ rangesIn m .addr := hI.ranges_addr.mpr ⟨hA.takes.mem, rfl⟩
    refine ⟨true, _, m', hrun out, ⟨fun _ => ⟨_, hmem, hA.takes.le⟩, by simp⟩, fun _ => ?_, by simp⟩
    refine ⟨x, _, hmem, hA.takes.le, by rw [hA.begin_eq hneed], ?_⟩
    ext ⟨b, w⟩
    have hranges : (b, w) ∈ rangesIn m' .addr ↔ b ∈ A' ∧ (m'.range b).pages = w := hI'.ranges_addr
    simp only [hranges, Set.mem_union, Set.mem_sdiff, hI.ranges_addr, Set.mem_singleton_iff,
      Set.mem_ofPred_eq, Prod.mk.injEq]
    have hx := hA.takes.mem
    rcases hA.takes.cases with ⟨heq, rfl, hrange⟩ | ⟨hlt, rfl, hrange⟩
    · rw [hrange]
      constructor
      · rintro ⟨⟨hb, hbx⟩, hw⟩
        exact Or.inl ⟨⟨hb, hw⟩, fun h => hbx h.1⟩
      · rintro (⟨⟨hb, hw⟩, hne⟩ | ⟨-, hlt⟩)
        · refine ⟨⟨hb, ?_⟩, hw⟩
          rintro rfl
          exact hne ⟨rfl, hw.symm⟩
        · omega
    · rw [hrange]
      by_cases hbx : b = x
      · subst hbx
        rw [Function.update_self]
        constructor
        · rintro ⟨-, hw⟩
          exact Or.inr ⟨⟨rfl, hw.symm⟩, hlt⟩
        · rintro (⟨⟨-, hw⟩, hne⟩ | ⟨⟨-, hw⟩, -⟩)
          · exact absurd ⟨rfl, hw.symm⟩ hne
          · exact ⟨hx, hw.symm⟩
      · rw [Function.update_of_ne hbx]
        constructor
        · rintro ⟨hb, hw⟩
          exact Or.inl ⟨⟨hb, hw⟩, fun h => hbx h.1⟩
        · rintro (⟨hb, -⟩ | ⟨⟨hb, -⟩, -⟩)
          · exact hb
          · exact absurd hb hbx

theorem exact_allocation_insert :
    ∃ m ok out' m', exec zeroMemory (.insert 8192 3) = some m ∧
      allocatePages m ⟨0, 0⟩ 2 true = some (ok, out', m') ∧
      (ok = true ↔ ∃ p ∈ rangesIn m .addr, 2 ≤ p.2) := by
  obtain ⟨m, hrun, hr⟩ := region_reachable
  obtain ⟨ok, out', m', hcall, hok, -, -⟩ :=
    exact_allocation hr (by decide : 1 ≤ 2) ⟨0, 0⟩
  exact ⟨m, ok, out', m', hrun, hcall, hok⟩

end GenericOs.MemoryRange
