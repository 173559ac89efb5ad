import GenericOs.MemoryRange.Accounting

/-!
# Which range is in which list

The free pages alone decide what the four lists hold: the ranges are the maximal runs,
and the size list of a range follows from its number of pages.
-/

namespace GenericOs.MemoryRange

open SkipList (Node)
open Interval (Tiling Separated IsRun)
open Transition (System Reachable guarded)

variable {m m' : Memory} {lists : NodePtr → List NodePtr} {A : Set ℕ} {s n : NodePtr}
  {begin pages need b w r : ℕ} {exact : Bool} {c : Call}

/-! ## Coalescing -/

/-- Two ranges that follow each other in the address list touch only across a 2 MiB boundary that
the first does not start on. -/
def Coalesced (m : Memory) : Prop :=
  ∀ n n', Linked m .addr n → m.heap.next 0 n = some n' →
    (rangeOf m n).begin + (rangeOf m n).pages * pageSize = (rangeOf m n').begin →
      (rangeOf m n).begin % hugepageSize ≠ 0 ∧ (rangeOf m n').begin % hugepageSize = 0

theorem Inv.gap (h : Inv m) {n n' : NodePtr} (hn : Linked m .addr n) (hn' : Linked m .addr n') :
    (rangeOf m n).begin + (rangeOf m n).pages * pageSize ≠ (rangeOf m n').begin := by
  obtain ⟨lists, A, hI, hL⟩ := h
  obtain ⟨r, hr, rfl⟩ := hI.linked_addr.mp hn
  obtain ⟨r', hr', rfl⟩ := hI.linked_addr.mp hn'
  rw [hI.rangeOf_addr hr, hI.rangeOf_addr hr', hI.begin r hr, hI.begin r' hr']
  intro htouch
  have hpos := hL.tiling.pos r hr
  unfold len at hpos
  have hsep := hL.separated r hr r' hr' (by omega)
  unfold len at hsep
  omega

theorem exact_coalesced (hr : Reachable client ExactCall m) : Coalesced m := by
  intro n n' hn hnext htouch
  exact absurd htouch ((reachable_inv hr ExactCall.sound).gap hn (hn.tail hnext))

/-- The first two regions become one range, and the third one stays apart. -/
theorem exact_coalesced_three :
    ∃ m, threeRegions.foldlM exec zeroMemory = some m ∧ m.heap.next 0 .addr = some (addrNode 4096) ∧
      m.heap.next 0 (addrNode 4096) = some (addrNode 16384) ∧ (m.range 4096).pages = 2 ∧ Coalesced m := by
  have hrun : (threeRegions.foldlM (guarded ExactCall exec) zeroMemory).map
      (fun m => (m.heap.next 0 .addr, m.heap.next 0 (addrNode 4096), (m.range 4096).pages)) =
      some (some (addrNode 4096), some (addrNode 16384), 2) := by decide +kernel
  obtain ⟨m, h, hrun⟩ := Option.map_eq_some_iff.mp hrun
  simp only [Prod.mk.injEq] at hrun
  obtain ⟨hr, hcalls⟩ := zeroMemory_reaches h
  exact ⟨m, hcalls, hrun.1, hrun.2.1, hrun.2.2, exact_coalesced hr⟩

/-! ## Classes -/

/-- The size lists keep the promise of their names. -/
structure Classified (m : Memory) : Prop where
  unaligned : ∀ n, Linked m .unaligned2M n → (rangeOf m n).begin % hugepageSize ≠ 0
  aligned : ∀ n, Linked m .aligned2M n →
    (rangeOf m n).begin % hugepageSize = 0 ∧ (rangeOf m n).pages < pagesPerHugepage
  big : ∀ n, Linked m .aligned2MBig n →
    (rangeOf m n).begin % hugepageSize = 0 ∧ pagesPerHugepage ≤ (rangeOf m n).pages
  boundary : ∀ n, Linked m .addr n → (rangeOf m n).begin % hugepageSize ≠ 0 →
    (rangeOf m n).begin + (rangeOf m n).pages * pageSize ≤
      ((rangeOf m n).begin / hugepageSize + 1) * hugepageSize

/-- `Unaligned2M` stays empty, so all ranges have to be aligned. -/
theorem Inv.classified_iff (h : Inv m) :
    Classified m ↔ ∀ b w, (b, w) ∈ rangesIn m .addr → b % hugepageSize = 0 := by
  obtain ⟨lists, A, hI, hL⟩ := h
  have hclass : ∀ r ∈ A, rangeClass m r =
      if (m.range r).pages ≥ pagesPerHugepage then .aligned2MBig else .aligned2M := by
    intro r hr
    rw [rangeClass, hI.begin r hr, sizeClass_aligned (hI.header r hr).aligned]
  constructor
  · intro hC b w hp
    obtain ⟨hb, rfl⟩ := hI.ranges_addr.mp hp
    have hlinked := (hI.linked_size (rangeClass_sentinel m b)).mpr ⟨b, hb, rfl, rfl⟩
    have hbegin : (rangeOf m (sizeNode b)).begin = b := by rw [hI.rangeOf_size hb, hI.begin b hb]
    rw [hclass b hb] at hlinked
    split_ifs at hlinked
    · have := (hC.big _ hlinked).1
      rwa [hbegin] at this
    · have := (hC.aligned _ hlinked).1
      rwa [hbegin] at this
  · intro hall
    have hA : ∀ r ∈ A, (m.range r).begin % hugepageSize = 0 := by
      intro r hr
      rw [hI.begin r hr]
      exact hall r _ (hI.ranges_addr.mpr ⟨hr, rfl⟩)
    constructor
    · intro n hn
      obtain ⟨r, hr, rfl, hc⟩ := (hI.linked_size ⟨by intro a; simp, by simp⟩).mp hn
      rw [hclass r hr] at hc
      split_ifs at hc
    · intro n hn
      obtain ⟨r, hr, rfl, hc⟩ := (hI.linked_size ⟨by intro a; simp, by simp⟩).mp hn
      rw [hclass r hr] at hc
      rw [hI.rangeOf_size hr]
      refine ⟨hA r hr, ?_⟩
      split_ifs at hc with hbig
      omega
    · intro n hn
      obtain ⟨r, hr, rfl, hc⟩ := (hI.linked_size ⟨by intro a; simp, by simp⟩).mp hn
      rw [hclass r hr] at hc
      rw [hI.rangeOf_size hr]
      refine ⟨hA r hr, ?_⟩
      split_ifs at hc with hbig
      exact hbig
    · intro n hn hoff
      obtain ⟨r, hr, rfl⟩ := hI.linked_addr.mp hn
      rw [hI.rangeOf_addr hr] at hoff
      exact absurd (hA r hr) hoff

/-- Every region begins on a 2 MiB boundary or right behind a free page. -/
def OnBoundary (m : Memory) (c : Call) : Prop :=
  ExactCall m c ∧ ∀ begin pages, c = .insert begin pages →
    pages = 0 ∨ begin % hugepageSize = 0 ∨ m.owned (begin / pageSize - 1) = true

theorem OnBoundary.sound (m : Memory) (c : Call) (h : OnBoundary m c) : Sound m c :=
  ExactCall.sound m c h.1

theorem mem_below (ha : begin % pageSize = 0) :
    begin - 1 ∈ freeBytes m ↔ m.owned (begin / pageSize - 1) = true := by
  have hdiv : (begin - 1) / pageSize = begin / pageSize - 1 := by
    simp only [pageSize_val] at *
    omega
  rw [freeBytes, Set.mem_ofPred_eq, hdiv]

theorem Inv.freeBytes_insert (h : Inv m) (hreg : IsRegion m begin pages) (h0 : pages = 0 ∨ begin ≠ 0)
    (hrun : exec m (.insert begin pages) = some m') :
    Inv m' ∧ freeBytes m' = freeBytes m ∪ Set.Ico begin (begin + pages * pageSize) := by
  obtain ⟨m₁, hrun₁, hI, howned⟩ := h.insert hreg h0
  obtain rfl : m₁ = m' := Option.some.inj (hrun₁.symm.trans hrun)
  refine ⟨hI, ?_⟩
  rw [← freeBytes_give hreg.aligned, freeBytes, howned, freeBytes]

/-- A range that is new after an insert begins where the region does, behind a page that is not free. -/
theorem Inv.insert_starts (h : Inv m) (hreg : IsRegion m begin pages) (h0 : begin ≠ 0)
    (hrun : exec m (.insert begin pages) = some m') (hp : (b, w) ∈ rangesIn m' .addr) :
    (∃ w', (b, w') ∈ rangesIn m .addr) ∨
      (b = begin ∧ 0 < pages ∧ m.owned (begin / pageSize - 1) = false) := by
  obtain ⟨hI', hfree⟩ := h.freeBytes_insert hreg (Or.inr h0) hrun
  have hisRun := hI'.ranges_iff.mp hp
  have hb := hisRun.inside b le_rfl (by have := hisRun.pos; omega)
  have hbelow := hisRun.below
  rw [hfree] at hb hbelow
  by_cases hstart : b ∈ freeBytes m
  · obtain ⟨lists, A, hI, hL⟩ := h
    have hbA := hL.tiling.start_mem hstart fun j hj hmem => hbelow j hj (Or.inl hmem)
    exact Or.inl ⟨_, hI.ranges_addr.mpr ⟨hbA, rfl⟩⟩
  · -- `b` is in the region, and the byte before it is not: it is the first byte.
    obtain ⟨h1, h2⟩ := hb.resolve_left hstart
    right
    have hbb : b = begin := by
      by_contra hne
      exact hbelow (b - 1) (by omega) (Or.inr ⟨by omega, by omega⟩)
    refine ⟨hbb, Nat.pos_of_ne_zero (by rintro rfl; omega), ?_⟩
    have hout : begin - 1 ∉ freeBytes m := fun hmem => hbelow (begin - 1) (by omega) (Or.inl hmem)
    rw [mem_below hreg.aligned] at hout
    simpa using hout

theorem Inv.insert_first (h : Inv m) (hreg : IsRegion m begin pages) (h0 : begin ≠ 0) (hpages : 0 < pages)
    (hbelow : m.owned (begin / pageSize - 1) ≠ true) (hrun : exec m (.insert begin pages) = some m') :
    ∃ w, (begin, w) ∈ rangesIn m' .addr := by
  obtain ⟨⟨lists, A, hI, hL⟩, hfree⟩ := h.freeBytes_insert hreg (Or.inr h0) hrun
  have hone : 0 < pages * pageSize := Nat.mul_pos hpages (by decide)
  have hin : begin ∈ freeBytes m' := by
    rw [hfree]
    exact Or.inr ⟨le_rfl, by omega⟩
  have hout : ∀ j, j + 1 = begin → j ∉ freeBytes m' := by
    rintro j hj
    obtain rfl : j = begin - 1 := by omega
    rw [hfree]
    rintro (hmem | ⟨h1, -⟩)
    · exact hbelow ((mem_below hreg.aligned).mp hmem)
    · omega
  exact ⟨_, hI.ranges_addr.mpr ⟨hL.tiling.start_mem hin hout, rfl⟩⟩

theorem Inv.allocate_starts (h : Inv m) {out : Out} (hsound : exact = true ∨ ¬ Short m need exact)
    (hrun : exec m (.allocate out need exact) = some m') (hp : (b, w) ∈ rangesIn m' .addr) :
    ∃ w', (b, w') ∈ rangesIn m .addr := by
  rcases h.allocate hsound with ⟨-, hcall⟩ | ⟨m₁, x, begin, A, A', hA, hcall⟩
  · obtain rfl : m = m' := by simpa [exec, hcall] using hrun
    exact ⟨w, hp⟩
  · obtain rfl : m₁.take begin need = m' := by simpa [exec, hcall] using hrun
    obtain ⟨lists, hI⟩ := hA.before
    obtain ⟨lists', hI'⟩ := hA.after
    exact ⟨_, hI.ranges_addr.mpr ⟨hA.takes.sub (hI'.ranges_addr.mp hp).1, rfl⟩⟩

/-- When every range begins on a boundary, one call keeps it so if it meets the condition, and only then. -/
theorem Inv.onBoundary_step (h : Inv m) (hC : Classified m) (hc : ExactCall m c)
    (hrun : exec m c = some m') : Classified m' ↔ OnBoundary m c := by
  have hI' := h.step (ExactCall.sound m c hc) hrun
  rw [h.classified_iff] at hC
  rw [hI'.classified_iff]
  cases c with
  | insert begin pages =>
    constructor
    · intro hall
      refine ⟨hc, ?_⟩
      rintro _ _ ⟨⟩
      by_contra hbad
      rw [not_or, not_or] at hbad
      obtain ⟨w, hp⟩ := h.insert_first hc.1 hc.2 (Nat.pos_of_ne_zero hbad.1) hbad.2.2 hrun
      exact hbad.2.1 (hall begin w hp)
    · intro hb b w hp
      rcases h.insert_starts hc.1 hc.2 hrun hp with ⟨w', hold⟩ | ⟨rfl, hpos, hbelow⟩
      · exact hC b w' hold
      · rcases hb.2 _ _ rfl with h0 | haligned | hfree
        · omega
        · exact haligned
        · rw [hbelow] at hfree
          cases hfree
  | allocate out need exact =>
    refine ⟨fun _ => ⟨hc, by rintro _ _ ⟨⟩⟩, fun _ b w hp => ?_⟩
    obtain ⟨w', hold⟩ := h.allocate_starts (Or.inl hc) hrun hp
    exact hC b w' hold
  | write node range =>
    refine ⟨fun _ => ⟨hc, by rintro _ _ ⟨⟩⟩, fun _ b w hp => ?_⟩
    obtain ⟨m₁, hrun₁, -, howned⟩ := h.write node range
    obtain rfl : m₁ = m' := Option.some.inj (hrun₁.symm.trans hrun)
    apply hC b w
    rw [h.ranges_iff]
    rw [hI'.ranges_iff, freeBytes, howned] at hp
    exact hp

/-- In every run whose regions begin on a boundary or behind a free page, the lists keep their promise.
A further call keeps it if and only if it meets that condition. -/
theorem onBoundary_classified (hr : Reachable client OnBoundary m) :
    Classified m ∧ ∀ c, ExactCall m c → (OnBoundary m c ↔ ∃ m', exec m c = some m' ∧ Classified m') := by
  have hC : Inv m ∧ Classified m := by
    apply hr.invariant (P := fun m => Inv m ∧ Classified m)
    · intro m hm
      refine ⟨hm.inv, hm.inv.classified_iff.mpr fun b w hp => ?_⟩
      have hisRun := hm.inv.ranges_iff.mp hp
      have hb := hisRun.inside b le_rfl (by have := hisRun.pos; omega)
      rw [hm.freeBytes] at hb
      exact absurd hb (Set.notMem_empty b)
    · rintro m c m' ⟨hI, hC⟩ hc hrun
      exact ⟨hI.step (OnBoundary.sound m c hc) hrun, (hI.onBoundary_step hC hc.1 hrun).mpr hc⟩
  refine ⟨hC.2, fun c hc => ⟨fun hb => ?_, ?_⟩⟩
  · obtain ⟨m', hrun, -⟩ := hC.1.returns (ExactCall.sound m c hc)
    exact ⟨m', hrun, (hC.1.onBoundary_step hC.2 hc hrun).mpr hb⟩
  · rintro ⟨m', hrun, hC'⟩
    exact (hC.1.onBoundary_step hC.2 hc hrun).mp hC'

theorem onBoundary_classified_insert :
    ∃ m, exec zeroMemory (.insert 2097152 3) = some m ∧ Classified m := by
  have hc : OnBoundary zeroMemory (.insert 2097152 3) := by
    refine ⟨⟨zeroMemory_region (by decide) (by decide), by decide⟩, ?_⟩
    rintro _ _ ⟨⟩
    exact Or.inr (Or.inl (by decide))
  obtain ⟨m, hrun, -⟩ := zeroMemory_start.inv.returns (OnBoundary.sound _ _ hc)
  exact ⟨m, hrun, (onBoundary_classified (.step (.init zeroMemory_start) hc hrun)).1⟩

/-- One page at 4096 goes into the list of aligned ranges. -/
theorem exact_classified_fails :
    ∃ m, exec zeroMemory (.insert 4096 1) = some m ∧ Reachable client ExactCall m ∧ ¬ Classified m := by
  have hrun : (exec zeroMemory (.insert 4096 1)).map (fun m =>
      (m.heap.next 0 .aligned2M, (rangeOf m (.at 4128)).begin)) = some (some (.at 4128), 4096) := by
    decide +kernel
  obtain ⟨m, h, hm⟩ := Option.map_eq_some_iff.mp hrun
  obtain ⟨hnext, hbegin⟩ := Prod.mk.inj hm
  have hc : ExactCall zeroMemory (.insert 4096 1) :=
    ⟨zeroMemory_region (by decide) (by decide), by decide⟩
  refine ⟨m, h, .step (.init zeroMemory_start) hc h, fun hC => ?_⟩
  have haligned := (hC.aligned (.at 4128) (.single hnext)).1
  rw [hbegin] at haligned
  exact absurd haligned (by decide)

/-! ## The two indexes -/

/-- The address node of `r` is linked. -/
def AddrLinked (m : Memory) (r : Nat) : Prop :=
  ∃ n, (m.range r).addrNode = some n ∧ m.heap.payload n = r ∧ Linked m .addr n

/-- The size node of `r` is linked in the list of `s`. -/
def SizeLinked (m : Memory) (s : NodePtr) (r : Nat) : Prop :=
  ∃ n, (m.range r).sizeNode = some n ∧ m.heap.payload n = r ∧ Linked m s n

structure IndexesAgree (m : Memory) : Prop where
  addrNode : ∀ n, Linked m .addr n → AddrLinked m (m.heap.payload n)
  sizeNode : ∀ s ∈ sizeSentinels, ∀ n, Linked m s n → SizeLinked m s (m.heap.payload n)
  same : ∀ r, AddrLinked m r ↔ ∃ s ∈ sizeSentinels, SizeLinked m s r
  sentinel : ∀ r, ∀ s ∈ sizeSentinels, SizeLinked m s r → memoryRangeToSentinel m r = some (some s)
  addrWeight : ∀ r n, AddrLinked m r → (m.range r).addrNode = some n → m.heap.weight n = (m.range r).begin
  sizeWeight : ∀ r n, AddrLinked m r → (m.range r).sizeNode = some n → m.heap.weight n = (m.range r).pages

theorem Index.addrLinked_iff (hI : Index m lists A A) : AddrLinked m r ↔ r ∈ A := by
  constructor
  · rintro ⟨n, -, hp, hn⟩
    obtain ⟨x, hx, rfl⟩ := hI.linked_addr.mp hn
    rw [(hI.header x hx).addrPayload] at hp
    rwa [← hp]
  · intro hr
    have hh := hI.header r hr
    exact ⟨_, hh.addrField, hh.addrPayload, hI.linked_addr.mpr ⟨r, hr, rfl⟩⟩

theorem Index.sizeLinked_iff (hI : Index m lists A A) (hs : s ∈ sizeSentinels) :
    SizeLinked m s r ↔ r ∈ A ∧ rangeClass m r = s := by
  constructor
  · rintro ⟨n, -, hp, hn⟩
    obtain ⟨x, hx, rfl, hc⟩ := (hI.linked_size hs).mp hn
    rw [(hI.header x hx).sizePayload] at hp
    rw [← hp]
    exact ⟨hx, hc⟩
  · rintro ⟨hr, hc⟩
    have hh := hI.header r hr
    exact ⟨_, hh.sizeField, hh.sizePayload, (hI.linked_size hs).mpr ⟨r, hr, rfl, hc⟩⟩

theorem Inv.indexesAgree (h : Inv m) : IndexesAgree m := by
  obtain ⟨lists, A, hI, -⟩ := h
  refine ⟨?_, ?_, ?_, ?_, ?_, ?_⟩
  · intro n hn
    obtain ⟨r, hr, rfl⟩ := hI.linked_addr.mp hn
    rw [(hI.header r hr).addrPayload]
    exact hI.addrLinked_iff.mpr hr
  · intro s hs n hn
    obtain ⟨r, hr, rfl, hc⟩ := (hI.linked_size hs).mp hn
    rw [(hI.header r hr).sizePayload]
    exact (hI.sizeLinked_iff hs).mpr ⟨hr, hc⟩
  · intro r
    rw [hI.addrLinked_iff]
    constructor
    · intro hr
      have hs := rangeClass_sentinel m r
      exact ⟨_, hs, (hI.sizeLinked_iff hs).mpr ⟨hr, rfl⟩⟩
    · rintro ⟨s, hs, hlinked⟩
      exact ((hI.sizeLinked_iff hs).mp hlinked).1
  · intro r s hs hlinked
    obtain ⟨hr, rfl⟩ := (hI.sizeLinked_iff hs).mp hlinked
    have hh := hI.header r hr
    exact memoryRangeToSentinel_spec hh.pos.ne' hh.aligned hh.owned
  · intro r n hlinked hfield
    have hr := hI.addrLinked_iff.mp hlinked
    obtain rfl : MemoryRange.addrNode r = n := by
      rw [(hI.header r hr).addrField] at hfield
      exact Option.some.inj hfield
    rw [hI.addrWeight r hr, hI.begin r hr]
  · intro r n hlinked hfield
    have hr := hI.addrLinked_iff.mp hlinked
    obtain rfl : MemoryRange.sizeNode r = n := by
      rw [(hI.header r hr).sizeField] at hfield
      exact Option.some.inj hfield
    exact hI.sizeWeight r hr

/-- Any regions, page 0 included, and allocations with `exact == true`. -/
def RegionCall (m : Memory) : Call → Prop
  | .insert begin pages => IsRegion m begin pages
  | .allocate _ _ exact => exact = true
  | .write _ _ => True

/-- No range is created at address 0. -/
def NotAtNull (m : Memory) (c : Call) : Prop :=
  RegionCall m c ∧ ∀ begin pages, c = .insert begin pages → pages = 0 ∨ begin ≠ 0

theorem NotAtNull.sound (m : Memory) (c : Call) (h : NotAtNull m c) : Sound m c := by
  cases c with
  | insert begin pages => exact ⟨h.1, h.2 begin pages rfl⟩
  | allocate out need exact => exact Or.inl h.1
  | write node range => trivial

theorem notAtNull_indexesAgree (hr : Reachable client NotAtNull m) : IndexesAgree m :=
  (reachable_inv hr NotAtNull.sound).indexesAgree

theorem notAtNull_indexesAgree_insert :
    ∃ m, exec zeroMemory (.insert 8192 3) = some m ∧ IndexesAgree m := by
  have hc : NotAtNull zeroMemory (.insert 8192 3) := by
    refine ⟨zeroMemory_region (by decide) (by decide), ?_⟩
    rintro _ _ ⟨⟩
    exact Or.inr (by decide)
  obtain ⟨m, hrun, -⟩ := zeroMemory_start.inv.returns (NotAtNull.sound _ _ hc)
  exact ⟨m, hrun, notAtNull_indexesAgree (.step (.init zeroMemory_start) hc hrun)⟩

/-- The range at address 0 looks like a null pointer to `MemoryRangeToSentinel`. -/
theorem regionCall_indexesAgree_fails :
    ∃ m, exec zeroMemory (.insert 0 1) = some m ∧ Reachable client RegionCall m ∧ ¬ IndexesAgree m := by
  have hrun : (exec zeroMemory (.insert 0 1)).map (fun m =>
      (m.heap.payload (.at 160), [(m.range 0).addrNode, m.heap.next 0 .addr,
        m.heap.next 0 .unaligned2M, m.heap.next 0 .aligned2M, m.heap.next 0 .aligned2MBig])) =
      some (0, [some (.at 160), some (.at 160), none, none, none]) := by decide +kernel
  obtain ⟨m, h, hm⟩ := Option.map_eq_some_iff.mp hrun
  simp only [Prod.mk.injEq, List.cons.injEq, and_true] at hm
  obtain ⟨hpayload, hfield, haddr, h1, h2, h3⟩ := hm
  have hc : RegionCall zeroMemory (.insert 0 1) := zeroMemory_region (by decide) (by decide)
  refine ⟨m, h, .step (.init zeroMemory_start) hc h, fun hA => ?_⟩
  have hlinked : AddrLinked m 0 := ⟨.at 160, hfield, hpayload, .single haddr⟩
  obtain ⟨s, hs, n, -, -, hn⟩ := (hA.same 0).mp hlinked
  -- No node is linked in any size list.
  obtain ⟨x, hx, -⟩ := Relation.TransGen.head'_iff.mp hn
  have hnone : m.heap.next 0 s = none := by
    cases s with
    | unaligned2M => exact h1
    | aligned2M => exact h2
    | aligned2MBig => exact h3
    | addr => exact absurd rfl hs.2
    | «at» a => exact absurd rfl (hs.1 a)
  rw [hnone] at hx
  cases hx

/-! ## The order of insertion -/

def insertAll (m : Memory) (regions : List (ℕ × ℕ)) : Option Memory :=
  regions.foldlM (fun m p => exec m (.insert p.1 p.2)) m

def regionBytes (p : ℕ × ℕ) : Set ℕ := Set.Ico p.1 (p.1 + p.2 * pageSize)

/-- Disjoint regions, none of which is at address 0. -/
structure Regions (regions : List (ℕ × ℕ)) : Prop where
  aligned : ∀ p ∈ regions, p.1 % pageSize = 0
  nonzero : ∀ p ∈ regions, p.1 ≠ 0
  fits : ∀ p ∈ regions, p.1 + p.2 * pageSize ≤ 2 ^ 64
  apart : regions.Pairwise (fun p q => Disjoint (regionBytes p) (regionBytes q))

theorem insertAll_spec (h : Inv m) {regions : List (ℕ × ℕ)} (hR : Regions regions)
    (hfresh : ∀ p ∈ regions, Disjoint (regionBytes p) (freeBytes m)) :
    ∃ m', insertAll m regions = some m' ∧ Inv m' ∧
      ∀ j, j ∈ freeBytes m' ↔ j ∈ freeBytes m ∨ ∃ p ∈ regions, j ∈ regionBytes p := by
  induction regions generalizing m with
  | nil => exact ⟨m, rfl, h, by simp⟩
  | cons p regions ih =>
    have hpage : 0 < pageSize := by decide
    have hreg : IsRegion m p.1 p.2 := by
      refine ⟨hR.aligned p (by simp), hR.fits p (by simp), fun k h1 h2 => ?_⟩
      have hk : k * pageSize ∉ freeBytes m := by
        refine Set.disjoint_left.mp (hfresh p (by simp)) ⟨?_, ?_⟩
        · have := hR.aligned p (by simp)
          simp only [pageSize_val] at *
          omega
        · have := hR.aligned p (by simp)
          simp only [pageSize_val] at *
          omega
      rw [freeBytes, Set.mem_ofPred_eq, Nat.mul_div_cancel _ hpage] at hk
      simpa using hk
    obtain ⟨m₁, hrun₁, -, -⟩ := h.insert hreg (Or.inr (hR.nonzero p (by simp)))
    obtain ⟨hI₁, hfree₁⟩ := h.freeBytes_insert hreg (Or.inr (hR.nonzero p (by simp))) hrun₁
    obtain ⟨hp, hpw⟩ := List.pairwise_cons.mp hR.apart
    have hR' : Regions regions :=
      ⟨fun q hq => hR.aligned q (by simp [hq]), fun q hq => hR.nonzero q (by simp [hq]),
        fun q hq => hR.fits q (by simp [hq]), hpw⟩
    have hfresh' : ∀ q ∈ regions, Disjoint (regionBytes q) (freeBytes m₁) := by
      intro q hq
      rw [hfree₁, Set.disjoint_union_right]
      exact ⟨hfresh q (by simp [hq]), (hp q hq).symm⟩
    obtain ⟨m', hrun, hI', hfree⟩ := ih hI₁ hR' hfresh'
    refine ⟨m', ?_, hI', fun j => ?_⟩
    · simp only [insertAll, List.foldlM_cons, hrun₁, Option.bind_eq_bind, Option.bind_some]
      exact hrun
    · rw [hfree, hfree₁, Set.mem_union]
      simp only [List.mem_cons, exists_eq_or_imp]
      exact or_assoc

theorem Regions.perm {regions regions' : List (ℕ × ℕ)} (hR : Regions regions) (hp : regions.Perm regions') :
    Regions regions' where
  aligned p h := hR.aligned p (hp.mem_iff.mpr h)
  nonzero p h := hR.nonzero p (hp.mem_iff.mpr h)
  fits p h := hR.fits p (hp.mem_iff.mpr h)
  apart := hR.apart.perm hp fun h => h.symm

theorem Inv.canonical {m₁ m₂ : Memory} (h₁ : Inv m₁) (h₂ : Inv m₂) (hfree : freeBytes m₁ = freeBytes m₂)
    (hs : s ∈ sentinels) : rangesIn m₁ s = rangesIn m₂ s := by
  have haddr : ∀ b w, (b, w) ∈ rangesIn m₁ .addr ↔ (b, w) ∈ rangesIn m₂ .addr := by
    intro b w
    rw [h₁.ranges_iff, h₂.ranges_iff, hfree]
  ext ⟨b, w⟩
  by_cases ha : s = .addr
  · subst ha
    exact haddr b w
  · rw [h₁.ranges_size ⟨hs, ha⟩, h₂.ranges_size ⟨hs, ha⟩, haddr]

/-- Any two orders of inserting the same regions, with any node heights, give the same lists. -/
theorem insert_order {m₁ m₂ : Memory} (h₁ : Start m₁) (h₂ : Start m₂) {regions regions' : List (ℕ × ℕ)}
    (hR : Regions regions) (hp : regions.Perm regions') :
    ∃ m₁' m₂', insertAll m₁ regions = some m₁' ∧ insertAll m₂ regions' = some m₂' ∧
      ∀ s ∈ sentinels, rangesIn m₁' s = rangesIn m₂' s := by
  have hdisjoint : ∀ {m : Memory}, Start m → ∀ p, Disjoint (regionBytes p) (freeBytes m) := by
    intro m hm p
    rw [hm.freeBytes]
    exact Set.disjoint_empty _
  obtain ⟨m₁', hrun₁, hI₁, hfree₁⟩ := insertAll_spec h₁.inv hR fun p _ => hdisjoint h₁ p
  obtain ⟨m₂', hrun₂, hI₂, hfree₂⟩ := insertAll_spec h₂.inv (hR.perm hp) fun p _ => hdisjoint h₂ p
  refine ⟨m₁', m₂', hrun₁, hrun₂, fun s hs => hI₁.canonical hI₂ ?_ hs⟩
  ext j
  rw [hfree₁, hfree₂, h₁.freeBytes, h₂.freeBytes]
  simp only [hp.mem_iff]

theorem insert_order_two :
    ∃ m₁ m₂, insertAll zeroMemory [(4096, 1), (8192, 2)] = some m₁ ∧
      insertAll zeroMemory [(8192, 2), (4096, 1)] = some m₂ ∧
      ∀ s ∈ sentinels, rangesIn m₁ s = rangesIn m₂ s := by
  have hR : Regions [(4096, 1), (8192, 2)] := by
    refine ⟨by decide, by decide, by decide, ?_⟩
    simp only [List.pairwise_cons, List.mem_singleton, forall_eq, List.not_mem_nil, false_implies,
      implies_true, List.Pairwise.nil, and_true, regionBytes, Set.disjoint_left, Set.mem_Ico, pageSize_val]
    omega
  exact insert_order zeroMemory_start zeroMemory_start hR (List.Perm.swap ..)

end GenericOs.MemoryRange
