import GenericOs.Library.Transition
import GenericOs.MemoryRange.Insert
import GenericOs.MemoryRange.Allocate

/-!
# Runs of the page allocator

The callers hand in regions and get blocks, and they write to what they hold. `owned`
follows: a region belongs to the allocator from the call that inserts it, and a block
no longer does after the call that returns it.
-/

namespace GenericOs.MemoryRange

open SkipList (Node)
open Interval (Tiling Separated IsRun)
open Transition (System Reachable guarded foldlM_of_guarded)

/-! ## Calls -/

def Memory.give (m : Memory) (begin pages : Nat) : Memory :=
  { m with owned := fun k => m.owned k || (begin / pageSize ≤ k && k < begin / pageSize + pages) }

def Memory.take (m : Memory) (begin pages : Nat) : Memory :=
  { m with owned := fun k => m.owned k && !(begin / pageSize ≤ k && k < begin / pageSize + pages) }

/-- With `write`, other code leaves these objects outside the allocator's memory. -/
inductive Call where
  | insert (begin pages : Nat)
  | allocate (out : Out) (pagesNeed : Nat) (exact : Bool)
  | write (node : NodePtr → Node NodePtr) (range : Nat → Range)

def exec (m : Memory) : Call → Option Memory
  | .insert begin pages => insertNewMemoryRange (m.give begin pages) begin pages
  | .allocate out pagesNeed exact => do
    let (ok, out, m) ← allocatePages m out pagesNeed exact
    return if ok then m.take out.begin out.pages else m
  | .write node range => some
    { m with
      node := fun n => if m.nodeLive n then m.node n else node n
      range := fun r => if m.ownsObject r sizeofMemoryRange then m.range r else range r }

/-- `info` is all zero and no memory has been inserted. -/
structure Start (m : Memory) : Prop where
  zero : ∀ s ∈ sentinels, m.node s = Node.zero
  empty : ∀ k, m.owned k = false

/-- All zero, with heights of 1. -/
def zeroMemory : Memory where
  node _ := Node.zero
  range _ := { sizeNode := none, addrNode := none, pages := 0, begin := 0 }
  owned _ := false
  random _ := 1

theorem zeroMemory_start : Start zeroMemory := ⟨fun _ _ => rfl, fun _ => rfl⟩

def client : System Memory Call := { init := Start, step := fun m c m' => exec m c = some m' }

/-- Whole pages of the address space, none of which is free already. -/
structure IsRegion (m : Memory) (begin pages : Nat) : Prop where
  aligned : begin % pageSize = 0
  fits : begin + pages * pageSize ≤ 2 ^ 64
  fresh : ∀ k, begin / pageSize ≤ k → k < begin / pageSize + pages → m.owned k = false

theorem isRegion_iff {m : Memory} {begin pages : Nat} : IsRegion m begin pages ↔
    begin % pageSize = 0 ∧ begin + pages * pageSize ≤ 2 ^ 64 ∧ ∀ i < pages, m.owned (begin / pageSize + i) = false := by
  constructor
  · rintro ⟨ha, hf, hfresh⟩
    exact ⟨ha, hf, fun i hi => hfresh _ (by omega) (by omega)⟩
  · rintro ⟨ha, hf, hfresh⟩
    refine ⟨ha, hf, fun k hlow hhigh => ?_⟩
    obtain ⟨i, rfl⟩ := Nat.exists_eq_add_of_le hlow
    exact hfresh i (by omega)

instance (m : Memory) (begin pages : Nat) : Decidable (IsRegion m begin pages) :=
  decidable_of_iff' _ isRegion_iff

theorem zeroMemory_region {begin pages : Nat} (ha : begin % pageSize = 0)
    (hf : begin + pages * pageSize ≤ 2 ^ 64) : IsRegion zeroMemory begin pages :=
  ⟨ha, hf, fun _ _ _ => rfl⟩

/-- Two regions that touch, and one apart from them. -/
def threeRegions : List Call := [.insert 4096 1, .insert 8192 1, .insert 16384 1]

theorem zeroMemory_reaches {allowed : Memory → Call → Prop} [∀ m c, Decidable (allowed m c)] {m : Memory}
    {calls : List Call} (h : calls.foldlM (guarded allowed exec) zeroMemory = some m) :
    Reachable client allowed m ∧ calls.foldlM exec zeroMemory = some m :=
  ⟨.of_guarded (.init zeroMemory_start) (fun _ _ _ h => h) h, foldlM_of_guarded h⟩

/-- The range that the call takes from has fewer pages than it needs. -/
def Short (m : Memory) (pagesNeed : Nat) (exact : Bool) : Prop :=
  ∃ n, picked m pagesNeed exact = some n ∧ m.heap.weight n < pagesNeed

instance (m : Memory) (pagesNeed : Nat) (exact : Bool) : Decidable (Short m pagesNeed exact) :=
  decidable_of_iff (∃ n ∈ picked m pagesNeed exact, m.heap.weight n < pagesNeed) (by simp [Short])

/-- The calls that keep the invariant. -/
def Sound (m : Memory) : Call → Prop
  | .insert begin pages => IsRegion m begin pages ∧ (pages = 0 ∨ begin ≠ 0)
  | .allocate _ pagesNeed exact => exact = true ∨ ¬ Short m pagesNeed exact
  | .write _ _ => True

/-! ## What is linked -/

/-- `n` is on the chain of `Next[0]` behind the list head `s`. -/
def Linked (m : Memory) (s n : NodePtr) : Prop :=
  Relation.TransGen (fun a b => m.heap.next 0 a = some b) s n

/-- The range that a node belongs to. -/
def rangeOf (m : Memory) (n : NodePtr) : Range := m.range (m.heap.payload n)

/-- The bytes of the range. -/
def bytesOf (m : Memory) (n : NodePtr) : Set ℕ :=
  Set.Ico (rangeOf m n).begin ((rangeOf m n).begin + (rangeOf m n).pages * pageSize)

/-- `Begin` and `Pages` of the ranges in a list. -/
def rangesIn (m : Memory) (s : NodePtr) : Set (ℕ × ℕ) :=
  {p | ∃ n, Linked m s n ∧ p = ((rangeOf m n).begin, (rangeOf m n).pages)}

variable {m m' : Memory} {lists : NodePtr → List NodePtr} {A : Set ℕ} {s n : NodePtr}
  {begin pages need b w : ℕ} {exact : Bool} {c : Call}

theorem Index.linked_iff (hI : Index m lists A A) (hs : s ∈ sentinels) : Linked m s n ↔ n ∈ lists s := by
  obtain ⟨ht, hT⟩ := hI.forest.threaded s hs
  exact hT.chain_zero.reaches_iff

theorem Index.linked_addr (hI : Index m lists A A) : Linked m .addr n ↔ ∃ r ∈ A, n = addrNode r :=
  (hI.linked_iff addr_sentinel).trans (hI.addr_mem n)

theorem Index.linked_size (hI : Index m lists A A) (hs : s ∈ sizeSentinels) :
    Linked m s n ↔ ∃ r ∈ A, n = sizeNode r ∧ rangeClass m r = s :=
  (hI.linked_iff hs.1).trans (hI.size_mem s hs n)

theorem Index.rangeOf_addr (hI : Index m lists A A) {r : ℕ} (hr : r ∈ A) :
    rangeOf m (addrNode r) = m.range r := by
  rw [rangeOf, (hI.header r hr).addrPayload]

theorem Index.rangeOf_size (hI : Index m lists A A) {r : ℕ} (hr : r ∈ A) :
    rangeOf m (sizeNode r) = m.range r := by
  rw [rangeOf, (hI.header r hr).sizePayload]

theorem Index.ranges_addr (hI : Index m lists A A) :
    (b, w) ∈ rangesIn m .addr ↔ b ∈ A ∧ (m.range b).pages = w := by
  constructor
  · rintro ⟨n, hn, he⟩
    obtain ⟨r, hr, rfl⟩ := hI.linked_addr.mp hn
    rw [hI.rangeOf_addr hr, hI.begin r hr, Prod.mk.injEq] at he
    obtain ⟨rfl, rfl⟩ := he
    exact ⟨hr, rfl⟩
  · rintro ⟨hb, rfl⟩
    refine ⟨addrNode b, hI.linked_addr.mpr ⟨b, hb, rfl⟩, ?_⟩
    rw [hI.rangeOf_addr hb, hI.begin b hb]

theorem Index.ranges_size (hI : Index m lists A A) (hs : s ∈ sizeSentinels) :
    (b, w) ∈ rangesIn m s ↔ (b, w) ∈ rangesIn m .addr ∧ sizeClass b w = s := by
  rw [hI.ranges_addr]
  constructor
  · rintro ⟨n, hn, he⟩
    obtain ⟨r, hr, rfl, hc⟩ := (hI.linked_size hs).mp hn
    rw [rangeClass, hI.begin r hr] at hc
    rw [hI.rangeOf_size hr, hI.begin r hr, Prod.mk.injEq] at he
    obtain ⟨rfl, rfl⟩ := he
    exact ⟨⟨hr, rfl⟩, hc⟩
  · rintro ⟨⟨hb, rfl⟩, hc⟩
    refine ⟨sizeNode b, (hI.linked_size hs).mpr ⟨b, hb, rfl, ?_⟩, ?_⟩
    · rw [rangeClass, hI.begin b hb, hc]
    · rw [hI.rangeOf_size hb, hI.begin b hb]

/-- The linked ranges are the maximal runs of free bytes. -/
theorem Inv.ranges_iff (h : Inv m) : (b, w) ∈ rangesIn m .addr ↔ IsRun (freeBytes m) b (w * pageSize) := by
  obtain ⟨lists, A, hI, hL⟩ := h
  rw [hI.ranges_addr, ← hL.tiling.mem_iff hL.separated, len]
  have hsize : 0 < pageSize := by decide
  rw [Nat.mul_left_inj hsize.ne']

theorem Inv.ranges_size (h : Inv m) (hs : s ∈ sizeSentinels) :
    (b, w) ∈ rangesIn m s ↔ (b, w) ∈ rangesIn m .addr ∧ sizeClass b w = s := by
  obtain ⟨lists, A, hI, -⟩ := h
  exact hI.ranges_size hs

/-! ## Pages that change hands -/

theorem freeBytes_give (hb : begin % pageSize = 0) :
    freeBytes (m.give begin pages) = freeBytes m ∪ Set.Ico begin (begin + pages * pageSize) := by
  ext j
  simp only [freeBytes, Memory.give, Set.mem_union, Set.mem_ofPred_eq, Set.mem_Ico, Bool.or_eq_true,
    Bool.and_eq_true, decide_eq_true_eq]
  apply or_congr_right
  simp only [pageSize_val] at *
  omega

theorem freeBytes_take (hb : begin % pageSize = 0) :
    freeBytes (m.take begin pages) = freeBytes m \ Set.Ico begin (begin + pages * pageSize) := by
  ext j
  simp only [freeBytes, Memory.take, Set.mem_sdiff, Set.mem_ofPred_eq, Set.mem_Ico, Bool.and_eq_true,
    Bool.not_eq_true', Bool.and_eq_false_iff, decide_eq_false_iff_not]
  apply and_congr_right
  intro _
  simp only [pageSize_val] at *
  omega

/-- The headers are part of the free bytes, so it does not matter what happens elsewhere. -/
theorem Index.reown (hI : Index m lists A A) {F : Set ℕ} (hT : Tiling A (len m) F) (hnode : m'.node = m.node)
    (hrange : m'.range = m.range) (hF : freeBytes m' = F) : Index m' lists A A := by
  refine hI.frame (fun _ _ => by rw [hnode]) (fun _ _ => by rw [hnode]) (fun _ _ => by rw [hnode])
    (fun _ _ => by rw [hrange]) (fun r hr => ?_)
  have hpos := hT.pos r hr
  have hmem : r ∈ freeBytes m' := by
    rw [hF, hT.cover]
    exact ⟨r, hr, le_rfl, by omega⟩
  exact hmem

theorem Start.freeBytes (h : Start m) : freeBytes m = ∅ := by
  ext j
  simp [MemoryRange.freeBytes, h.empty]

theorem Start.inv (h : Start m) : Inv m := by
  have hzero : ∀ s ∈ sentinels, m.heap.node s = Node.zero := h.zero
  have hempty := h.freeBytes
  refine ⟨fun _ => [], ∅, ⟨⟨fun s hs => ⟨fun _ => 0, ?_⟩, fun _ _ => List.Pairwise.nil, by simp, by simp⟩,
    by simp, by simp, by simp, by simp, by simp, by simp, subset_rfl, ?_⟩, ⟨⟨by simp, by simp, ?_⟩, ?_, ?_⟩⟩
  · have hlive : m.heap.live s := by
      cases s with
      | «at» a => exact absurd rfl (hs a)
      | _ => rfl
    exact SkipList.Threaded.empty hlive (fun i => by rw [SkipList.Heap.next, hzero s hs]; rfl) _
  · rw [SkipList.Heap.payload, hzero _ addr_sentinel]
    rfl
  · simp [hempty]
  · intro x hx
    exact absurd hx (Set.notMem_empty x)
  · rw [hempty]
    exact Set.empty_subset _

/-! ## One call -/

theorem Inv.insert (h : Inv m) (hreg : IsRegion m begin pages) (h0 : pages = 0 ∨ begin ≠ 0) :
    ∃ m', exec m (.insert begin pages) = some m' ∧ Inv m' ∧ m'.owned = (m.give begin pages).owned := by
  obtain ⟨lists, A, hI, hL⟩ := h
  rcases Nat.eq_zero_or_pos pages with rfl | hpages
  · -- Nothing is inserted.
    have howned : (m.give begin 0).owned = m.owned := by
      funext k
      have hno : ¬ (begin / pageSize ≤ k ∧ k < begin / pageSize + 0) := by omega
      simp only [Memory.give, ← Bool.decide_and, hno, decide_false, Bool.or_false]
    refine ⟨m.give begin 0, rfl, ⟨lists, A, ?_, ?_⟩, rfl⟩
    · exact hI.reown hL.tiling rfl rfl (by rw [freeBytes, howned]; rfl)
    · have hfree : freeBytes (m.give begin 0) = freeBytes m := by rw [freeBytes, howned]; rfl
      exact ⟨by rw [hfree]; exact hL.tiling, hL.separated, by rw [hfree]; exact hL.bound⟩
  · have hb := hreg.aligned
    have hpos : 0 < begin := Nat.pos_of_ne_zero (h0.resolve_left hpages.ne')
    have hT := hL.tiling
    have hI₁ : Index (m.give begin pages) lists A A := by
      refine hI.frame (fun _ _ => rfl) (fun _ _ => rfl) (fun _ _ => rfl) (fun _ _ => rfl) (fun r hr => ?_)
      simp only [Memory.give, (hI.header r hr).owned, Bool.true_or]
    have ho : (m.give begin pages).owned (begin / pageSize) := by
      simp only [Memory.give, le_refl, decide_true, Bool.true_and, Bool.or_eq_true, decide_eq_true_eq]
      omega
    have hfresh : ∀ j, begin ≤ j → j < begin + pages * pageSize → j ∉ freeBytes m := by
      intro j h1 h2 hj
      have := hreg.fresh (j / pageSize) (Nat.div_le_div_right h1)
        (by simp only [pageSize_val] at *; omega)
      rw [freeBytes, Set.mem_ofPred_eq, this] at hj
      exact absurd hj (by simp)
    obtain ⟨m', lists', A', hrun, hI', howned, hT', hsep'⟩ := newMemoryRange_spec hI₁ hT hL.separated hL.bound
      hb hpos hpages hreg.fits ho hfresh
    have hfree : freeBytes m' = freeBytes m ∪ Set.Ico begin (begin + pages * pageSize) := by
      rw [← freeBytes_give hb, freeBytes, howned, freeBytes]
    refine ⟨m', ?_, ⟨lists', A', hI', ?_, hsep', ?_⟩, howned⟩
    · rw [exec, insertNewMemoryRange_eq hb hpages, hrun]
    · rw [hfree]; exact hT'
    · rw [hfree]
      rintro j (hj | ⟨-, hj⟩)
      · exact hL.bound hj
      · exact lt_of_lt_of_le hj hreg.fits

theorem Inv.write (h : Inv m) (node : NodePtr → Node NodePtr) (range : Nat → Range) :
    ∃ m', exec m (.write node range) = some m' ∧ Inv m' ∧ m'.owned = m.owned := by
  obtain ⟨lists, A, hI, hL⟩ := h
  have hrange : ∀ r ∈ A, (if m.ownsObject r sizeofMemoryRange then m.range r else range r) = m.range r :=
    fun r hr => if_pos (owns_range (hI.header r hr).aligned (hI.header r hr).owned)
  refine ⟨_, rfl, ⟨lists, A, hI.frame ?_ ?_ ?_ hrange ?_, ?_⟩, rfl⟩
  · intro s hs
    cases s with
    | «at» a => exact absurd rfl (hs a)
    | _ => rfl
  · intro r hr
    exact if_pos (live_sizeNode (hI.header r hr).aligned (hI.header r hr).owned)
  · intro r hr
    exact if_pos (live_addrNode (hI.header r hr).aligned (hI.header r hr).owned)
  · exact fun r hr => (hI.header r hr).owned
  · have hlen : ∀ r ∈ A, (if m.ownsObject r sizeofMemoryRange then m.range r else range r).pages * pageSize =
        len m r := fun r hr => by rw [hrange r hr, len]
    exact ⟨hL.tiling.congr hlen, hL.separated.mono subset_rfl fun r hr => (hlen r hr).le, hL.bound⟩

/-- A call takes the block at `begin` from the range `x` and leaves `m'`. -/
structure Allocates (m m' : Memory) (need : Nat) (exact : Bool) (x begin : Nat) (A A' : Set ℕ) : Prop where
  picked : picked m need exact = some (sizeNode x)
  takes : Takes m m' A A' x need
  begin_eq : 0 < need → begin = x + ((m.range x).pages - need) * pageSize
  aligned : begin % pageSize = 0
  block : Set.Ico begin (begin + need * pageSize) ⊆ freeBytes m
  owned : m'.owned = m.owned
  before : ∃ lists, Index m lists A A
  after : ∃ lists, Index (m'.take begin need) lists A' A'
  layout : Layout (m'.take begin need) A'

theorem Allocates.inv {x : ℕ} {A' : Set ℕ} (h : Allocates m m' need exact x begin A A') :
    Inv (m'.take begin need) := by
  obtain ⟨lists, hI⟩ := h.after
  exact ⟨lists, A', hI, h.layout⟩

theorem Inv.allocate (h : Inv m) (hsound : exact = true ∨ ¬ Short m need exact) :
    (picked m need exact = none ∧
      ∀ out, allocatePages m out need exact = some (false, { out with pages := 0 }, m)) ∨
    ∃ m' x begin A A', Allocates m m' need exact x begin A A' ∧
      ∀ out, allocatePages m out need exact = some (true, ⟨need, begin⟩, m') := by
  obtain ⟨lists, A, hI, hL⟩ := h
  cases hp : picked m need exact with
  | none => exact Or.inl ⟨rfl, fun out => allocatePages_none hI hp⟩
  | some n =>
    have hle : need ≤ m.heap.weight n := by
      rcases hsound with rfl | hshort
      · obtain ⟨s, hs, hb, -⟩ := allocatePages_first hI hp
        exact (hI.best_exact (searched_sub hs)).1 n hb
      · by_contra hlt
        exact hshort ⟨n, hp, Nat.lt_of_not_le hlt⟩
    obtain ⟨x, m', lists', A', rfl, hrun, hI', howned, htakes⟩ :=
      allocatePages_some hI hL.tiling hL.bound hp hle
    have hx := hI.header x htakes.mem
    obtain ⟨begin, hword, hbegin, haligned, hblock⟩ :=
      htakes.block hx.aligned (tiling_end hL.tiling hL.bound htakes.mem)
    rw [← hword] at hrun
    have hfree : freeBytes (m'.take begin need) =
        freeBytes m \ Set.Ico (x + ((m.range x).pages - need) * pageSize) (x + len m x) := by
      rw [freeBytes_take haligned, hblock, freeBytes, howned, freeBytes]
    have hT := htakes.tiling hL.tiling
    refine Or.inr ⟨m', x, begin, A, A', ⟨hp, htakes, hbegin, haligned, ?_, howned, ⟨lists, hI⟩,
      ⟨lists', hI'.reown hT rfl rfl hfree⟩, ?_, htakes.separated hL.separated, ?_⟩, hrun⟩
    · rw [hblock]
      rintro j ⟨h1, h2⟩
      exact (hL.tiling.cover j).mpr ⟨x, htakes.mem, by omega, h2⟩
    · rw [hfree]; exact hT
    · rw [hfree]; exact Set.sdiff_subset.trans hL.bound

theorem Inv.returns (h : Inv m) (hs : Sound m c) : ∃ m', exec m c = some m' ∧ Inv m' := by
  cases c with
  | insert begin pages =>
    obtain ⟨m', hrun, hI, -⟩ := h.insert hs.1 hs.2
    exact ⟨m', hrun, hI⟩
  | allocate out need exact =>
    rcases h.allocate hs with ⟨-, hrun⟩ | ⟨m', x, begin, A, A', hA, hrun⟩
    · exact ⟨m, by simp [exec, hrun], h⟩
    · exact ⟨m'.take begin need, by simp [exec, hrun], hA.inv⟩
  | write node range =>
    obtain ⟨m', hrun, hI, -⟩ := h.write node range
    exact ⟨m', hrun, hI⟩

theorem Inv.step (h : Inv m) (hs : Sound m c) (hrun : exec m c = some m') : Inv m' := by
  obtain ⟨m₁, hrun₁, hI⟩ := h.returns hs
  obtain rfl : m₁ = m' := Option.some.inj (hrun₁.symm.trans hrun)
  exact hI

theorem reachable_inv {allowed : Memory → Call → Prop} (hr : Reachable client allowed m)
    (hsound : ∀ m c, allowed m c → Sound m c) : Inv m := by
  apply hr.invariant (P := Inv)
  · exact fun m h => h.inv
  · exact fun m c m' h ha hrun => h.step (hsound m c ha) hrun

end GenericOs.MemoryRange
