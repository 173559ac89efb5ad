import GenericOs.MemoryRange.Spec

/-!
# What the functions of `MemoryRange.c` do

One spec per function, for ranges that start at a page other than page 0.
-/

namespace GenericOs.MemoryRange

open SkipList (Heap Node Forest Loose Relinked)
open Interval (Tiling Separated IsRun)

variable {m m' : Memory} {lists : NodePtr → List NodePtr} {A Z : Set ℕ} {r a b pages : ℕ} {s n : NodePtr}

theorem memoryRangeToSentinel_spec (h0 : r ≠ 0) (hr : r % pageSize = 0) (ho : m.owned (r / pageSize)) :
    memoryRangeToSentinel m r = some (some (rangeClass m r)) := by
  have hload : m.loadRange r = some (m.range r) := by
    rw [Memory.loadRange, if_pos (owns_range hr ho)]
  unfold memoryRangeToSentinel rangeClass sizeClass
  simp only [if_neg h0, hload, Option.bind_eq_bind, Option.bind_some]
  split_ifs <;> rfl

theorem Header.congr (h : Header m r) (howned : m'.owned = m.owned)
    (hsize : (m'.range r).sizeNode = (m.range r).sizeNode)
    (haddr : (m'.range r).addrNode = (m.range r).addrNode)
    (hpayload : ∀ n, m'.heap.payload n = m.heap.payload n) : Header m' r :=
  ⟨h.aligned, h.pos, h.lt, by rw [howned]; exact h.owned, hsize.trans h.sizeField, haddr.trans h.addrField,
    (hpayload _).trans h.sizePayload, (hpayload _).trans h.addrPayload⟩

/-- The lists read the list heads and, of each range, its header. -/
theorem Index.frame (hI : Index m lists A Z) (hsent : ∀ s ∈ sentinels, m'.node s = m.node s)
    (hsize : ∀ r ∈ A, m'.node (sizeNode r) = m.node (sizeNode r))
    (haddr : ∀ r ∈ A, m'.node (addrNode r) = m.node (addrNode r))
    (hrange : ∀ r ∈ A, m'.range r = m.range r) (howned : ∀ r ∈ A, m'.owned (r / pageSize)) :
    Index m' lists A Z := by
  have hclass : ∀ r ∈ A, rangeClass m' r = rangeClass m r := fun r hr => by
    rw [rangeClass, hrange r hr, rangeClass]
  refine ⟨hI.forest.congr ?_ ?_, hI.addr_mem, ?_, ?_, ?_, ?_, ?_, hI.sub, ?_⟩
  · intro a ha
    match a, hI.forest.live ha with
    | .at x, _ =>
      obtain ⟨r, hr, he⟩ := hI.node_cases ha (by simp [sentinels])
      have hh := hI.header r hr
      rcases he with he | he
      · rw [he]; exact live_sizeNode hh.aligned (howned r hr)
      · rw [he]; exact live_addrNode hh.aligned (howned r hr)
    | .unaligned2M, _ | .aligned2MBig, _ | .aligned2M, _ | .addr, _ => rfl
  · intro a ha
    by_cases hs : a ∈ sentinels
    · exact hsent a hs
    · obtain ⟨r, hr, rfl | rfl⟩ := hI.node_cases ha hs
      · exact hsize r hr
      · exact haddr r hr
  · intro s hs n
    rw [hI.size_mem s hs]
    constructor
    · rintro ⟨r, hr, he, hc⟩
      exact ⟨r, hr, he, by rwa [hclass r (hI.sub hr)]⟩
    · rintro ⟨r, hr, he, hc⟩
      exact ⟨r, hr, he, by rwa [hclass r (hI.sub hr)] at hc⟩
  · intro r hr
    have hh := hI.header r hr
    refine ⟨hh.aligned, hh.pos, hh.lt, howned r hr, ?_, ?_, ?_, ?_⟩
    · rw [hrange r hr]; exact hh.sizeField
    · rw [hrange r hr]; exact hh.addrField
    · exact (congrArg Node.payload (hsize r hr)).trans hh.sizePayload
    · exact (congrArg Node.payload (haddr r hr)).trans hh.addrPayload
  · intro r hr; rw [hrange r hr]; exact hI.begin r hr
  · exact fun r hr => (congrArg Node.weight (haddr r hr)).trans (hI.addrWeight r hr)
  · intro r hr
    rw [hrange r (hI.sub hr), ← hI.sizeWeight r hr]
    exact congrArg Node.weight (hsize r (hI.sub hr))
  · rw [← hI.null]; exact congrArg Node.payload (hsent _ addr_sentinel)

/-! ## `SetMemoryRangePages` and `SetMemoryRangeBegin` -/

/-- What both setters do once the field is written: the node `n` gets the weight `w`, leaves the list it
may be in, and goes into the list of `s` with a random height. -/
theorem relink_spec (hI : Index m lists A Z) (hlive : m.heap.live n)
    (hcase : (∃ s ∈ sentinels, n ∈ lists s) ∨ (Loose sentinels lists n ∧ m.heap.prev 0 n = none))
    (w : Nat) (range : Nat → Range) (p : ℚ) :
    ∃ h, SkipList.skipListRemove (m.heap.withWeight n w) (some n) = some h ∧
      ∀ s ∈ sentinels, ∃ m' lists',
        (let (height, m) :=
          randomMemoryRangeHeight { m with range := range, node := h.node } p SkipList.skipListMaxLevels;
        (SkipList.skipListInsert rounds m.heap (some s) (some n) height).bind
          fun h => some (m.withHeap h)) = some m' ∧
        m'.owned = m.owned ∧ m'.range = range ∧ Forest m'.heap sentinels lists' ∧
        (∀ t ∈ sentinels, ∀ a, a ∈ lists' t ↔ (t = s ∧ a = n) ∨ (a ∈ lists t ∧ a ≠ n)) ∧
        Relinked {a | a = n ∨ ¬ Loose sentinels lists a} (m.heap.withWeight n w) m'.heap := by
  obtain ⟨h₁, hrem, hlive₁, hins⟩ := hI.forest.move hlive hcase w
  refine ⟨h₁, hrem, fun s hs => ?_⟩
  -- `m₁` is the memory between the two halves.
  let m₁ : Memory := { m with range := range, node := h₁.node }
  have hheap₁ : m₁.heap = h₁ := heap_withHeap (m := m) hlive₁
  obtain ⟨height, random, hrandom, hpos⟩ := randomMemoryRangeHeight_spec m₁ p SkipList.skipListMaxLevels
  obtain ⟨h', lists', hins', hF', hmem, hrel⟩ := hins s hs height hpos _ (hI.length_lt hs)
  let m' : Memory := { m₁ with random := random, node := h'.node }
  have hheap' : m'.heap = h' := heap_withHeap (m := m) hrel.live
  refine ⟨m', lists', ?_, rfl, rfl, by rwa [hheap'], hmem, by rwa [hheap']⟩
  rw [hrandom]
  change (SkipList.skipListInsert rounds m₁.heap _ _ _).bind _ = _
  rw [hheap₁, hins']
  rfl

theorem setMemoryRangePages_spec (hI : Index m lists A Z) (hr : r ∈ A)
    (hcase : r ∈ Z ∨ (r ∉ Z ∧ m.heap.prev 0 (sizeNode r) = none)) (pages : Nat) :
    ∃ m' lists', setMemoryRangePages m r pages = some m' ∧ Index m' lists' A (insert r Z) ∧
      m'.owned = m.owned ∧ m'.range = Function.update m.range r { m.range r with pages := pages } := by
  have hh := hI.header r hr
  have hlive : m.heap.live (sizeNode r) := live_sizeNode hh.aligned hh.owned
  obtain ⟨x, hx⟩ : ∃ x, x = { m.range r with pages := pages } := ⟨_, rfl⟩
  have hcase' : (∃ s ∈ sentinels, sizeNode r ∈ lists s) ∨
      (Loose sentinels lists (sizeNode r) ∧ m.heap.prev 0 (sizeNode r) = none) := by
    rcases hcase with hz | ⟨hz, hprev⟩
    · have hs := rangeClass_sentinel m r
      exact Or.inl ⟨_, hs.1, (hI.size_iff hs).mpr ⟨hz, rfl⟩⟩
    · exact Or.inr ⟨hI.loose_size hh.aligned hz, hprev⟩
  obtain ⟨h₁, hrem, hins⟩ := relink_spec hI hlive hcase' pages (Function.update m.range r x) memrangeSizeP
  let m₁ : Memory := { m with range := Function.update m.range r x, node := h₁.node }
  have hs := rangeClass_sentinel m₁ r
  obtain ⟨m', lists', hins', howned, hrange', hF', hmem, hrel⟩ := hins _ hs.1
  refine ⟨m', lists', ?_, ?_, howned, by rw [hrange', hx]⟩
  · have hset : m.heap.setWeight (sizeNode r) pages = some (m.heap.withWeight (sizeNode r) pages) :=
      Heap.setWeight_eq hlive
    have hsent : memoryRangeToSentinel m₁ r = some (some (rangeClass m₁ r)) :=
      memoryRangeToSentinel_spec (Nat.pos_iff_ne_zero.mp hh.pos) hh.aligned hh.owned
    unfold setMemoryRangePages
    simp only [hh.load, hh.store, Option.bind_eq_bind, Option.bind_some]
    rw [← hx, hh.sizeField]
    change (m.heap.setWeight (sizeNode r) pages).bind _ = _
    rw [hset, Option.bind_some, hrem, Option.bind_some]
    change (memoryRangeToSentinel m₁ r).bind _ = _
    rw [hsent, Option.bind_some]
    exact hins'
  -- Only the class of `r` may have changed.
  · have hrange : ∀ y, y ≠ r → m'.range y = m.range y := fun y hy => by
      rw [hrange', Function.update_of_ne hy]
    have hranger : m'.range r = x := by rw [hrange', Function.update_self]
    have hs₁ : rangeClass m₁ r = rangeClass m' r := by rw [rangeClass, rangeClass, hrange']
    rw [hs₁] at hs hmem
    have hclass : ∀ y, y ≠ r → rangeClass m' y = rangeClass m y := fun y hy => by
      rw [rangeClass, hrange y hy, rangeClass]
    have hw : ∀ n, m'.heap.weight n = if n = sizeNode r then pages else m.heap.weight n := fun n => by
      rw [hrel.weight, Heap.weight_withWeight]
    have hp : ∀ n, m'.heap.payload n = m.heap.payload n := fun n => by
      rw [hrel.payload, Heap.payload_withWeight]
    refine ⟨hF', ?_, ?_, ?_, ?_, ?_, ?_, ?_, ?_⟩
    · intro n
      rw [hmem _ addr_sentinel, hI.addr_mem]
      constructor
      · rintro (⟨he, -⟩ | ⟨hn, -⟩)
        · exact absurd he.symm hs.2
        · exact hn
      · rintro ⟨y, hy, rfl⟩
        exact Or.inr ⟨⟨y, hy, rfl⟩, (sizeNode_ne_addrNode hh.aligned (hI.header y hy).aligned).symm⟩
    · intro t ht n
      rw [hmem t ht.1, hI.size_mem t ht]
      constructor
      · rintro (⟨rfl, rfl⟩ | ⟨⟨y, hy, rfl, hc⟩, hne⟩)
        · exact ⟨r, Or.inl rfl, rfl, rfl⟩
        · have hyr : y ≠ r := by rintro rfl; exact hne rfl
          exact ⟨y, Or.inr hy, rfl, by rw [hclass y hyr, hc]⟩
      · rintro ⟨y, hy, rfl, hc⟩
        by_cases hyr : y = r
        · subst hyr
          exact Or.inl ⟨hc.symm, rfl⟩
        · rw [hclass y hyr] at hc
          exact Or.inr ⟨⟨y, hy.resolve_left hyr, rfl, hc⟩, by simpa using hyr⟩
    · intro y hy
      have hfields : (m'.range y).sizeNode = (m.range y).sizeNode ∧
          (m'.range y).addrNode = (m.range y).addrNode := by
        by_cases hyr : y = r
        · rw [hyr, hranger, hx]; exact ⟨rfl, rfl⟩
        · rw [hrange y hyr]; exact ⟨rfl, rfl⟩
      exact (hI.header y hy).congr howned hfields.1 hfields.2 hp
    · intro y hy
      by_cases hyr : y = r
      · rw [hyr, hranger, hx]; exact hI.begin r hr
      · rw [hrange y hyr]; exact hI.begin y hy
    · intro y hy
      rw [hw, if_neg (sizeNode_ne_addrNode hh.aligned (hI.header y hy).aligned).symm, hI.addrWeight y hy]
    · intro y hy
      rw [hw]
      by_cases hyr : y = r
      · rw [hyr, if_pos rfl, hranger, hx]
      · rw [if_neg (by simpa using hyr), hrange y hyr, hI.sizeWeight y (hy.resolve_left hyr)]
    · rintro y (rfl | hy)
      · exact hr
      · exact hI.sub hy
    · rw [hp]; exact hI.null

/-- The range is new: its size node stays as it is. -/
theorem setMemoryRangeBegin_spec (hI : Index m lists A Z) (hr : r ∉ A) (hh : Header m r)
    (hprev : m.heap.prev 0 (addrNode r) = none) :
    ∃ m' lists', setMemoryRangeBegin m r r = some m' ∧ Index m' lists' (insert r A) Z ∧
      m'.owned = m.owned ∧ m'.range = Function.update m.range r { m.range r with begin := r } ∧
      m'.heap.prev 0 (sizeNode r) = m.heap.prev 0 (sizeNode r) := by
  have hz : r ∉ Z := fun hz => hr (hI.sub hz)
  have hlive : m.heap.live (addrNode r) := live_addrNode hh.aligned hh.owned
  obtain ⟨x, hx⟩ : ∃ x, x = { m.range r with begin := r } := ⟨_, rfl⟩
  have hloose := hI.loose_addr hh.aligned hr
  obtain ⟨h₁, hrem, hins⟩ :=
    relink_spec hI hlive (Or.inr ⟨hloose, hprev⟩) r (Function.update m.range r x) memrangeAddrP
  obtain ⟨m', lists', hins', howned, hrange', hF', hmem, hrel⟩ := hins _ addr_sentinel
  refine ⟨m', lists', ?_, ?_, howned, by rw [hrange', hx], ?_⟩
  · have hset : m.heap.setWeight (addrNode r) r = some (m.heap.withWeight (addrNode r) r) :=
      Heap.setWeight_eq hlive
    unfold setMemoryRangeBegin
    simp only [hh.load, hh.store, Option.bind_eq_bind, Option.bind_some]
    rw [← hx, hh.addrField, Option.bind_some]
    change (m.heap.setWeight (addrNode r) r).bind _ = _
    rw [hset, Option.bind_some, hrem, Option.bind_some]
    exact hins'
  · have hrange : ∀ y, y ≠ r → m'.range y = m.range y := fun y hy => by
      rw [hrange', Function.update_of_ne hy]
    have hranger : m'.range r = x := by rw [hrange', Function.update_self]
    have hw : ∀ n, m'.heap.weight n = if n = addrNode r then r else m.heap.weight n := fun n => by
      rw [hrel.weight, Heap.weight_withWeight]
    have hp : ∀ n, m'.heap.payload n = m.heap.payload n := fun n => by
      rw [hrel.payload, Heap.payload_withWeight]
    have hne : ∀ y ∈ A, y ≠ r := by rintro y hy rfl; exact hr hy
    refine ⟨hF', ?_, ?_, ?_, ?_, ?_, ?_, ?_, ?_⟩
    · intro n
      rw [hmem _ addr_sentinel, hI.addr_mem]
      constructor
      · rintro (⟨-, rfl⟩ | ⟨⟨y, hy, rfl⟩, -⟩)
        · exact ⟨r, Or.inl rfl, rfl⟩
        · exact ⟨y, Or.inr hy, rfl⟩
      · rintro ⟨y, rfl | hy, rfl⟩
        · exact Or.inl ⟨rfl, rfl⟩
        · exact Or.inr ⟨⟨y, hy, rfl⟩, by simpa using hne y hy⟩
    · intro t ht n
      rw [hmem t ht.1, hI.size_mem t ht]
      constructor
      · rintro (⟨he, -⟩ | ⟨⟨y, hy, rfl, hc⟩, -⟩)
        · exact absurd he ht.2
        · exact ⟨y, hy, rfl, by rw [rangeClass, hrange y (hne y (hI.sub hy))]; exact hc⟩
      · rintro ⟨y, hy, rfl, hc⟩
        rw [rangeClass, hrange y (hne y (hI.sub hy))] at hc
        exact Or.inr ⟨⟨y, hy, rfl, hc⟩, sizeNode_ne_addrNode (hI.header y (hI.sub hy)).aligned hh.aligned⟩
    · rintro y (rfl | hy)
      · exact hh.congr howned (by rw [hranger, hx]) (by rw [hranger, hx]) hp
      · have he := hrange y (hne y hy)
        exact (hI.header y hy).congr howned (by rw [he]) (by rw [he]) hp
    · rintro y (rfl | hy)
      · rw [hranger, hx]
      · rw [hrange y (hne y hy)]; exact hI.begin y hy
    · rintro y (rfl | hy)
      · rw [hw, if_pos rfl]
      · rw [hw, if_neg (by simpa using hne y hy), hI.addrWeight y hy]
    · intro y hy
      rw [hw, if_neg (sizeNode_ne_addrNode (hI.header y (hI.sub hy)).aligned hh.aligned), hI.sizeWeight y hy,
        hrange y (hne y (hI.sub hy))]
    · exact fun y hy => Or.inr (hI.sub hy)
    · rw [hp]; exact hI.null
  · -- The size node is in no list yet, so nothing writes to it.
    have hne : sizeNode r ≠ addrNode r := sizeNode_ne_addrNode hh.aligned hh.aligned
    have hout : sizeNode r ∉ {a | a = addrNode r ∨ ¬ Loose sentinels lists a} := by
      rintro (he | hl)
      · exact hne he
      · exact hl (hI.loose_size hh.aligned hz)
    rw [Heap.prev, hrel.other _ hout]
    change (m.heap.withWeight (addrNode r) r).prev 0 (sizeNode r) = _
    rw [Heap.prev_withWeight]

/-! ## `MemoryRangeRemove` -/

theorem memoryRangeRemove_spec (hI : Index m lists A A) (hr : r ∈ A) :
    ∃ m' lists', memoryRangeRemove m r = some m' ∧ Index m' lists' (A \ {r}) (A \ {r}) ∧
      m'.owned = m.owned ∧ m'.range = m.range := by
  have hh := hI.header r hr
  have hs := rangeClass_sentinel m r
  have hne : sizeNode r ≠ addrNode r := sizeNode_ne_addrNode hh.aligned hh.aligned
  obtain ⟨h₁, lists₁, hrun₁, hF₁, hmem₁, hrel₁⟩ :=
    hI.forest.remove m.heap addr_sentinel (hI.addr_iff.mpr hr) rfl (by simp) (by simp)
  have hin : sizeNode r ∈ lists₁ (rangeClass m r) :=
    (hmem₁ _ hs.1 _).mpr ⟨(hI.size_iff hs).mpr ⟨hr, rfl⟩, hne⟩
  obtain ⟨h₂, lists₂, hrun₂, hF₂, hmem₂, hrel₂⟩ := hF₁.remove h₁ hs.1 hin rfl (by simp) (by simp)
  let m' : Memory := { m with node := h₂.node }
  have hheap' : m'.heap = h₂ := heap_withHeap (hrel₂.live.trans hrel₁.live)
  have hw : ∀ n, m'.heap.weight n = m.heap.weight n := fun n => by rw [hheap', hrel₂.weight, hrel₁.weight]
  have hp : ∀ n, m'.heap.payload n = m.heap.payload n := fun n => by
    rw [hheap', hrel₂.payload, hrel₁.payload]
  refine ⟨m', lists₂, ?_, ?_, rfl, rfl⟩
  · simp only [memoryRangeRemove, hh.load, hh.addrField, hh.sizeField, hrun₁, hrun₂, Option.bind_eq_bind,
      Option.bind_some]
    rfl
  refine ⟨by rw [hheap']; exact hF₂, ?_, ?_, ?_, fun y hy => hI.begin y hy.1, ?_, ?_, fun _ hy => hy, ?_⟩
  · intro n
    rw [hmem₂ _ addr_sentinel, hmem₁ _ addr_sentinel, hI.addr_mem]
    constructor
    · rintro ⟨⟨⟨y, hy, rfl⟩, h1⟩, -⟩
      exact ⟨y, ⟨hy, by rintro rfl; exact h1 rfl⟩, rfl⟩
    · rintro ⟨y, ⟨hy, hyr⟩, rfl⟩
      exact ⟨⟨⟨y, hy, rfl⟩, by simpa using hyr⟩,
        (sizeNode_ne_addrNode hh.aligned (hI.header y hy).aligned).symm⟩
  · intro t ht n
    rw [hmem₂ _ ht.1, hmem₁ _ ht.1, hI.size_mem t ht]
    constructor
    · rintro ⟨⟨⟨y, hy, rfl, hc⟩, -⟩, h1⟩
      exact ⟨y, ⟨hy, by rintro rfl; exact h1 rfl⟩, rfl, hc⟩
    · rintro ⟨y, ⟨hy, hyr⟩, rfl, hc⟩
      exact ⟨⟨⟨y, hy, rfl, hc⟩, sizeNode_ne_addrNode (hI.header y hy).aligned hh.aligned⟩,
        by simpa using hyr⟩
  · exact fun y hy => (hI.header y hy.1).congr rfl rfl rfl hp
  · intro y hy; rw [hw]; exact hI.addrWeight y hy.1
  · intro y hy; rw [hw]; exact hI.sizeWeight y hy.1
  · rw [hp]; exact hI.null

/-! ## Neighbours -/

/-- The address list is in the order of the addresses. -/
theorem Index.addr_split (hI : Index m lists A Z) (hr : r ∈ A) :
    ∃ xs ys, Pointer.Chain (m.heap.next 0) (m.heap.prev 0) .addr (xs ++ addrNode r :: ys) ∧
      (∀ n, n ∈ xs ↔ ∃ y ∈ A, y < r ∧ n = addrNode y) ∧ (∀ n, n ∈ ys ↔ ∃ y ∈ A, r < y ∧ n = addrNode y) ∧
      SkipList.Sorted m.heap xs ∧ SkipList.Sorted m.heap ys := by
  obtain ⟨ht, hT⟩ := hI.forest.threaded _ addr_sentinel
  have hS := hI.forest.sorted _ addr_sentinel
  have hnd := (List.nodup_cons.mp hT.nodup).2
  have hmem := hI.addr_mem
  obtain ⟨xs, ys, hsplit⟩ := List.append_of_mem (hI.addr_iff.mpr hr)
  have hc := hT.chain_zero
  rw [hsplit] at hS hnd hmem hc
  obtain ⟨hSx, hSy, hSxy⟩ := List.pairwise_append.mp hS
  obtain ⟨hSr, hSy⟩ := List.pairwise_cons.mp hSy
  rw [List.nodup_middle, List.nodup_cons] at hnd
  have hwr := hI.addrWeight r hr
  have hle : ∀ y ∈ A, addrNode y ∈ xs → y < r := by
    intro y hy hm
    have := hSxy _ hm (addrNode r) (by simp)
    rw [hwr, hI.addrWeight y hy] at this
    have hne : y ≠ r := by rintro rfl; exact hnd.1 (by simp [hm])
    omega
  have hge : ∀ y ∈ A, addrNode y ∈ ys → r < y := by
    intro y hy hm
    have := hSr _ hm
    rw [hwr, hI.addrWeight y hy] at this
    have hne : y ≠ r := by rintro rfl; exact hnd.1 (by simp [hm])
    omega
  refine ⟨xs, ys, hc, fun n => ?_, fun n => ?_, hSx, hSy⟩
  · constructor
    · intro hm
      obtain ⟨y, hy, rfl⟩ := (hmem n).mp (by simp [hm])
      exact ⟨y, hy, hle y hy hm, rfl⟩
    · rintro ⟨y, hy, hlt, rfl⟩
      have hm := (hmem (addrNode y)).mpr ⟨y, hy, rfl⟩
      rcases List.mem_append.mp hm with hm | hm
      · exact hm
      · rcases List.mem_cons.mp hm with he | hm
        · rw [addrNode_inj] at he; omega
        · have := hge y hy hm; omega
  · constructor
    · intro hm
      obtain ⟨y, hy, rfl⟩ := (hmem n).mp (by simp [hm])
      exact ⟨y, hy, hge y hy hm, rfl⟩
    · rintro ⟨y, hy, hlt, rfl⟩
      have hm := (hmem (addrNode y)).mpr ⟨y, hy, rfl⟩
      rcases List.mem_append.mp hm with hm | hm
      · have := hle y hy hm; omega
      · rcases List.mem_cons.mp hm with he | hm
        · rw [addrNode_inj] at he; omega
        · exact hm

/-- The range behind `r`, or 0. -/
def IsNext (A : Set ℕ) (r p : ℕ) : Prop :=
  (p = 0 ∧ ∀ y ∈ A, y ≤ r) ∨ (p ∈ A ∧ r < p ∧ ∀ y ∈ A, r < y → p ≤ y)

/-- The range before `r`, or 0. -/
def IsPrev (A : Set ℕ) (r p : ℕ) : Prop :=
  (p = 0 ∧ ∀ y ∈ A, r ≤ y) ∨ (p ∈ A ∧ p < r ∧ ∀ y ∈ A, y < r → y ≤ p)

theorem Index.payload_addrNode (hI : Index m lists A Z) (hr : r ∈ A) :
    SkipList.skipListPayload m.heap (some (addrNode r)) = some r := by
  have hh := hI.header r hr
  have hload : m.heap.load (addrNode r) = some (m.heap.node (addrNode r)) :=
    Heap.load_eq (live_addrNode hh.aligned hh.owned)
  simp only [SkipList.skipListPayload, hload, Option.bind_eq_bind, Option.bind_some]
  exact congrArg some hh.addrPayload

theorem Index.next_spec (hI : Index m lists A Z) (hr : r ∈ A) :
    ∃ n p, SkipList.skipListNext m.heap (some (addrNode r)) = some n ∧
      SkipList.skipListPayload m.heap n = some p ∧ IsNext A r p := by
  obtain ⟨xs, ys, hc, -, hys, -, hS⟩ := hI.addr_split hr
  have hh := hI.header r hr
  have hload : m.heap.load (addrNode r) = some (m.heap.node (addrNode r)) :=
    Heap.load_eq (live_addrNode hh.aligned hh.owned)
  have hnext : SkipList.skipListNext m.heap (some (addrNode r)) = some ys.head? := by
    simp only [SkipList.skipListNext, hload, Option.bind_eq_bind, Option.bind_some]
    exact congrArg some hc.at_last.2.2.next_head
  refine ⟨ys.head?, ?_⟩
  cases ys with
  | nil =>
    refine ⟨0, hnext, rfl, Or.inl ⟨rfl, fun y hy => ?_⟩⟩
    by_contra hlt
    exact absurd ((hys (addrNode y)).mpr ⟨y, hy, by omega, rfl⟩) (by simp)
  | cons z zs =>
    obtain ⟨p, hp, hlt, rfl⟩ := (hys z).mp (by simp)
    refine ⟨p, hnext, hI.payload_addrNode hp, Or.inr ⟨hp, hlt, fun y hy hry => ?_⟩⟩
    rcases List.mem_cons.mp ((hys (addrNode y)).mpr ⟨y, hy, hry, rfl⟩) with he | hm
    · rw [addrNode_inj] at he; omega
    · have := (List.pairwise_cons.mp hS).1 _ hm
      rwa [hI.addrWeight p hp, hI.addrWeight y hy] at this

theorem Index.prev_spec (hI : Index m lists A Z) (hr : r ∈ A) :
    ∃ n p, SkipList.skipListPrev m.heap (some (addrNode r)) = some n ∧
      SkipList.skipListPayload m.heap n = some p ∧ IsPrev A r p := by
  obtain ⟨xs, ys, hc, hxs, -, hS, -⟩ := hI.addr_split hr
  have hh := hI.header r hr
  have hload : m.heap.load (addrNode r) = some (m.heap.node (addrNode r)) :=
    Heap.load_eq (live_addrNode hh.aligned hh.owned)
  have hprev : SkipList.skipListPrev m.heap (some (addrNode r)) = some (some (xs.getLastD .addr)) := by
    simp only [SkipList.skipListPrev, hload, Option.bind_eq_bind, Option.bind_some]
    exact congrArg some hc.prev_mem
  rcases List.eq_nil_or_concat xs with rfl | ⟨zs, z, rfl⟩
  · -- Before the first range stands the list head, which has no payload.
    refine ⟨_, 0, hprev, ?_, Or.inl ⟨rfl, fun y hy => ?_⟩⟩
    · have hload : m.heap.load .addr = some (m.heap.node .addr) := Heap.load_eq rfl
      simp only [SkipList.skipListPayload, List.getLastD_nil, hload, Option.bind_eq_bind, Option.bind_some]
      exact congrArg some hI.null
    · by_contra hlt
      exact absurd ((hxs (addrNode y)).mpr ⟨y, hy, by omega, rfl⟩) (by simp)
  · rw [List.concat_eq_append] at *
    obtain ⟨p, hp, hlt, rfl⟩ := (hxs z).mp (by simp)
    rw [List.getLastD_concat] at hprev
    refine ⟨_, p, hprev, hI.payload_addrNode hp, Or.inr ⟨hp, hlt, fun y hy hyr => ?_⟩⟩
    rcases List.mem_append.mp ((hxs (addrNode y)).mpr ⟨y, hy, hyr, rfl⟩) with hm | hm
    · have := (List.pairwise_append.mp hS).2.2 _ hm (addrNode p) (by simp)
      rwa [hI.addrWeight p hp, hI.addrWeight y hy] at this
    · rw [List.mem_singleton, addrNode_inj] at hm; omega

end GenericOs.MemoryRange
