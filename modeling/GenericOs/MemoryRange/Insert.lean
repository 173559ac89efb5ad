import GenericOs.MemoryRange.Proofs

/-!
# Inserting a region

A new range may touch its neighbours. `TryMergeMemoryRangesWithPrev` removes the joint
in front of its range, and the two calls of `NewMemoryRange` remove all there are.
-/

namespace GenericOs.MemoryRange

open SkipList (Heap Node Forest Loose Relinked)
open Interval (Tiling Separated joints)

variable {m m' : Memory} {lists : NodePtr → List NodePtr} {A Z F : Set ℕ} {r p pages : ℕ}

/-! ## Merging -/

/-- Only the range directly before `r` can touch it. -/
theorem IsPrev.joint (hp : IsPrev A r p) (hT : Tiling A (len m) F) (hj : r ∈ joints A (len m)) :
    p ∈ A ∧ p < r ∧ p + len m p = r := by
  obtain ⟨hr, x, hx, he⟩ := hj
  have hpos := hT.pos x hx
  rcases hp with ⟨-, hall⟩ | ⟨hp, hlt, hall⟩
  · have := hall x hx
    omega
  · refine ⟨hp, hlt, ?_⟩
    have hle := hall x hx (by omega)
    rcases Nat.lt_or_eq_of_le hle with hxp | rfl
    · have := hT.apart x hx p hp hxp
      omega
    · exact he

theorem tryMergeMemoryRangesWithPrev_spec (hI : Index m lists A A) (hT : Tiling A (len m) F)
    (hF : F ⊆ Set.Iio (2 ^ 64)) (hr : r = 0 ∨ r ∈ A) :
    ∃ m' lists' A', tryMergeMemoryRangesWithPrev m r = some m' ∧ Index m' lists' A' A' ∧
      m'.owned = m.owned ∧ Tiling A' (len m') F ∧ joints A' (len m') ⊆ joints A (len m) \ {r} ∧
      A \ {r} ⊆ A' := by
  rcases hr with rfl | hr
  · -- The null range.
    refine ⟨m, lists, A, rfl, hI, rfl, hT, ?_, fun _ h => h.1⟩
    rintro y hy
    refine ⟨hy, ?_⟩
    rintro rfl
    exact absurd (hI.header 0 hy.1).pos (by omega)
  have hh := hI.header r hr
  obtain ⟨n, p, hprev, hpayload, hp⟩ := hI.prev_spec hr
  by_cases htouch : p ∈ A ∧ p < r ∧ p + len m p = r
  · obtain ⟨hpA, hlt, htouch⟩ := htouch
    have hhp := hI.header p hpA
    have hend := tiling_end hT hF hr
    have hpr := hh.lt
    unfold len at hend htouch
    have hwp : word ((m.range p).pages * pageSize) = (m.range p).pages * pageSize := word_eq (by omega)
    have hsum : word ((m.range p).pages + (m.range r).pages) = (m.range p).pages + (m.range r).pages := by
      apply word_eq
      simp only [pageSize_val] at *
      omega
    obtain ⟨m₁, lists₁, hset, hI₁, howned₁, hrange₁⟩ := setMemoryRangePages_spec hI hpA (Or.inl hpA)
      ((m.range p).pages + (m.range r).pages)
    rw [Set.insert_eq_of_mem hpA] at hI₁
    obtain ⟨m₂, lists₂, hrem, hI₂, howned₂, hrange₂⟩ := memoryRangeRemove_spec hI₁ hr
    have hlenp : len m₂ p = len m p + len m r := by
      rw [len_update (hrange₂.trans hrange₁)]
      exact Nat.add_mul ..
    have hlen : ∀ a ∈ A, a ≠ p → len m₂ a = len m a := by
      intro a _ hap
      exact len_update_of_ne (hrange₂.trans hrange₁) hap
    refine ⟨m₂, lists₂, A \ {r}, ?_, hI₂, howned₂.trans howned₁, hT.merge hpA hr hlt htouch hlenp hlen,
      Interval.joints_merge hr htouch hlenp hlen, subset_rfl⟩
    unfold tryMergeMemoryRangesWithPrev
    simp only [hh.pos.ne', hhp.pos.ne', if_false, hh.load, hhp.load, hh.addrField, hprev, hpayload,
      hI.begin p hpA, hI.begin r hr, hwp, htouch, word_eq hpr, ne_eq, not_true, beq_self_eq_true,
      modHugepageSize_aligned hhp.aligned, Bool.not_true, Bool.false_and, Bool.false_eq_true, hsum, hset,
      hrem, Option.bind_eq_bind, Option.bind_some]
  · -- There is no joint at `r`.
    refine ⟨m, lists, A, ?_, hI, rfl, hT, fun y hy => ⟨hy, ?_⟩, fun _ h => h.1⟩
    · unfold tryMergeMemoryRangesWithPrev
      simp only [hh.pos.ne', if_false, hh.load, hh.addrField, hprev, hpayload, hI.begin r hr,
        Option.bind_eq_bind, Option.bind_some]
      rcases hp with ⟨rfl, -⟩ | ⟨hpA, hlt, -⟩
      · rfl
      · have hhp := hI.header p hpA
        have hle := hT.apart p hpA r hr hlt
        have hpr := hh.lt
        have hne : p + (m.range p).pages * pageSize ≠ r := fun he => htouch ⟨hpA, hlt, he⟩
        unfold len at hle
        have hwp : word ((m.range p).pages * pageSize) = (m.range p).pages * pageSize := word_eq (by omega)
        have hw : word (p + (m.range p).pages * pageSize) ≠ r := by rwa [word_eq (by omega)]
        simp only [hhp.pos.ne', if_false, hhp.load, hI.begin p hpA, hwp, hw, ne_eq, not_false_eq_true,
          if_true, Option.bind_some]
        rfl
    · rintro rfl
      exact htouch (hp.joint hT hy)

/-! ## `NewMemoryRange` -/

/-- Its first half: the header is written and both nodes are linked. -/
theorem Index.newRange (hI : Index m lists A A) (hr : r % pageSize = 0) (hpos : 0 < r)
    (hlt : r + pageSize ≤ 2 ^ 64) (ho : m.owned (r / pageSize)) (hfresh : r ∉ A) (pages : Nat) :
    ∃ m' lists', Index m' lists' (insert r A) (insert r A) ∧ m'.owned = m.owned ∧
      len m' r = pages * pageSize ∧ (∀ y ∈ A, len m' y = len m y) ∧
      ∀ n next m₁ m₂, SkipList.skipListNext m'.heap (some (addrNode r)) = some n →
        SkipList.skipListPayload m'.heap n = some next → tryMergeMemoryRangesWithPrev m' next = some m₁ →
        tryMergeMemoryRangesWithPrev m₁ r = some m₂ → newMemoryRange m r pages = some m₂ := by
  have hne : sizeNode r ≠ addrNode r := sizeNode_ne_addrNode hr hr
  obtain ⟨x, hx⟩ : ∃ x : Range, x =
    { addrNode := some (addrNode r), sizeNode := some (sizeNode r), pages := 0, begin := 0 } := ⟨_, rfl⟩
  obtain ⟨nd, hnd⟩ : ∃ nd, nd = { (Node.zero : Node NodePtr) with payload := r } := ⟨_, rfl⟩
  let h₁ := (m.heap.set (addrNode r) nd).set (sizeNode r) nd
  let m₁ : Memory := { m with range := Function.update m.range r x, node := h₁.node }
  have hnode : ∀ n, m₁.heap.node n = if n = sizeNode r then nd else if n = addrNode r then nd else m.node n := by
    intro n
    change h₁.node n = _
    rw [Heap.node_set, Heap.node_set]
    rfl
  have hsizeNode : m₁.heap.node (sizeNode r) = nd := by rw [hnode, if_pos rfl]
  have haddrNode : m₁.heap.node (addrNode r) = nd := by rw [hnode, if_neg hne.symm, if_pos rfl]
  have hrange : m₁.range r = x := Function.update_self ..
  have hI₁ : Index m₁ lists A A := by
    refine hI.frame ?_ ?_ ?_ ?_ (fun y hy => (hI.header y hy).owned)
    · intro s hs
      refine (hnode s).trans ?_
      rw [if_neg (by rintro rfl; exact sizeNode_not_sentinel hs),
        if_neg (by rintro rfl; exact addrNode_not_sentinel hs)]
    · intro y hy
      have hyr : y ≠ r := by rintro rfl; exact hfresh hy
      refine (hnode _).trans ?_
      rw [if_neg (by simpa using hyr), if_neg (sizeNode_ne_addrNode (hI.header y hy).aligned hr)]
    · intro y hy
      have hyr : y ≠ r := by rintro rfl; exact hfresh hy
      refine (hnode _).trans ?_
      rw [if_neg (sizeNode_ne_addrNode hr (hI.header y hy).aligned).symm, if_neg (by simpa using hyr)]
    · rintro y hy
      exact Function.update_of_ne (by rintro rfl; exact hfresh hy) ..
  have hh : Header m₁ r :=
    ⟨hr, hpos, by simp only [pageSize_val] at hlt; omega, ho, by rw [hrange, hx], by rw [hrange, hx],
      by rw [Heap.payload, hsizeNode, hnd], by rw [Heap.payload, haddrNode, hnd]⟩
  obtain ⟨m₂, lists₂, hbegin, hI₂, howned₂, hrange₂, hprev₂⟩ := setMemoryRangeBegin_spec hI₁ hfresh hh
    (by rw [Heap.prev, haddrNode, hnd]; rfl)
  obtain ⟨m₃, lists₃, hset, hI₃, howned₃, hrange₃⟩ := setMemoryRangePages_spec hI₂ (Or.inl rfl)
    (Or.inr ⟨hfresh, by rw [hprev₂, Heap.prev, hsizeNode, hnd]; rfl⟩) pages
  refine ⟨m₃, lists₃, hI₃, howned₃.trans howned₂, ?_, ?_, ?_⟩
  · rw [len_update hrange₃]
  · intro y hy
    have hyr : y ≠ r := by rintro rfl; exact hfresh hy
    have hrange₁ : m₁.range = Function.update m.range r x := rfl
    rw [len_update_of_ne hrange₃ hyr, len_update_of_ne hrange₂ hyr, len_update_of_ne hrange₁ hyr]
  · intro n next m₄ m₅ hnext hpayload hmerge₁ hmerge₂
    have hsizeList : NodePtr.at (word (r + sizeofMemoryRange)) = sizeNode r := by
      rw [sizeNode, word_eq (by simp only [pageSize_val, sizeofMemoryRange_val] at *; omega)]
    have haddrList : NodePtr.at (word (word (r + sizeofMemoryRange) + sizeofSkipList)) = addrNode r := by
      simp only [pageSize_val, sizeofMemoryRange_val, sizeofSkipList_val] at *
      rw [word_eq (x := r + 32) (by omega), word_eq (by omega)]
      rfl
    have hinit₁ : SkipList.skipListInitNode m.heap (addrNode r) r = some (m.heap.set (addrNode r) nd) := by
      rw [SkipList.skipListInitNode_spec (live_addrNode hr ho), hnd]
    have hinit₂ : SkipList.skipListInitNode (m.heap.set (addrNode r) nd) (sizeNode r) r = some h₁ := by
      have hlive : (m.heap.set (addrNode r) nd).live (sizeNode r) := live_sizeNode hr ho
      rw [SkipList.skipListInitNode_spec hlive, ← hnd]
    have hstore : (m.withHeap h₁).storeRange r x = some m₁ := if_pos (owns_range hr ho)
    unfold newMemoryRange
    have hh₃ := hI₃.header r (Or.inl rfl)
    simp only [hsizeList, haddrList, hinit₁, hinit₂, ← hx, hstore, hbegin, hset, hh₃.load, hh₃.addrField,
      hnext, hpayload, hmerge₁, hmerge₂, Option.bind_eq_bind, Option.bind_some]

theorem newMemoryRange_spec (hI : Index m lists A A) (hT : Tiling A (len m) F) (hsep : Separated A (len m))
    (hF : F ⊆ Set.Iio (2 ^ 64)) (hr : r % pageSize = 0) (hpos : 0 < r) (hpages : 0 < pages)
    (hend : r + pages * pageSize ≤ 2 ^ 64) (ho : m.owned (r / pageSize))
    (hfree : ∀ j, r ≤ j → j < r + pages * pageSize → j ∉ F) :
    ∃ m' lists' A', newMemoryRange m r pages = some m' ∧ Index m' lists' A' A' ∧ m'.owned = m.owned ∧
      Tiling A' (len m') (F ∪ Set.Ico r (r + pages * pageSize)) ∧ Separated A' (len m') := by
  have hone : pageSize ≤ pages * pageSize := Nat.le_mul_of_pos_left _ hpages
  have hsize : 0 < pageSize := by decide
  have hfresh : r ∉ A := by
    intro hr
    have := hT.pos r hr
    exact hfree r le_rfl (by omega) ((hT.cover r).mpr ⟨r, hr, le_rfl, by omega⟩)
  obtain ⟨m₁, lists₁, hI₁, howned₁, hlenr, hlen, hrun⟩ :=
    hI.newRange hr hpos (by omega) ho hfresh pages
  have hT₁ : Tiling (insert r A) (len m₁) (F ∪ Set.Ico r (r + pages * pageSize)) := by
    rw [← hlenr] at hfree ⊢
    exact hT.insert (by omega) hfree hlen
  have hF₁ : F ∪ Set.Ico r (r + pages * pageSize) ⊆ Set.Iio (2 ^ 64) := by
    rintro j (hj | ⟨-, hj⟩)
    · exact hF hj
    · exact lt_of_lt_of_le hj hend
  have hj₁ := hT.joints_insert (b := r) hsep hlen
  -- The first call merges the range behind the new one into it.
  obtain ⟨n, next, hnext, hpayload, hisNext⟩ := hI₁.next_spec (r := r) (Or.inl rfl)
  have hnext0 : next = 0 ∨ next ∈ insert r A := hisNext.imp And.left And.left
  obtain ⟨m₂, lists₂, A₂, hmerge₂, hI₂, howned₂, hT₂, hj₂, hA₂⟩ :=
    tryMergeMemoryRangesWithPrev_spec hI₁ hT₁ hF₁ hnext0
  have hj₂ : joints A₂ (len m₂) ⊆ {r} := by
    intro y hy
    obtain ⟨hy₁, hyn⟩ := hj₂ hy
    rcases hj₁ hy₁ with hyr | hyr
    · exact hyr
    · -- The joint behind the new range is where the next range begins.
      exfalso
      rw [Set.mem_singleton_iff] at hyr
      have hpos₁ := hT₁.pos r (Or.inl rfl)
      rcases hisNext with ⟨-, hall⟩ | ⟨hnA, hlt, hall⟩
      · have := hall y hy₁.1
        omega
      · have h1 := hall y hy₁.1 (by omega)
        have h2 := hT₁.apart r (Or.inl rfl) next hnA hlt
        exact hyn (by rw [Set.mem_singleton_iff]; omega)
  have hrA₂ : r ∈ A₂ := by
    apply hA₂
    refine ⟨Or.inl rfl, fun he => ?_⟩
    rw [Set.mem_singleton_iff] at he
    rcases hisNext with ⟨h0, -⟩ | ⟨-, hlt, -⟩ <;> omega
  -- The second call merges the result into the range before it.
  obtain ⟨m₃, lists₃, A₃, hmerge₃, hI₃, howned₃, hT₃, hj₃, -⟩ :=
    tryMergeMemoryRangesWithPrev_spec hI₂ hT₂ hF₁ (Or.inr hrA₂)
  refine ⟨m₃, lists₃, A₃, hrun n next m₂ m₃ hnext hpayload hmerge₂ hmerge₃, hI₃,
    howned₃.trans (howned₂.trans howned₁), hT₃, hT₃.separated fun y hy => ?_⟩
  obtain ⟨hy₂, hyr⟩ := hj₃ hy
  exact hyr (hj₂ hy₂)

/-! ## `InsertNewMemoryRange` -/

/-- No region is split: for a page start the macro leaves a distance of 512 pages. -/
theorem insertNewMemoryRange_eq (hr : r % pageSize = 0) (hpages : 0 < pages) :
    insertNewMemoryRange m r pages = newMemoryRange m r pages := by
  unfold insertNewMemoryRange
  rw [if_neg hpages.ne', modHugepageSize_aligned hr]
  exact if_neg (fun h => absurd rfl h.1)

end GenericOs.MemoryRange
