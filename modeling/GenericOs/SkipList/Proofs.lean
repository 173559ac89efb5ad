import Mathlib.Data.List.Infix
import Mathlib.Data.List.TakeWhile
import GenericOs.SkipList.Spec

/-!
# What the skip list functions do

One spec per function of `SkipList.c`, on a well-formed skip list with more rounds of
fuel than nodes.
-/

namespace GenericOs.SkipList

variable {α : Type} {h h' : Heap α} {a n q s : α} {i k w fuel : Nat} {xs ys : List α} {ht : α → Nat}

theorem skipListInitNode_spec [DecidableEq α] (hl : h.live n) (payload : Nat) :
    skipListInitNode h n payload = some (h.set n { (Node.zero : Node α) with payload := payload }) := by
  have hl' : (h.set n Node.zero).live n := hl
  simp only [skipListInitNode, Heap.store_eq hl, Heap.setPayload_eq hl', Heap.node_set, if_true,
    Option.bind_eq_bind, Option.bind_some]
  simp [Heap.set]

/-! ## Searching -/

theorem advance_spec (hc : Pointer.Path (h.next i) q (xs ++ ys))
    (hlive : ∀ a ∈ q :: (xs ++ ys), h.live a) (hlight : ∀ a ∈ xs, h.weight a < w)
    (hheavy : ∀ y ∈ ys.head?, w ≤ h.weight y) (hfuel : xs.length < fuel) :
    advance h i w fuel q = some (xs.getLastD q) := by
  induction fuel generalizing q xs with
  | zero => omega
  | succ fuel ih =>
    have hq : h.load q = some (h.node q) := Heap.load_eq (hlive q (by simp))
    cases xs with
    | nil =>
      have hn : (h.node q).next i = ys.head? := hc.next_head
      cases ys with
      | nil => simp [advance, hq, hn]
      | cons y ys =>
        have hy : h.load y = some (h.node y) := Heap.load_eq (hlive y (by simp))
        have hle : ¬ (h.node y).weight < w := Nat.not_lt.mpr (hheavy y rfl)
        simp [advance, hq, hn, hy, hle]
    | cons x xs =>
      obtain ⟨hn, hc⟩ := hc
      have hn : (h.node q).next i = some x := hn
      have hx : h.load x = some (h.node x) := Heap.load_eq (hlive x (by simp))
      have hlt : (h.node x).weight < w := hlight x (by simp)
      simp only [List.length_cons] at hfuel
      have := ih hc (fun a ha => hlive a (List.mem_cons_of_mem _ ha))
        (fun a ha => hlight a (List.mem_cons_of_mem _ ha)) (by omega)
      simp only [advance, hq, hn, hx, hlt, if_true, Option.bind_eq_bind, Option.bind_some, this,
        List.getLastD_cons]

theorem level_succ_subset : level ht (i + 1) xs ⊆ level ht i xs := by
  intro a ha
  rw [mem_level] at ha ⊢
  exact ⟨ha.1, by omega⟩

/-- One round of the descending searches: from the last light node of level `i + 1` to that of level `i`. -/
theorem Searchable.advance_level (hT : Searchable h s (xs ++ ys) ht) (hlight : ∀ a ∈ xs, h.weight a < w)
    (hheavy : ∀ a ∈ ys, w ≤ h.weight a) (hfuel : (xs ++ ys).length < fuel)
    (hi : i < skipListMaxLevels) :
    advance h i w fuel ((level ht (i + 1) xs).getLastD s) = some ((level ht i xs).getLastD s) := by
  have hc := hT.path i hi
  rw [level_append] at hc
  have hq : (level ht (i + 1) xs).getLastD s ∈ s :: level ht i xs :=
    Pointer.getLastD_mem_of_subset level_succ_subset
  obtain ⟨zs, hzs, hlast, hsuf⟩ := hc.suffix hq
  have hsub : ∀ a ∈ zs, a ∈ xs := fun a ha => (mem_level.mp (hsuf.subset ha)).1
  rw [← hlast]
  apply advance_spec hzs
  · intro a ha
    apply hT.live
    rcases List.mem_cons.mp ha with rfl | ha
    · rcases List.mem_cons.mp hq with he | hm
      · rw [he]; simp
      · exact List.mem_cons_of_mem _ (List.mem_append_left _ (mem_level.mp hm).1)
    · rcases List.mem_append.mp ha with ha | ha
      · simp [hsub a ha]
      · simp [(mem_level.mp ha).1]
  · intro a ha; exact hlight a (hsub a ha)
  · intro y hy; exact hheavy y (mem_level.mp (List.mem_of_mem_head? hy)).1
  · have := hsuf.length_le
    have := (List.filter_sublist (p := fun a => i < ht a) (l := xs)).length_le
    simp only [level] at *
    simp only [List.length_append] at hfuel
    omega

theorem level_max (hle : ∀ a ∈ xs, ht a ≤ skipListMaxLevels) : level ht skipListMaxLevels xs = [] := by
  simp only [level, List.filter_eq_nil_iff, decide_eq_true_eq, not_lt]
  exact hle

theorem findPrevsLoop_spec (hT : Searchable h s (xs ++ ys) ht) (hlight : ∀ a ∈ xs, h.weight a < w)
    (hheavy : ∀ a ∈ ys, w ≤ h.weight a) (hk : k ≤ skipListMaxLevels) (path : Nat → α) :
    ∃ path', (∀ fuel > (xs ++ ys).length,
        findPrevsLoop fuel h w k ((level ht k xs).getLastD s) path = some path') ∧
      (∀ i < k, path' i = (level ht i xs).getLastD s) ∧ ∀ i ≥ k, path' i = path i := by
  induction k generalizing path with
  | zero => exact ⟨path, fun _ _ => rfl, by simp, by simp⟩
  | succ k ih =>
    obtain ⟨path', hrun, hbelow, habove⟩ :=
      ih (by omega) (Function.update path k ((level ht k xs).getLastD s))
    refine ⟨path', ?_, ?_, ?_⟩
    · intro fuel hfuel
      have hadv := hT.advance_level hlight hheavy hfuel (Nat.lt_of_succ_le hk)
      simp only [findPrevsLoop, hadv, Option.bind_eq_bind, Option.bind_some, hrun fuel hfuel]
    · intro i hi
      rcases Nat.lt_succ_iff_lt_or_eq.mp hi with hlt | rfl
      · exact hbelow i hlt
      · rw [habove i le_rfl, Function.update_self]
    · intro i hi
      rw [habove i (by omega), Function.update_of_ne (by omega)]

/-- On every level the path holds the last lighter node. -/
theorem skipListFindPrevs_spec (hT : Searchable h s (xs ++ ys) ht) (hlight : ∀ a ∈ xs, h.weight a < w)
    (hheavy : ∀ a ∈ ys, w ≤ h.weight a) (path : Nat → α) :
    ∃ path', (∀ fuel > (xs ++ ys).length, skipListFindPrevs fuel h s path w = some path') ∧
      ∀ i < skipListMaxLevels, path' i = (level ht i xs).getLastD s := by
  have hmax : level ht skipListMaxLevels xs = [] := level_max (fun a ha => hT.le a (by simp [ha]))
  obtain ⟨path', hrun, hpath, -⟩ := findPrevsLoop_spec hT hlight hheavy le_rfl path
  rw [hmax] at hrun
  exact ⟨path', hrun, hpath⟩

/-! ## Inserting -/

/-- Level `i` gets `n` behind `q`; no other level changes. -/
structure LinkedIn (i : Nat) (q n : α) (h h' : Heap α) : Prop where
  next_q : h'.next i q = some n
  next_n : h'.next i n = h.next i q
  prev_n : h'.prev i n = some q
  prev_next : ∀ y ∈ h.next i q, h'.prev i y = some n
  next_other : ∀ j a, j ≠ i ∨ (a ≠ q ∧ a ≠ n) → h'.next j a = h.next j a
  prev_other : ∀ j a, j ≠ i ∨ (a ≠ n ∧ a ∉ h.next i q) → h'.prev j a = h.prev j a

theorem insertLevel_spec [DecidableEq α] {prevs : Nat → α} {F : Set α} (hq : h.live (prevs i)) (hn : h.live n)
    (hne : prevs i ≠ n) (hy : ∀ y ∈ h.next i (prevs i), h.live y ∧ y ≠ n)
    (hFq : prevs i ∈ F) (hFn : n ∈ F) (hFy : ∀ y ∈ h.next i (prevs i), y ∈ F) :
    ∃ h', insertLevel prevs n h i = some h' ∧ LinkedIn i (prevs i) n h h' ∧ Relinked F h h' := by
  set q := prevs i with hqdef
  let h1 := h.withNext n i (h.next i q)
  let h2 := h1.withNext q i (some n)
  let h3 := h2.withPrev n i (some q)
  have e1 : h.setNext n i (h.next i q) = some h1 := Heap.setNext_eq hn _
  have e2 : h1.setNext q i (some n) = some h2 := Heap.setNext_eq (by simpa [h1] using hq) _
  have e3 : h2.setPrev n i (some q) = some h3 := Heap.setPrev_eq (by simpa [h1, h2] using hn) _
  have hr : Relinked F h h3 := ((relinked_withNext _ hFn).trans (relinked_withNext _ hFq)).trans
    (relinked_withPrev _ hFn)
  have hload : h.load q = some (h.node q) := Heap.load_eq hq
  have hnext : ∀ j a, h3.next j a =
      if a = q ∧ j = i then some n else if a = n ∧ j = i then h.next i q else h.next j a := by
    intro j a
    simp only [h3, h2, h1, Heap.next_withPrev, Heap.next_withNext]
  have hprev : ∀ j a, h3.prev j a = if a = n ∧ j = i then some q else h.prev j a := by
    intro j a
    simp only [h3, h2, h1, Heap.prev_withPrev, Heap.prev_withNext]
  cases hcase : h.next i q with
  | none =>
    refine ⟨h3, ?_, ⟨?_, ?_, ?_, ?_, ?_, ?_⟩, hr⟩
    · have hcase' : (h.node q).next i = none := hcase
      rw [hcase] at e1
      simp [insertLevel, ← hqdef, hload, hcase', e1, e2, e3]
    · simp [hnext]
    · simp [hnext, hne.symm]
    · simp [hprev]
    · simp [hcase]
    · intro j a ha; rw [hnext, if_neg (by grind), if_neg (by grind)]
    · intro j a ha; rw [hprev, if_neg (by grind)]
  | some y =>
    obtain ⟨hly, hyn⟩ := hy y hcase
    have e4 : h3.setPrev y i (some n) = some (h3.withPrev y i (some n)) :=
      Heap.setPrev_eq (by rw [hr.live]; exact hly) _
    refine ⟨h3.withPrev y i (some n), ?_, ⟨?_, ?_, ?_, ?_, ?_, ?_⟩,
      hr.trans (relinked_withPrev _ (hFy y hcase))⟩
    · have hcase' : (h.node q).next i = some y := hcase
      rw [hcase] at e1
      simp [insertLevel, ← hqdef, hload, hcase', e1, e2, e3, e4]
    · simp [hnext]
    · simp [hnext, hne.symm, hcase]
    · simp [Heap.prev_withPrev, hprev, hyn.symm]
    · intro z hz
      obtain rfl : y = z := by simpa [hcase] using hz
      simp [Heap.prev_withPrev]
    · intro j a ha; rw [Heap.next_withPrev, hnext, if_neg (by grind), if_neg (by grind)]
    · intro j a ha
      rw [Heap.prev_withPrev, hprev]
      have : ¬ (a = y ∧ j = i) := by rw [hcase] at ha; grind
      rw [if_neg this, if_neg (by grind)]

theorem LinkedIn.chain (hl : LinkedIn i (xs.getLastD s) n h h')
    (hc : Pointer.Chain (h.next i) (h.prev i) s (xs ++ ys)) (hnodup : (s :: (xs ++ ys)).Nodup)
    (hfresh : n ∉ s :: (xs ++ ys)) :
    Pointer.Chain (h'.next i) (h'.prev i) s (xs ++ n :: ys) := by
  have hhead : h.next i (xs.getLastD s) = ys.head? := hc.at_last.next_head
  apply hc.link hnodup hfresh hl.next_q (hl.next_n.trans hhead) hl.prev_n
  · rw [← hhead]; exact hl.prev_next
  · intro a h1 h2; exact hl.next_other i a (Or.inr ⟨h1, h2⟩)
  · rw [← hhead]; intro a h1 h2; exact hl.prev_other i a (Or.inr ⟨h1, h2⟩)

theorem nodup_level (hnodup : (s :: xs).Nodup) : (s :: level ht i xs).Nodup := by
  rw [List.nodup_cons] at hnodup ⊢
  exact ⟨fun hs => hnodup.1 (mem_level.mp hs).1, hnodup.2.filter _⟩

/-- The pointers of level `i` are the same in both heaps. -/
def SameLevel (i : Nat) (h h' : Heap α) : Prop := ∀ a, h'.next i a = h.next i a ∧ h'.prev i a = h.prev i a

/-- A loop over the levels whose rounds write their own level only: what a round makes of its level stays. -/
theorem levels_run {F : Set α} {P : Nat → Heap α → Prop} {round : Heap α → Nat → Option (Heap α)}
    (hP : ∀ i h₁ h₂, SameLevel i h₁ h₂ → P i h₁ → P i h₂)
    (hround : ∀ i < k, ∀ h₁, Relinked F h h₁ → SameLevel i h h₁ →
      ∃ h₂, round h₁ i = some h₂ ∧ Relinked F h₁ h₂ ∧ P i h₂ ∧ ∀ j ≠ i, SameLevel j h₁ h₂) :
    ∃ h', (List.range k).foldlM round h = some h' ∧ Relinked F h h' ∧ (∀ i < k, P i h') ∧
      ∀ i ≥ k, SameLevel i h h' := by
  induction k with
  | zero => exact ⟨h, rfl, .refl _ h, by simp, fun _ _ _ => ⟨rfl, rfl⟩⟩
  | succ k ih =>
    obtain ⟨h₁, hrun, hr, hdone, hrest⟩ := ih fun i hi => hround i (by omega)
    obtain ⟨h₂, hstep, hr₂, hk, hother⟩ := hround k (by omega) h₁ hr (hrest k le_rfl)
    refine ⟨h₂, ?_, hr.trans hr₂, ?_, ?_⟩
    · rw [List.range_succ, List.foldlM_append, hrun]
      simp [hstep]
    · intro i hi
      rcases Nat.lt_succ_iff_lt_or_eq.mp hi with hlt | rfl
      · exact hP i h₁ h₂ (hother i (by omega)) (hdone i hlt)
      · exact hk
    · intro i hi a
      have hsame := hrest i (by omega) a
      have hlast := hother i (by omega) a
      exact ⟨hlast.1.trans hsame.1, hlast.2.trans hsame.2⟩

variable [DecidableEq α]

/-- After `k` rounds the levels below `k` hold `n`, and the others are as before. -/
theorem insertLoop_spec {prevs : Nat → α}
    (hnodup : (s :: (xs ++ ys)).Nodup) (hfresh : n ∉ s :: (xs ++ ys))
    (hlive : ∀ a ∈ n :: s :: (xs ++ ys), h.live a)
    (hc : ∀ i < k, Pointer.Chain (h.next i) (h.prev i) s (level ht i xs ++ level ht i ys))
    (hprevs : ∀ i < k, prevs i = (level ht i xs).getLastD s) :
    ∃ h', (List.range k).foldlM (insertLevel prevs n) h = some h' ∧
      Relinked {a | a ∈ n :: s :: (xs ++ ys)} h h' ∧
      (∀ i < k, Pointer.Chain (h'.next i) (h'.prev i) s (level ht i xs ++ n :: level ht i ys) ∧
        ∀ a, a ≠ n → a ∉ level ht i ys → h'.prev i a = h.prev i a) ∧
      ∀ i ≥ k, ∀ a, h'.next i a = h.next i a ∧ h'.prev i a = h.prev i a := by
  apply levels_run
  · intro i h₁ h₂ hsame hlevel
    obtain ⟨hci, hpi⟩ := hlevel
    refine ⟨hci.congr (fun a _ => (hsame a).1) (fun a _ => (hsame a).2), ?_⟩
    intro a han hay
    rw [(hsame a).2, hpi a han hay]
  · intro i hi h₁ hr hsame
    -- Level `i` is still as it was, so its pointers can be read off the old chain.
    have hci : Pointer.Chain (h₁.next i) (h₁.prev i) s (level ht i xs ++ level ht i ys) :=
      (hc i hi).congr (fun a _ => (hsame a).1) (fun a _ => (hsame a).2)
    have hpi := hprevs i hi
    have hmem : ∀ a ∈ s :: (level ht i xs ++ level ht i ys), a ∈ s :: (xs ++ ys) := by
      intro a ha
      rw [← level_append] at ha
      exact List.cons_subset_cons s level_subset ha
    have hq : prevs i ∈ s :: (xs ++ ys) := by
      apply hmem
      rw [hpi]
      exact Pointer.getLastD_mem_of_subset (List.subset_append_left ..)
    have hy : ∀ y ∈ h₁.next i (prevs i), y ∈ s :: (xs ++ ys) := by
      rw [hpi, hci.at_last.next_head]
      intro y hy
      exact hmem y (List.mem_cons_of_mem _ (List.mem_append_right _ (List.mem_of_mem_head? hy)))
    have hl1 : ∀ a ∈ n :: s :: (xs ++ ys), h₁.live a := by rw [hr.live]; exact hlive
    obtain ⟨h₂, hstep, hlink, hr₂⟩ := insertLevel_spec (F := {a | a ∈ n :: s :: (xs ++ ys)})
      (hl1 _ (List.mem_cons_of_mem _ hq)) (hl1 n (by simp)) (by rintro he; exact hfresh (he ▸ hq))
      (fun y hm => ⟨hl1 y (List.mem_cons_of_mem _ (hy y hm)), by rintro rfl; exact hfresh (hy y hm)⟩)
      (List.mem_cons_of_mem _ hq) (List.mem_cons_self ..) (fun y hm => List.mem_cons_of_mem _ (hy y hm))
    refine ⟨h₂, hstep, hr₂, ⟨?_, ?_⟩,
      fun j hj a => ⟨hlink.next_other j a (Or.inl hj), hlink.prev_other j a (Or.inl hj)⟩⟩
    · rw [hpi] at hlink
      have hnd : (s :: level ht i (xs ++ ys)).Nodup := nodup_level hnodup
      rw [level_append] at hnd
      exact hlink.chain hci hnd fun hm => hfresh (hmem _ hm)
    · intro a han hay
      have hnext : a ∉ h₁.next i (prevs i) := by
        rw [hpi, hci.at_last.next_head]
        exact fun hm => hay (List.mem_of_mem_head? hm)
      rw [hlink.prev_other i a (Or.inr ⟨han, hnext⟩), (hsame a).2]

/-- The node goes between the last lighter node and the first node that is not lighter. -/
theorem skipListInsertAfter_spec {prevs : Nat → α} {height : Nat} (hT : Threaded h s (xs ++ ys) ht)
    (hfresh : n ∉ s :: (xs ++ ys)) (hn : h.live n) (hpos : 0 < height)
    (hprevs : ∀ i < skipListMaxLevels, prevs i = (level ht i xs).getLastD s) :
    ∃ h', skipListInsertAfter h prevs n height = some h' ∧
      Threaded h' s (xs ++ n :: ys) (Function.update ht n (min height skipListMaxLevels)) ∧
      Relinked {a | a ∈ n :: s :: (xs ++ ys)} h h' := by
  set top := min height skipListMaxLevels with htop
  -- The heap the loop starts from: the height of `n` is marked by a null `prev`.
  obtain ⟨h0, hstart, hr0, hmark, hsame⟩ : ∃ h0, skipListInsertAfter h prevs n height =
      (List.range top).foldlM (insertLevel prevs n) h0 ∧ Relinked {a | a ∈ n :: s :: (xs ++ ys)} h h0 ∧
      (top < skipListMaxLevels → h0.prev top n = none) ∧
      ∀ i a, a ≠ n → h0.next i a = h.next i a ∧ h0.prev i a = h.prev i a := by
    have hF : n ∈ {a | a ∈ n :: s :: (xs ++ ys)} := List.mem_cons_self ..
    by_cases hge : height ≥ skipListMaxLevels
    · refine ⟨h, ?_, .refl _ h, by omega, by simp⟩
      rw [skipListInsertAfter, if_pos hge, htop, Nat.min_eq_right hge]
    · have htop' : top = height := by omega
      refine ⟨(h.withNext n height none).withPrev n height none, ?_, ?_, ?_, ?_⟩
      · have e1 : h.setNext n height none = some (h.withNext n height none) := Heap.setNext_eq hn _
        have e2 : (h.withNext n height none).setPrev n height none =
            some ((h.withNext n height none).withPrev n height none) := Heap.setPrev_eq (by simpa using hn) _
        rw [skipListInsertAfter, if_neg hge, htop']
        simp [e1, e2]
      · exact (relinked_withNext _ hF).trans (relinked_withPrev _ hF)
      · intro _; simp [Heap.prev_withPrev, htop']
      · intro i a ha
        simp [Heap.next_withNext, Heap.prev_withPrev, ha]
  have hne : ∀ a ∈ s :: (xs ++ ys), a ≠ n := fun a ha he => hfresh (he ▸ ha)
  have hsub : ∀ i, ∀ a ∈ s :: (level ht i xs ++ level ht i ys), a ∈ s :: (xs ++ ys) := by
    intro i a ha
    rw [← level_append] at ha
    exact List.cons_subset_cons s level_subset ha
  have hc : ∀ i < skipListMaxLevels,
      Pointer.Chain (h0.next i) (h0.prev i) s (level ht i xs ++ level ht i ys) := by
    intro i hi
    have := hT.chain i hi
    rw [level_append] at this
    exact this.congr (fun a ha => (hsame i a (hne a (hsub i a ha))).1)
      (fun a ha => (hsame i a (hne a (hsub i a (List.mem_cons_of_mem _ ha)))).2)
  obtain ⟨h', hrun, hr, hdone, hrest⟩ := insertLoop_spec (k := top) hT.nodup hfresh
    (by
      rw [hr0.live]
      intro a ha
      rcases List.mem_cons.mp ha with rfl | ha
      · exact hn
      · exact hT.live a ha)
    (fun i hi => hc i (by omega)) (fun i hi => hprevs i (by omega))
  have hother : ∀ a ∈ xs ++ n :: ys, a ≠ n → a ∈ xs ++ ys := by
    intro a ha hane
    simp only [List.mem_append, List.mem_cons] at ha ⊢
    tauto
  refine ⟨h', hstart.trans hrun, ⟨?nodup, ?live, ?chain, ?pos, ?le, ?top⟩, hr0.trans hr⟩
  case nodup =>
    have hnd := hT.nodup
    simp only [List.nodup_cons, List.mem_append, List.mem_cons, not_or] at hnd hfresh ⊢
    refine ⟨⟨hnd.1.1, Ne.symm hfresh.1, hnd.1.2⟩, ?_⟩
    rw [List.nodup_middle]
    exact List.nodup_cons.mpr ⟨by simpa using hfresh.2, hnd.2⟩
  case live =>
    rw [hr.live, hr0.live]
    intro a ha
    by_cases han : a = n
    · rw [han]; exact hn
    · apply hT.live
      rcases List.mem_cons.mp ha with rfl | ha
      · simp
      · exact List.mem_cons_of_mem _ (hother a ha han)
  case chain =>
    intro i hi
    have hxs : n ∉ xs := fun hm => hfresh (by simp [hm])
    have hys : n ∉ ys := fun hm => hfresh (by simp [hm])
    rw [level_append, level_cons, level_update hxs, level_update hys, Function.update_self]
    split_ifs with hlt
    · exact (hdone i hlt).1
    · exact (hc i hi).congr (fun a _ => (hrest i (by omega) a).1) (fun a _ => (hrest i (by omega) a).2)
  case pos =>
    intro a ha
    by_cases han : a = n
    · rw [han, Function.update_self]; simp [htop]; omega
    · rw [Function.update_of_ne han]; exact hT.pos a (hother a ha han)
  case le =>
    intro a ha
    by_cases han : a = n
    · rw [han, Function.update_self]; exact Nat.min_le_right ..
    · rw [Function.update_of_ne han]; exact hT.le a (hother a ha han)
  case top =>
    intro a ha hlt
    by_cases han : a = n
    · rw [han, Function.update_self] at hlt ⊢
      rw [(hrest top le_rfl n).2]
      exact hmark hlt
    · -- An old node is not on the level of its height, so no round wrote its mark.
      rw [Function.update_of_ne han] at hlt ⊢
      have hold := hT.top a (hother a ha han) hlt
      rw [← (hsame (ht a) a han).2] at hold
      by_cases hk : ht a < top
      · rw [(hdone _ hk).2 a han (fun hm => Nat.lt_irrefl _ (mem_level.mp hm).2), hold]
      · rw [(hrest _ (by omega) a).2, hold]

omit [DecidableEq α] in
theorem Sorted.heavy (hs : Sorted h xs) :
    ∀ a ∈ xs.dropWhile (fun a => h.weight a < w), w ≤ h.weight a := by
  intro a ha
  have hsub : (xs.dropWhile (fun a => h.weight a < w)).Sublist xs := List.dropWhile_sublist _
  have hpw := List.Pairwise.sublist hsub hs
  cases hd : xs.dropWhile (fun a => h.weight a < w) with
  | nil => rw [hd] at ha; cases ha
  | cons y ys =>
    have hy : ¬ h.weight y < w := by
      have := List.head?_dropWhile_not (fun a => decide (h.weight a < w)) xs
      rw [hd] at this
      simpa using this
    rw [hd] at ha hpw
    rcases List.mem_cons.mp ha with rfl | ha
    · omega
    · have := (List.pairwise_cons.mp hpw).1 a ha
      omega

omit [DecidableEq α] in
theorem light_takeWhile : ∀ a ∈ xs.takeWhile (fun a => h.weight a < w), h.weight a < w := by
  intro a ha
  simpa using List.mem_takeWhile_imp ha

/-- The list with `n` directly before the first node that is not lighter. -/
def inserted (h : Heap α) (n : α) (xs : List α) : List α :=
  xs.takeWhile (fun a => h.weight a < h.weight n) ++ n :: xs.dropWhile (fun a => h.weight a < h.weight n)

omit [DecidableEq α] in
theorem inserted_perm (h : Heap α) (n : α) (xs : List α) : (inserted h n xs).Perm (n :: xs) := by
  have hmiddle : (inserted h n xs).Perm (n :: (xs.takeWhile (fun a => h.weight a < h.weight n) ++
    xs.dropWhile (fun a => h.weight a < h.weight n))) := List.perm_middle
  rwa [List.takeWhile_append_dropWhile] at hmiddle

omit [DecidableEq α] in
theorem Sorted.inserted (hs : Sorted h xs) (hw : ∀ a, h'.weight a = h.weight a) :
    Sorted h' (inserted h n xs) := by
  have hpw : Sorted h (xs.takeWhile (fun a => h.weight a < h.weight n) ++
      xs.dropWhile (fun a => h.weight a < h.weight n)) := by
    rwa [List.takeWhile_append_dropWhile]
  have hheavy := hs.heavy (w := h.weight n)
  have hlight : ∀ a ∈ xs.takeWhile (fun a => h.weight a < h.weight n), h.weight a < h.weight n :=
    light_takeWhile
  unfold Sorted SkipList.inserted at *
  simp only [hw]
  rw [List.pairwise_append] at hpw ⊢
  obtain ⟨h1, h2, h3⟩ := hpw
  refine ⟨h1, List.pairwise_cons.mpr ⟨hheavy, h2⟩, ?_⟩
  intro a ha b hb
  rcases List.mem_cons.mp hb with rfl | hb
  · exact Nat.le_of_lt (hlight a ha)
  · exact h3 a ha b hb

theorem skipListInsert_spec {height : Nat} (hT : Threaded h s xs ht) (hs : Sorted h xs)
    (hfresh : n ∉ s :: xs) (hn : h.live n) (hpos : 0 < height) :
    ∃ h', (∀ fuel > xs.length, skipListInsert fuel h (some s) (some n) height = some h') ∧
      Threaded h' s (inserted h n xs) (Function.update ht n (min height skipListMaxLevels)) ∧
      Sorted h' (inserted h n xs) ∧ Relinked {a | a ∈ n :: s :: xs} h h' := by
  have hsplit := List.takeWhile_append_dropWhile (p := fun a => decide (h.weight a < h.weight n)) (l := xs)
  have hT' := hT
  have hfresh' := hfresh
  rw [← hsplit] at hT' hfresh'
  obtain ⟨path, hfind, hpath⟩ := skipListFindPrevs_spec hT'.searchable light_takeWhile hs.heavy (fun _ => s)
  obtain ⟨h', hrun, hT'', hr⟩ := skipListInsertAfter_spec hT' hfresh' hn hpos hpath
  rw [hsplit] at hfind hr
  refine ⟨h', ?_, hT'', hs.inserted hr.weight, hr⟩
  intro fuel hfuel
  have hw : (h.node n).weight = h.weight n := rfl
  simp only [skipListInsert, Heap.load_eq hn, Option.bind_eq_bind, Option.bind_some, hw,
    hfind fuel hfuel, hrun]

/-! ## Removing -/

omit [DecidableEq α] in
theorem nodeHeightLoop_eq {prev : Nat → Option α} {left i top : Nat} (hle : i ≤ top)
    (htop : top ≤ i + left) (hsome : ∀ j, i ≤ j → j < top → (prev j).isSome)
    (hnone : top < i + left → prev top = none) : nodeHeightLoop prev left i = top := by
  induction left generalizing i with
  | zero => simp only [nodeHeightLoop]; omega
  | succ left ih =>
    unfold nodeHeightLoop
    rcases Nat.eq_or_lt_of_le hle with rfl | hlt
    · rw [hnone (by omega)]; simp
    · rw [if_pos (hsome i le_rfl hlt)]
      exact ih hlt (by omega) (fun j hj => hsome j (by omega)) (fun hj => hnone (by omega))

omit [DecidableEq α] in
/-- The height that the pointers encode is the height the node was given. -/
theorem Threaded.nodeHeight (hT : Threaded h s xs ht) (hn : n ∈ xs) :
    skipListNodeHeight (h.node n) = ht n := by
  apply nodeHeightLoop_eq (by omega)
  · simpa using hT.le n hn
  · intro j _ hj
    have hjm : j < skipListMaxLevels := lt_of_lt_of_le hj (hT.le n hn)
    obtain ⟨as, bs, hsplit⟩ := List.append_of_mem (mem_level.mpr ⟨hn, hj⟩ : n ∈ level ht j xs)
    have hc := hT.chain j hjm
    rw [hsplit] at hc
    have : (h.node n).prev j = some (as.getLastD s) := hc.prev_mem
    simp [this]
  · intro hlt
    exact hT.top n hn (by simpa using hlt)

/-- Level `i` loses `n`; no other level changes. -/
structure LinkedOut (i : Nat) (n : α) (h h' : Heap α) : Prop where
  next_prev : ∀ p ∈ h.prev i n, h'.next i p = h.next i n
  prev_next : ∀ y ∈ h.next i n, h'.prev i y = h.prev i n
  next_other : ∀ j a, j ≠ i ∨ a ∉ h.prev i n → h'.next j a = h.next j a
  prev_other : ∀ j a, j ≠ i ∨ a ∉ h.next i n → h'.prev j a = h.prev j a

theorem removeLevel_spec {F : Set α} (hn : h.live n)
    (hp : ∀ p ∈ h.prev i n, h.live p ∧ p ≠ n ∧ p ∈ F) (hy : ∀ y ∈ h.next i n, h.live y ∧ y ∈ F) :
    ∃ h', removeLevel n h i = some h' ∧ LinkedOut i n h h' ∧ Relinked F h h' := by
  -- First `next` of the predecessor.
  obtain ⟨h1, hskip1, hrun1, hr1, hnext1, hprev1⟩ : ∃ h1, (h.prev i n = none → h1 = h) ∧
      (∀ p, h.prev i n = some p → h.setNext p i (h.next i n) = some h1) ∧ Relinked F h h1 ∧
      (∀ j a, h1.next j a = if some a = h.prev i n ∧ j = i then h.next i n else h.next j a) ∧
      ∀ j a, h1.prev j a = h.prev j a := by
    cases hcase : h.prev i n with
    | none => exact ⟨h, fun _ => rfl, nofun, .refl _ h, by simp, by simp⟩
    | some p =>
      obtain ⟨hlp, -, hFp⟩ := hp p hcase
      refine ⟨h.withNext p i (h.next i n), nofun, ?_, relinked_withNext _ hFp, ?_, by simp⟩
      · rintro p' ⟨⟩
        exact Heap.setNext_eq hlp _
      intro j a
      simp [Heap.next_withNext]
  have hn1 : h1.next i n = h.next i n := by
    rw [hnext1, if_neg]
    rintro ⟨he, -⟩
    exact (hp n he.symm).2.1 rfl
  -- Then `prev` of the successor, read from the heap that the first write left.
  obtain ⟨h2, hskip2, hrun2, hr2, hnext2, hprev2⟩ : ∃ h2, (h1.next i n = none → h2 = h1) ∧
      (∀ y, h1.next i n = some y → h1.setPrev y i (h1.prev i n) = some h2) ∧ Relinked F h1 h2 ∧
      (∀ j a, h2.next j a = h1.next j a) ∧
      ∀ j a, h2.prev j a = if some a = h.next i n ∧ j = i then h.prev i n else h1.prev j a := by
    rw [hn1]
    cases hcase : h.next i n with
    | none => exact ⟨h1, fun _ => rfl, nofun, .refl _ h1, by simp, by simp⟩
    | some y =>
      obtain ⟨hly, hFy⟩ := hy y hcase
      refine ⟨h1.withPrev y i (h1.prev i n), nofun, ?_, relinked_withPrev _ hFy, by simp, ?_⟩
      · rintro y' ⟨⟩
        exact Heap.setPrev_eq (by rw [hr1.live]; exact hly) _
      intro j a
      simp [Heap.prev_withPrev, hprev1]
  refine ⟨h2, ?_, ⟨?_, ?_, ?_, ?_⟩, hr1.trans hr2⟩
  · have hload : h.load n = some (h.node n) := Heap.load_eq hn
    have hload1 : h1.load n = some (h1.node n) := Heap.load_eq (by rw [hr1.live]; exact hn)
    cases hcase : h.prev i n with
    | none =>
      have hprev : (h.node n).prev i = none := hcase
      obtain rfl := hskip1 hcase
      simp only [removeLevel, hload, Option.bind_eq_bind, Option.bind_some, hprev]
      split
      · next hnext => exact congrArg some (hskip2 hnext).symm
      · next y hnext => rw [← hprev]; exact hrun2 y hnext
    | some p =>
      have hprev : (h.node n).prev i = some p := hcase
      have hset : h.setNext p i ((h.node n).next i) = some h1 := hrun1 p hcase
      simp only [removeLevel, hload, Option.bind_eq_bind, Option.bind_some, hprev, hset, hload1]
      split
      · next hnext => exact congrArg some (hskip2 hnext).symm
      · next y hnext => exact hrun2 y hnext
  · intro p hm
    rw [hnext2, hnext1, if_pos ⟨hm.symm, rfl⟩]
  · intro y hm
    rw [hprev2, if_pos ⟨hm.symm, rfl⟩]
  · intro j a ha
    rw [hnext2, hnext1, if_neg]
    rintro ⟨he, rfl⟩
    exact ha.elim (fun hj => hj rfl) (fun hm => hm he.symm)
  · intro j a ha
    rw [hprev2, if_neg, hprev1]
    rintro ⟨he, rfl⟩
    exact ha.elim (fun hj => hj rfl) (fun hm => hm he.symm)

omit [DecidableEq α] in
theorem LinkedOut.chain (hl : LinkedOut i n h h')
    (hc : Pointer.Chain (h.next i) (h.prev i) s (xs ++ n :: ys))
    (hnodup : (s :: (xs ++ n :: ys)).Nodup) :
    Pointer.Chain (h'.next i) (h'.prev i) s (xs ++ ys) := by
  have hp : h.prev i n = some (xs.getLastD s) := hc.prev_mem
  have hy : h.next i n = ys.head? := hc.at_last.2.2.next_head
  apply hc.unlink hnodup
  · rw [hl.next_prev _ (by rw [hp]; rfl), hy]
  · rw [← hy, ← hp]; exact hl.prev_next
  · intro a ha
    apply hl.next_other i a (Or.inr _)
    rw [hp]
    rintro ⟨⟩
    exact ha rfl
  · rw [← hy]
    intro a ha
    exact hl.prev_other i a (Or.inr ha)

omit [DecidableEq α] in
theorem level_around (hn : i < ht n) :
    level ht i (xs ++ n :: ys) = level ht i xs ++ n :: level ht i ys := by
  rw [level_append, level_cons, if_pos hn]

/-- After `k` rounds the levels below `k` have lost `n`, and the others are as before. -/
theorem removeLoop_spec (hT : Threaded h s (xs ++ n :: ys) ht) (hk : k ≤ ht n) :
    ∃ h', (List.range k).foldlM (removeLevel n) h = some h' ∧ Relinked {a | a ∈ s :: (xs ++ ys)} h h' ∧
      (∀ i < k, Pointer.Chain (h'.next i) (h'.prev i) s (level ht i xs ++ level ht i ys) ∧
        ∀ a, a ∉ level ht i ys → h'.prev i a = h.prev i a) ∧
      ∀ i ≥ k, ∀ a, h'.next i a = h.next i a ∧ h'.prev i a = h.prev i a := by
  have hnle : ht n ≤ skipListMaxLevels := hT.le n (by simp)
  apply levels_run
  · intro i h₁ h₂ hsame hlevel
    obtain ⟨hci, hpi⟩ := hlevel
    refine ⟨hci.congr (fun a _ => (hsame a).1) (fun a _ => (hsame a).2), ?_⟩
    intro a hay
    rw [(hsame a).2, hpi a hay]
  · intro i hi h₁ hr hsame
    have hci : Pointer.Chain (h₁.next i) (h₁.prev i) s (level ht i xs ++ n :: level ht i ys) := by
      rw [← level_around (by omega)]
      exact (hT.chain i (by omega)).congr (fun a _ => (hsame a).1) (fun a _ => (hsame a).2)
    have hnd : (s :: level ht i (xs ++ n :: ys)).Nodup := nodup_level hT.nodup
    rw [level_around (by omega)] at hnd
    have hp : h₁.prev i n = some ((level ht i xs).getLastD s) := hci.prev_mem
    have hy : h₁.next i n = (level ht i ys).head? := hci.at_last.2.2.next_head
    have hpm : (level ht i xs).getLastD s ∈ s :: (xs ++ ys) :=
      Pointer.getLastD_mem_of_subset (List.Subset.trans level_subset (List.subset_append_left ..))
    have hym : ∀ y ∈ (level ht i ys).head?, y ∈ s :: (xs ++ ys) := fun y hm =>
      List.mem_cons_of_mem _ (List.mem_append_right _ (mem_level.mp (List.mem_of_mem_head? hm)).1)
    have hlive : ∀ a ∈ s :: (xs ++ ys), h₁.live a ∧ a ∈ {a | a ∈ s :: (xs ++ ys)} := by
      intro a ha
      rw [hr.live]
      refine ⟨hT.live a ?_, ha⟩
      simp only [List.mem_cons, List.mem_append] at ha ⊢
      tauto
    have hpn : (level ht i xs).getLastD s ≠ n := by
      have hlast := Pointer.getLastD_mem (level ht i xs) s
      intro he
      rw [he] at hlast
      simp only [List.nodup_cons, List.mem_append, List.mem_cons, not_or, List.nodup_append] at hnd hlast
      grind
    obtain ⟨h₂, hstep, hlink, hr₂⟩ := removeLevel_spec (i := i) (F := {a | a ∈ s :: (xs ++ ys)})
      (by rw [hr.live]; exact hT.live n (by simp))
      (by rw [hp]; rintro p ⟨⟩; exact ⟨(hlive _ hpm).1, hpn, hpm⟩)
      (by rw [hy]; intro y hm; exact hlive y (hym y hm))
    refine ⟨h₂, hstep, hr₂, ⟨hlink.chain hci hnd, ?_⟩,
      fun j hj a => ⟨hlink.next_other j a (Or.inl hj), hlink.prev_other j a (Or.inl hj)⟩⟩
    intro a hay
    have hnext : a ∉ h₁.next i n := by
      rw [hy]
      exact fun hm => hay (List.mem_of_mem_head? hm)
    rw [hlink.prev_other i a (Or.inr hnext), (hsame a).2]

/-- Removing takes out the node and leaves the order of the others. It does not touch the node itself. -/
theorem skipListRemove_spec (hT : Threaded h s (xs ++ n :: ys) ht) :
    ∃ h', skipListRemove h (some n) = some h' ∧ Threaded h' s (xs ++ ys) ht ∧
      Relinked {a | a ∈ s :: (xs ++ ys)} h h' := by
  have hmem : n ∈ xs ++ n :: ys := by simp
  obtain ⟨h', hrun, hr, hdone, hrest⟩ := removeLoop_spec hT le_rfl
  have hsub : ∀ a ∈ xs ++ ys, a ∈ xs ++ n :: ys := fun a ha => (hT.mem_others.mp ha).1
  refine ⟨h', ?_, ⟨?nodup, ?live, ?chain, ?pos, ?le, ?top⟩, hr⟩
  · simp only [skipListRemove, Heap.load_eq (hT.live n (by simp)), Option.bind_eq_bind, Option.bind_some,
      hT.nodeHeight hmem, hrun]
  case nodup =>
    exact List.Nodup.sublist (List.Sublist.cons_cons _
      ((List.Sublist.refl xs).append (List.sublist_cons_self ..))) hT.nodup
  case live =>
    rw [hr.live]
    intro a ha
    apply hT.live
    rcases List.mem_cons.mp ha with rfl | ha
    · simp
    · exact List.mem_cons_of_mem _ (hsub a ha)
  case chain =>
    intro i hi
    rw [level_append]
    by_cases hlt : i < ht n
    · exact (hdone i hlt).1
    · have hc := hT.chain i hi
      rw [level_append, level_cons, if_neg hlt] at hc
      exact hc.congr (fun a _ => (hrest i (by omega) a).1) (fun a _ => (hrest i (by omega) a).2)
  case pos => exact fun a ha => hT.pos a (hsub a ha)
  case le => exact fun a ha => hT.le a (hsub a ha)
  case top =>
    intro a ha hlt
    have hold := hT.top a (hsub a ha) hlt
    by_cases hk : ht a < ht n
    · rw [(hdone _ hk).2 a (fun hm => Nat.lt_irrefl _ (mem_level.mp hm).2), hold]
    · rw [(hrest _ (by omega) a).2, hold]

/-- A removal may follow a write of the node's own weight: the others stay sorted. -/
theorem skipListRemove_reweighed {h₁ : Heap α} (hT : Threaded h s (xs ++ n :: ys) ht)
    (hs : Sorted h (xs ++ n :: ys)) (hlive : h₁.live = h.live)
    (hlinks : ∀ a i, h₁.next i a = h.next i a ∧ h₁.prev i a = h.prev i a)
    (hweight : ∀ a, a ≠ n → h₁.weight a = h.weight a) :
    ∃ h', skipListRemove h₁ (some n) = some h' ∧ Threaded h' s (xs ++ ys) ht ∧ Sorted h' (xs ++ ys) ∧
      Relinked {a | a ∈ s :: (xs ++ ys)} h₁ h' := by
  have hT₁ : Threaded h₁ s (xs ++ n :: ys) ht :=
    hT.congr (by rw [hlive]; exact hT.live) (fun a _ i => (hlinks a i).1) (fun a _ i => (hlinks a i).2)
  obtain ⟨h', hrun, hT', hr⟩ := skipListRemove_spec hT₁
  refine ⟨h', hrun, hT', ?_, hr⟩
  have hsub : (xs ++ ys).Sublist (xs ++ n :: ys) :=
    (List.Sublist.refl xs).append (List.sublist_cons_self ..)
  refine Sorted.congr (List.Pairwise.sublist hsub hs) fun a ha => ?_
  rw [hr.weight, hweight a (hT.mem_others.mp ha).2]

/-- A node whose lowest `prev` is null is in no list, and removing it does nothing. -/
theorem skipListRemove_unlinked (hn : h.live n) (hp : h.prev 0 n = none) :
    skipListRemove h (some n) = some h := by
  have hp : (h.node n).prev 0 = none := hp
  have hz : skipListNodeHeight (h.node n) = 0 := by
    simp [skipListNodeHeight, nodeHeightLoop, hp]
  simp [skipListRemove, Heap.load_eq hn, hz]

end GenericOs.SkipList
