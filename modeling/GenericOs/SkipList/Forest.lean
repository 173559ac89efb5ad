import GenericOs.SkipList.Proofs

/-!
# Several skip lists over one heap

The sentinels `sent` head lists that share no node. Editing one list leaves the others alone.
-/

namespace GenericOs.SkipList

variable {α : Type} {h h' : Heap α} {sent : Set α} {lists : α → List α} {s n : α} {fuel : Nat}

structure Forest (h : Heap α) (sent : Set α) (lists : α → List α) : Prop where
  threaded : ∀ s ∈ sent, ∃ ht, Threaded h s (lists s) ht
  sorted : ∀ s ∈ sent, Sorted h (lists s)
  apart : ∀ s ∈ sent, ∀ t ∈ sent, ∀ n ∈ lists s, n ∈ lists t → s = t
  node : ∀ s ∈ sent, ∀ n ∈ lists s, n ∉ sent

/-- A node that is in no list and heads none. -/
def Loose (sent : Set α) (lists : α → List α) (n : α) : Prop := n ∉ sent ∧ ∀ s ∈ sent, n ∉ lists s

theorem Forest.congr (hF : Forest h sent lists) (hlive : ∀ a, ¬ Loose sent lists a → h'.live a)
    (hsame : ∀ a, ¬ Loose sent lists a → h'.node a = h.node a) : Forest h' sent lists where
  threaded s hs := by
    obtain ⟨ht, hT⟩ := hF.threaded s hs
    have hmem : ∀ a ∈ s :: lists s, ¬ Loose sent lists a := by
      rintro a ha ⟨h1, h2⟩
      rcases List.mem_cons.mp ha with rfl | ha
      · exact h1 hs
      · exact h2 s hs ha
    refine ⟨ht, hT.congr (fun a ha => hlive a (hmem a ha)) (fun a ha i => ?_) (fun a ha i => ?_)⟩
    · simp only [Heap.next, hsame a (hmem a ha)]
    · simp only [Heap.prev, hsame a (hmem a (List.mem_cons_of_mem _ ha))]
  sorted s hs := (hF.sorted s hs).congr fun a ha =>
    congrArg Node.weight (hsame a fun hl => hl.2 s hs ha)
  apart := hF.apart
  node := hF.node

theorem Forest.live (hF : Forest h sent lists) {a : α} (ha : ¬ Loose sent lists a) : h.live a := by
  by_cases hs : a ∈ sent
  · obtain ⟨ht, hT⟩ := hF.threaded a hs
    exact hT.live a (by simp)
  · simp only [Loose, not_and, not_forall, not_not] at ha
    obtain ⟨s, hs, hm⟩ := ha hs
    obtain ⟨ht, hT⟩ := hF.threaded s hs
    exact hT.live a (List.mem_cons_of_mem _ hm)

/-- The lists that an edit of the list `s` does not touch. -/
theorem Forest.others (hF : Forest h sent lists) (hs : s ∈ sent) {F : Set α} (hr : Relinked F h h')
    (hout : ∀ a ∈ F, a = s ∨ a ∈ lists s ∨ Loose sent lists a) {t : α} (ht : t ∈ sent) (hne : t ≠ s) :
    (∃ ht, Threaded h' t (lists t) ht) ∧ Sorted h' (lists t) := by
  have hmem : ∀ a ∈ t :: lists t, a ∉ F := by
    intro a ha hF'
    rcases hout a hF' with rfl | hm | hl
    · rcases List.mem_cons.mp ha with rfl | ha
      · exact hne rfl
      · exact hF.node t ht a ha hs
    · rcases List.mem_cons.mp ha with rfl | ha
      · exact hF.node s hs a hm ht
      · exact hne (hF.apart t ht s hs a ha hm)
    · rcases List.mem_cons.mp ha with rfl | ha
      · exact hl.1 ht
      · exact hl.2 t ht ha
  obtain ⟨heights, hT⟩ := hF.threaded t ht
  refine ⟨⟨heights, hT.congr (by rw [hr.live]; exact hT.live) (fun a ha i => ?_) (fun a ha i => ?_)⟩,
    (hF.sorted t ht).congr fun a _ => hr.weight a⟩
  · simp only [Heap.next, hr.other a (hmem a ha)]
  · simp only [Heap.prev, hr.other a (hmem a (List.mem_cons_of_mem _ ha))]

variable [DecidableEq α]

theorem Forest.update {xs : List α} (hs : s ∈ sent)
    (hF : Forest h sent lists) (hT : ∃ ht, Threaded h' s xs ht) (hS : Sorted h' xs)
    (hothers : ∀ t ∈ sent, t ≠ s → (∃ ht, Threaded h' t (lists t) ht) ∧ Sorted h' (lists t))
    (hxs : ∀ a ∈ xs, a ∈ lists s ∨ Loose sent lists a) :
    Forest h' sent (Function.update lists s xs) where
  threaded t ht := by
    by_cases hts : t = s
    · subst hts; simpa using hT
    · simpa [Function.update_of_ne hts] using (hothers t ht hts).1
  sorted t ht := by
    by_cases hts : t = s
    · subst hts; simpa using hS
    · simpa [Function.update_of_ne hts] using (hothers t ht hts).2
  apart t ht u hu a hat hau := by
    by_cases hts : t = s <;> by_cases hus : u = s
    · rw [hts, hus]
    · subst hts
      rw [Function.update_self] at hat
      rw [Function.update_of_ne hus] at hau
      rcases hxs a hat with hm | hl
      · exact hF.apart t ht u hu a hm hau
      · exact absurd hau (hl.2 u hu)
    · subst hus
      rw [Function.update_self] at hau
      rw [Function.update_of_ne hts] at hat
      rcases hxs a hau with hm | hl
      · exact hF.apart t ht u hu a hat hm
      · exact absurd hat (hl.2 t ht)
    · rw [Function.update_of_ne hts] at hat
      rw [Function.update_of_ne hus] at hau
      exact hF.apart t ht u hu a hat hau
  node t ht a ha := by
    by_cases hts : t = s
    · subst hts
      rw [Function.update_self] at ha
      rcases hxs a ha with hm | hl
      · exact hF.node t ht a hm
      · exact hl.1
    · rw [Function.update_of_ne hts] at ha
      exact hF.node t ht a ha

theorem Forest.insert {height : Nat} (hF : Forest h sent lists) (hs : s ∈ sent) (hn : Loose sent lists n)
    (hlive : h.live n) (hpos : 0 < height) (hfuel : (lists s).length < fuel) :
    ∃ h' lists', skipListInsert fuel h (some s) (some n) height = some h' ∧ Forest h' sent lists' ∧
      (∀ t a, a ∈ lists' t ↔ (t = s ∧ a = n) ∨ a ∈ lists t) ∧
      Relinked {a | a = n ∨ ¬ Loose sent lists a} h h' := by
  obtain ⟨ht, hT⟩ := hF.threaded s hs
  have hfresh : n ∉ s :: lists s := by
    intro hm
    rcases List.mem_cons.mp hm with rfl | hm
    · exact hn.1 hs
    · exact hn.2 s hs hm
  obtain ⟨h', hrun, hT', hS', hr⟩ := skipListInsert_spec hT (hF.sorted s hs) hfresh hlive hpos
  have hmem : ∀ a, a ∈ inserted h n (lists s) ↔ a = n ∨ a ∈ lists s := by
    intro a
    rw [(inserted_perm h n (lists s)).mem_iff, List.mem_cons]
  refine ⟨h', Function.update lists s (inserted h n (lists s)), hrun fuel hfuel, ?_, fun t a => ?_, hr.mono ?_⟩
  · refine hF.update hs ⟨_, hT'⟩ hS' (fun t ht hne => hF.others hs hr ?_ ht hne) ?_
    · intro a ha
      rcases List.mem_cons.mp ha with rfl | ha
      · exact Or.inr (Or.inr hn)
      · rcases List.mem_cons.mp ha with rfl | ha
        · exact Or.inl rfl
        · exact Or.inr (Or.inl ha)
    · intro a ha
      rcases (hmem a).mp ha with rfl | ha
      · exact Or.inr hn
      · exact Or.inl ha
  · by_cases hts : t = s
    · subst hts
      simp [hmem]
    · simp [hts]
  · intro a ha
    rcases List.mem_cons.mp ha with rfl | ha
    · exact Or.inl rfl
    · right
      rintro ⟨h1, h2⟩
      rcases List.mem_cons.mp ha with rfl | ha
      · exact h1 hs
      · exact h2 s hs ha

/-- The weight of the node may have been written just before. -/
theorem Forest.remove (hF : Forest h sent lists) (h₁ : Heap α) (hs : s ∈ sent) (hn : n ∈ lists s)
    (hlive : h₁.live = h.live) (hlinks : ∀ a i, h₁.next i a = h.next i a ∧ h₁.prev i a = h.prev i a)
    (hweight : ∀ a, a ≠ n → h₁.weight a = h.weight a) :
    ∃ h' lists', skipListRemove h₁ (some n) = some h' ∧ Forest h' sent lists' ∧
      (∀ t ∈ sent, ∀ a, a ∈ lists' t ↔ a ∈ lists t ∧ a ≠ n) ∧ Relinked {a | ¬ Loose sent lists a} h₁ h' := by
  obtain ⟨ht, hT⟩ := hF.threaded s hs
  have hS := hF.sorted s hs
  obtain ⟨before, behind, hsplit⟩ := List.append_of_mem hn
  rw [hsplit] at hT hS
  obtain ⟨h', hrun, hT', hS', hr⟩ := skipListRemove_reweighed hT hS hlive hlinks hweight
  have hmem : ∀ a, a ∈ before ++ behind ↔ a ∈ lists s ∧ a ≠ n := by
    intro a
    rw [hsplit]
    exact hT.mem_others
  have hsub : ∀ a ∈ {a | a ∈ s :: (before ++ behind)}, a = s ∨ (a ∈ lists s ∧ a ≠ n) := by
    intro a ha
    rcases List.mem_cons.mp ha with rfl | ha
    · exact Or.inl rfl
    · exact Or.inr ((hmem a).mp ha)
  refine ⟨h', Function.update lists s (before ++ behind), hrun, ?_, fun t ht a => ?_, hr.mono ?_⟩
  · refine hF.update hs ⟨_, hT'⟩ hS' (fun t ht hne => ?_) (fun a ha => Or.inl ((hmem a).mp ha).1)
    -- The other lists neither hold `n` nor any node of this list.
    have hne' : ∀ a ∈ t :: lists t, a ≠ n ∧ a ∉ {a | a ∈ s :: (before ++ behind)} := by
      intro a ha
      have hcases : a ∉ lists s ∧ a ≠ s := by
        rcases List.mem_cons.mp ha with rfl | ha
        · exact ⟨fun hm => hF.node s hs a hm ht, hne⟩
        · exact ⟨fun hm => hne (hF.apart t ht s hs a ha hm), by rintro rfl; exact hF.node t ht a ha hs⟩
      refine ⟨by rintro rfl; exact hcases.1 hn, fun hm => ?_⟩
      rcases hsub a hm with he | hm
      · exact hcases.2 he
      · exact hcases.1 hm.1
    obtain ⟨heights, hTt⟩ := hF.threaded t ht
    refine ⟨⟨heights, hTt.congr (by rw [hr.live, hlive]; exact hTt.live) (fun a ha i => ?_) (fun a ha i => ?_)⟩, ?_⟩
    · rw [← (hlinks a i).1]
      simp only [Heap.next, hr.other a (hne' a ha).2]
    · rw [← (hlinks a i).2]
      simp only [Heap.prev, hr.other a (hne' a (List.mem_cons_of_mem _ ha)).2]
    · refine (hF.sorted t ht).congr fun a ha => ?_
      rw [hr.weight, hweight a (hne' a (List.mem_cons_of_mem _ ha)).1]
  · by_cases hts : t = s
    · subst hts
      rw [Function.update_self]
      exact hmem a
    · rw [Function.update_of_ne hts]
      refine ⟨fun ha => ⟨ha, ?_⟩, fun ha => ha.1⟩
      rintro rfl
      exact hts (hF.apart t ht s hs a ha hn)
  · intro a ha
    rintro ⟨h1, h2⟩
    rcases hsub a ha with rfl | hm
    · exact h1 hs
    · exact h2 s hs hm.1

/-- A node that is new or linked gets a new weight and is taken out of the list it may be in. -/
theorem Forest.reweigh (hF : Forest h sent lists) (hlive : h.live n)
    (hcase : (∃ s ∈ sent, n ∈ lists s) ∨ (Loose sent lists n ∧ h.prev 0 n = none)) (w : Nat) :
    ∃ h' lists', skipListRemove (h.withWeight n w) (some n) = some h' ∧ Forest h' sent lists' ∧
      Loose sent lists' n ∧ (∀ t ∈ sent, ∀ a, a ∈ lists' t ↔ a ∈ lists t ∧ a ≠ n) ∧
      Relinked {a | ¬ Loose sent lists a} (h.withWeight n w) h' := by
  rcases hcase with ⟨s, hs, hn⟩ | ⟨hn, hprev⟩
  · obtain ⟨h', lists', hrun, hF', hmem, hr⟩ := hF.remove (h.withWeight n w) hs hn rfl
      (by simp) (fun a ha => by rw [Heap.weight_withWeight, if_neg ha])
    exact ⟨h', lists', hrun, hF', ⟨hF.node s hs n hn, fun t ht hm => ((hmem t ht n).mp hm).2 rfl⟩, hmem, hr⟩
  · -- Nothing is linked, so the list functions change nothing.
    have hsame : ∀ a, ¬ Loose sent lists a → (h.withWeight n w).node a = h.node a := by
      intro a ha
      rw [Heap.withWeight, Heap.node_set, if_neg]
      rintro rfl
      exact ha hn
    refine ⟨h.withWeight n w, lists, skipListRemove_unlinked hlive (by simpa using hprev),
      hF.congr (fun _ ha => hF.live ha) hsame, hn, fun t ht a => ?_, Relinked.refl _ _⟩
    refine ⟨fun ha => ⟨ha, ?_⟩, fun ha => ha.1⟩
    rintro rfl
    exact hn.2 t ht ha

/-- Both halves of a change of weight: out of the old list, and into the list of `s`. -/
theorem Forest.move (hF : Forest h sent lists) (hlive : h.live n)
    (hcase : (∃ s ∈ sent, n ∈ lists s) ∨ (Loose sent lists n ∧ h.prev 0 n = none)) (w : Nat) :
    ∃ h₁, skipListRemove (h.withWeight n w) (some n) = some h₁ ∧ h₁.live = h.live ∧
      ∀ s ∈ sent, ∀ height > 0, ∀ fuel > (lists s).length, ∃ h' lists',
        skipListInsert fuel h₁ (some s) (some n) height = some h' ∧ Forest h' sent lists' ∧
        (∀ t ∈ sent, ∀ a, a ∈ lists' t ↔ (t = s ∧ a = n) ∨ (a ∈ lists t ∧ a ≠ n)) ∧
        Relinked {a | a = n ∨ ¬ Loose sent lists a} (h.withWeight n w) h' := by
  obtain ⟨h₁, lists₁, hrun, hF₁, hn₁, hmem₁, hr₁⟩ := hF.reweigh hlive hcase w
  refine ⟨h₁, hrun, hr₁.live, fun s hs height hpos fuel hfuel => ?_⟩
  have hlen : (lists₁ s).length ≤ (lists s).length := by
    obtain ⟨_, hT⟩ := hF₁.threaded s hs
    exact (List.nodup_cons.mp hT.nodup).2.length_le_of_subset fun a ha => ((hmem₁ s hs a).mp ha).1
  obtain ⟨h', lists', hins, hF', hmem, hr⟩ := hF₁.insert hs hn₁
    (by rw [hr₁.live]; exact hlive) hpos (lt_of_le_of_lt hlen hfuel)
  refine ⟨h', lists', hins, hF', fun t ht a => ?_, (hr₁.mono ?_).trans (hr.mono ?_)⟩
  · rw [hmem, hmem₁ t ht]
  · exact fun a ha => Or.inr ha
  · rintro a (rfl | ha)
    · exact Or.inl rfl
    · by_cases han : a = n
      · exact Or.inl han
      · refine Or.inr fun hl => ha ⟨hl.1, fun t ht hm => hl.2 t ht ?_⟩
        exact ((hmem₁ t ht a).mp hm).1

end GenericOs.SkipList
