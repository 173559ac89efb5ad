import GenericOs.SkipList.Proofs

/-!
# `SkipListBest`

The exact search is best fit. The other one returns a closest node unless the closest
node is the one the fast first loop stops at, because nothing is compared with that node.
-/

namespace GenericOs.SkipList

variable {α : Type} {h : Heap α} {a q s : α} {k w fuel : Nat} {xs ys : List α} {ht : α → Nat}

/-! ## The fast first loop -/

theorem Searchable.skipLight_level (hT : Searchable h s (xs ++ ys) ht) (hlight : ∀ a ∈ xs, h.weight a < w)
    (hheavy : ∀ a ∈ ys, w ≤ h.weight a) (hfuel : (xs ++ ys).length < fuel)
    (hk : k < skipListMaxLevels) :
    skipLight fuel h w k ((level ht (k + 1) xs).getLastD s) = some ((level ht 1 xs).getLastD s) := by
  induction k with
  | zero => rfl
  | succ k ih =>
    have hadv := hT.advance_level hlight hheavy hfuel hk
    simp only [SkipList.skipLight, hadv, Option.bind_eq_bind, Option.bind_some]
    exact ih (by omega)

/-- Where the fast first loop ends: the last light node that is higher than level 0. -/
def fastEnd (h : Heap α) (ht : α → Nat) (s : α) (xs : List α) (w : Nat) : α :=
  (level ht 1 (xs.takeWhile (fun a => h.weight a < w))).getLastD s

/-- Behind the end of the fast first loop come the light nodes `zs` that it did not skip, and then
the heavy ones. -/
theorem skipLight_spec (hT : Searchable h s xs ht) (hs : Sorted h xs) (hfuel : xs.length < fuel) :
    skipLight fuel h w (skipListMaxLevels - 1) s = some (fastEnd h ht s xs w) ∧
    ∃ zs, zs <:+ xs.takeWhile (fun a => h.weight a < w) ∧
      zs.getLastD (fastEnd h ht s xs w) = (xs.takeWhile (fun a => h.weight a < w)).getLastD s ∧
      Pointer.Path (h.next 0) (fastEnd h ht s xs w) (zs ++ xs.dropWhile (fun a => h.weight a < w)) ∧
      (zs ++ xs.dropWhile (fun a => h.weight a < w)).length < fuel ∧
      ∀ a ∈ fastEnd h ht s xs w :: (zs ++ xs.dropWhile (fun a => h.weight a < w)), a ∈ s :: xs := by
  unfold fastEnd
  set light := xs.takeWhile (fun a => h.weight a < w) with hlightdef
  set heavy := xs.dropWhile (fun a => h.weight a < w) with hheavydef
  have hsplit : light ++ heavy = xs := List.takeWhile_append_dropWhile
  have hmax : level ht skipListMaxLevels light = [] := level_max (fun a ha => hT.le a (by rw [← hsplit]; simp [ha]))
  rw [← hsplit] at hT hfuel
  have hrun := hT.skipLight_level light_takeWhile hs.heavy hfuel (k := skipListMaxLevels - 1) (by simp)
  rw [show skipListMaxLevels - 1 + 1 = skipListMaxLevels from rfl, hmax] at hrun
  have hq : (level ht 1 light).getLastD s ∈ s :: light := Pointer.getLastD_mem_of_subset level_subset
  obtain ⟨zs, hc, hlast, hsuf⟩ := hT.path_zero.suffix hq
  refine ⟨hrun, zs, hsuf, hlast, hc, ?_, ?_⟩
  · have := hsuf.length_le
    simp only [List.length_append] at hfuel ⊢
    omega
  · intro a ha
    rw [← hsplit]
    simp only [List.mem_cons, List.mem_append] at ha hq ⊢
    rcases ha with rfl | ha | ha
    · tauto
    · exact Or.inr (Or.inl (hsuf.subset ha))
    · exact Or.inr (Or.inr ha)

/-! ## The level-0 loop -/

theorem bestFit_mem {exact : Bool} {diff : Nat} (hc : Pointer.Path (h.next 0) q xs)
    (hlive : ∀ a ∈ q :: xs, h.live a) (hfuel : xs.length < fuel) :
    ∃ r, bestFit h w exact fuel q diff = some r ∧ r ∈ q :: xs := by
  induction fuel generalizing q xs diff with
  | zero => omega
  | succ fuel ih =>
    have hq : h.load q = some (h.node q) := Heap.load_eq (hlive q (by simp))
    cases xs with
    | nil =>
      have hn : (h.node q).next 0 = none := hc
      exact ⟨q, by simp [bestFit, hq, hn], by simp⟩
    | cons x xs =>
      obtain ⟨hn, hc⟩ := hc
      have hn : (h.node q).next 0 = some x := hn
      have hx : h.load x = some (h.node x) := Heap.load_eq (hlive x (by simp))
      simp only [List.length_cons] at hfuel
      simp only [bestFit, hq, hn, hx, Option.bind_eq_bind, Option.bind_some]
      generalize (if (h.node x).weight > w then (h.node x).weight - w else w - (h.node x).weight) = diff'
      obtain ⟨r, hr, hm⟩ : ∃ r, bestFit h w exact fuel x diff' = some r ∧ r ∈ x :: xs :=
        ih hc (fun a ha => hlive a (List.mem_cons_of_mem _ ha)) (by omega)
      split_ifs
      · exact ⟨q, rfl, by simp⟩
      · exact ⟨x, rfl, by simp⟩
      · exact ⟨r, hr, List.mem_cons_of_mem _ hm⟩

theorem bestFit_exact {diff : Nat} (hc : Pointer.Path (h.next 0) q (xs ++ ys))
    (hlive : ∀ a ∈ q :: (xs ++ ys), h.live a) (hlight : ∀ a ∈ xs, h.weight a < w)
    (hheavy : ∀ a ∈ ys, w ≤ h.weight a) (hfuel : xs.length < fuel) :
    bestFit h w true fuel q diff = some (ys.head?.getD (xs.getLastD q)) := by
  induction fuel generalizing q xs diff with
  | zero => omega
  | succ fuel ih =>
    have hq : h.load q = some (h.node q) := Heap.load_eq (hlive q (by simp))
    cases xs with
    | nil =>
      have hn : (h.node q).next 0 = ys.head? := hc.next_head
      cases ys with
      | nil => simp [bestFit, hq, hn]
      | cons y ys =>
        have hy : h.load y = some (h.node y) := Heap.load_eq (hlive y (by simp))
        have hle : w ≤ (h.node y).weight := hheavy y (by simp)
        simp [bestFit, hq, hn, hy, hle]
    | cons x xs =>
      obtain ⟨hn, hc⟩ := hc
      have hn : (h.node q).next 0 = some x := hn
      have hx : h.load x = some (h.node x) := Heap.load_eq (hlive x (by simp))
      have hlt : ¬ w ≤ (h.node x).weight := Nat.not_le.mpr (hlight x (by simp))
      simp only [List.length_cons] at hfuel
      have hrest : ∀ d, bestFit h w true fuel x d = some (ys.head?.getD (xs.getLastD x)) := fun d =>
        ih hc (fun a ha => hlive a (List.mem_cons_of_mem _ ha))
          (fun a ha => hlight a (List.mem_cons_of_mem _ ha)) (by omega)
      simp only [bestFit, hq, hn, hx, Option.bind_eq_bind, Option.bind_some, Bool.not_true,
        Bool.false_and, Bool.false_eq_true, if_false, Bool.true_and, ge_iff_le, decide_eq_true_eq,
        if_neg hlt, hrest, List.getLastD_cons]

/-- `|Weight - weight|`, as the loop computes it. -/
def distance (h : Heap α) (w : Nat) (a : α) : Nat :=
  if h.weight a > w then h.weight a - w else w - h.weight a

/-- From a heavy node on the loop only moves to nodes of the same weight. -/
theorem bestFit_heavy (hc : Pointer.Path (h.next 0) q ys) (hlive : ∀ a ∈ q :: ys, h.live a)
    (hs : Sorted h (q :: ys)) (hq : w ≤ h.weight q) (hfuel : ys.length < fuel) :
    ∃ r, bestFit h w false fuel q (distance h w q) = some r ∧ r ∈ q :: ys ∧ h.weight r = h.weight q := by
  induction fuel generalizing q ys with
  | zero => omega
  | succ fuel ih =>
    have hload : h.load q = some (h.node q) := Heap.load_eq (hlive q (by simp))
    cases ys with
    | nil =>
      have hn : (h.node q).next 0 = none := hc
      exact ⟨q, by simp [bestFit, hload, hn], by simp, rfl⟩
    | cons y ys =>
      obtain ⟨hn, hc⟩ := hc
      have hn : (h.node q).next 0 = some y := hn
      have hy : h.load y = some (h.node y) := Heap.load_eq (hlive y (by simp))
      have hle : h.weight q ≤ h.weight y := (List.pairwise_cons.mp hs).1 y (by simp)
      simp only [List.length_cons] at hfuel
      obtain ⟨r, hr, hm, hw⟩ : ∃ r, bestFit h w false fuel y (distance h w y) = some r ∧ r ∈ y :: ys ∧
          h.weight r = h.weight y := ih hc (fun a ha => hlive a (List.mem_cons_of_mem _ ha))
        (List.pairwise_cons.mp hs).2 (by omega) (by omega)
      have hstep : bestFit h w false (fuel + 1) q (distance h w q) =
          if distance h w y > distance h w q then some q else bestFit h w false fuel y (distance h w y) := by
        simp [bestFit, hload, hn, hy, distance, Heap.weight]
      rw [hstep]
      split_ifs with hfar
      · exact ⟨q, rfl, by simp, rfl⟩
      · refine ⟨r, hr, List.mem_cons_of_mem _ hm, ?_⟩
        unfold distance at hfar
        split_ifs at hfar <;> omega

/-- On the light nodes `zs` the distance falls, so the loop passes them. Then it stops at the last one
or goes on to the heavy nodes, whichever are closer. With no light node left it compares with `diff`. -/
theorem bestFit_short {zs : List α} {diff : Nat} (hc : Pointer.Path (h.next 0) q (zs ++ ys))
    (hlive : ∀ a ∈ q :: (zs ++ ys), h.live a) (hs : Sorted h (zs ++ ys)) (hlight : ∀ a ∈ zs, h.weight a < w)
    (hheavy : ∀ a ∈ ys, w ≤ h.weight a) (hdiff : ∀ a ∈ zs, distance h w a ≤ diff)
    (hfuel : (zs ++ ys).length < fuel) :
    ∃ r, bestFit h w false fuel q diff = some r ∧
      ((r = zs.getLastD q ∧ ∀ y ∈ ys.head?, (zs.map (distance h w)).getLastD diff < distance h w y) ∨
        r ∈ ys ∧ ∀ y ∈ ys.head?, distance h w y ≤ (zs.map (distance h w)).getLastD diff ∧
          h.weight r = h.weight y) := by
  induction fuel generalizing q zs diff with
  | zero => omega
  | succ fuel ih =>
    have hload : h.load q = some (h.node q) := Heap.load_eq (hlive q (by simp))
    have hstep : ∀ x, h.next 0 q = some x → h.live x → bestFit h w false (fuel + 1) q diff =
        if distance h w x > diff then some q else bestFit h w false fuel x (distance h w x) := by
      intro x hn hx
      have hn : (h.node q).next 0 = some x := hn
      simp [bestFit, hload, hn, Heap.load_eq hx, distance, Heap.weight]
    cases zs with
    | nil =>
      cases ys with
      | nil =>
        have hn : (h.node q).next 0 = none := hc
        exact ⟨q, by simp [bestFit, hload, hn], Or.inl ⟨rfl, by simp⟩⟩
      | cons y ys =>
        rw [hstep y hc.1 (hlive y (by simp))]
        split_ifs with hfar
        · exact ⟨q, rfl, Or.inl ⟨rfl, by simpa using hfar⟩⟩
        · obtain ⟨r, hr, hm, hw⟩ : ∃ r, bestFit h w false fuel y (distance h w y) = some r ∧ r ∈ y :: ys ∧
              h.weight r = h.weight y := bestFit_heavy hc.2
            (fun a ha => hlive a (List.mem_cons_of_mem _ ha)) hs (hheavy y (by simp)) (by simpa using hfuel)
          refine ⟨r, hr, Or.inr ⟨hm, ?_⟩⟩
          simpa using ⟨by omega, hw⟩
    | cons x zs =>
      have hx := hdiff x (by simp)
      rw [hstep x hc.1 (hlive x (by simp)), if_neg (by omega)]
      have hnext : ∀ a ∈ zs, distance h w a ≤ distance h w x := by
        intro a ha
        have hle : h.weight x ≤ h.weight a := (List.pairwise_cons.mp hs).1 a (by simp [ha])
        have := hlight a (by simp [ha])
        unfold distance
        split_ifs <;> omega
      have := ih hc.2 (fun a ha => hlive a (List.mem_cons_of_mem _ ha)) (List.pairwise_cons.mp hs).2
        (fun a ha => hlight a (List.mem_cons_of_mem _ ha)) hnext (by simpa using hfuel)
      simpa only [List.map_cons, List.getLastD_cons] using this

/-! ## The answer -/

theorem skipListBest_mem [DecidableEq α] (hT : Searchable h s xs ht) (hs : Sorted h xs) (hfuel : xs.length < fuel)
    (exact : Bool) :
    ∃ r, skipListBest fuel h (some s) w exact = some r ∧ ∀ n ∈ r, n ∈ xs := by
  obtain ⟨hrun, zs, -, -, hc, hlen, hsub⟩ := skipLight_spec (w := w) hT hs hfuel
  obtain ⟨r, hbest, hr⟩ : ∃ r, bestFit h w exact fuel _ sizeMax = some r ∧ r ∈ _ :: _ := bestFit_mem (w := w) hc
    (fun a ha => hT.live a (hsub a ha)) hlen
  have hload : h.load r = some (h.node r) := Heap.load_eq (hT.live r (hsub r hr))
  simp only [skipListBest, hrun, hbest, hload, Option.bind_eq_bind, Option.bind_some]
  split_ifs with hcond
  · exact ⟨none, rfl, by simp⟩
  · refine ⟨some r, rfl, ?_⟩
    rintro n ⟨⟩
    rcases List.mem_cons.mp (hsub r hr) with rfl | hm
    · simp at hcond
    · exact hm

theorem find?_heavy (hs : Sorted h xs) :
    xs.find? (fun a => w ≤ h.weight a) = (xs.dropWhile (fun a => h.weight a < w)).head? := by
  have hnone : (xs.takeWhile (fun a => h.weight a < w)).find? (fun a => w ≤ h.weight a) = none := by
    rw [List.find?_eq_none]
    intro a ha
    have := light_takeWhile a ha
    simp only [decide_eq_true_eq]
    omega
  conv_lhs => rw [← List.takeWhile_append_dropWhile (p := fun a => decide (h.weight a < w)) (l := xs)]
  rw [List.find?_append, hnone, Option.none_or]
  cases hd : xs.dropWhile (fun a => h.weight a < w) with
  | nil => rfl
  | cons y ys =>
    have := hs.heavy (w := w) y (by rw [hd]; simp)
    simp [this]

theorem skipListBest_exact [DecidableEq α] (hT : Searchable h s xs ht) (hs : Sorted h xs) (hfuel : xs.length < fuel) :
    skipListBest fuel h (some s) w true = some (xs.find? (fun a => w ≤ h.weight a)) := by
  obtain ⟨hrun, zs, hsuf, hlast, hc, hlen, hsub⟩ := skipLight_spec (w := w) hT hs hfuel
  set q := fastEnd h ht s xs w
  have hbest : bestFit h w true fuel q sizeMax = _ := bestFit_exact hc (fun a ha => hT.live a (hsub a ha))
    (fun a ha => light_takeWhile a (hsuf.subset ha)) hs.heavy (lt_of_le_of_lt (by simp) hlen)
  rw [find?_heavy hs]
  cases hd : xs.dropWhile (fun a => h.weight a < w) with
  | nil =>
    -- No node is heavy enough: the loops end at the sentinel or at the last, too light, node.
    rw [hd] at hbest
    simp only [List.head?_nil, Option.getD_none] at hbest
    have hmem := Pointer.getLastD_mem (xs.takeWhile (fun a => h.weight a < w)) s
    rw [← hlast] at hmem
    have hload : h.load (zs.getLastD q) = some (h.node (zs.getLastD q)) := by
      apply Heap.load_eq
      apply hT.live
      rcases List.mem_cons.mp hmem with he | hm
      · rw [he]; simp
      · exact List.mem_cons_of_mem _ ((List.takeWhile_sublist _).subset hm)
    simp only [skipListBest, hrun, hbest, hload, Option.bind_eq_bind, Option.bind_some, List.head?_nil]
    rw [if_pos]
    · rfl
    · rcases List.mem_cons.mp hmem with he | hm
      · rw [he]; simp
      · have hlt : (h.node (zs.getLastD q)).weight < w := light_takeWhile _ hm
        simp only [hlt, decide_true, Bool.and_self, Bool.or_true]
  | cons y ys =>
    have hy : y ∈ xs := (List.dropWhile_sublist _).subset (by rw [hd]; simp)
    have hle : ¬ w > (h.node y).weight :=
      Nat.not_lt.mpr (hs.heavy (w := w) y (by rw [hd]; simp))
    have hne : y ≠ s := by
      rintro rfl
      exact (List.nodup_cons.mp hT.nodup).1 hy
    rw [hd] at hbest
    simp only [List.head?_cons, Option.getD_some] at hbest
    have hload : h.load y = some (h.node y) := Heap.load_eq (hT.live y (List.mem_cons_of_mem _ hy))
    simp only [skipListBest, hrun, hbest, hload, Option.bind_eq_bind, Option.bind_some]
    rw [if_neg (by simp [hne, hle])]
    rfl

/-- The exact search is best fit: the first node that is heavy enough, whatever the heights. -/
theorem skipListBest_bestFit [DecidableEq α] (hT : Searchable h s xs ht) (hs : Sorted h xs)
    (hfuel : xs.length < fuel) :
    ∃ r, skipListBest fuel h (some s) w true = some r ∧
      (∀ n, r = some n ↔ ∃ before after, xs = before ++ n :: after ∧ w ≤ h.weight n ∧
        ∀ a ∈ before, h.weight a < w) ∧
      (∀ n, r = some n → ∀ a ∈ xs, w ≤ h.weight a → h.weight n ≤ h.weight a) ∧
      (r = none ↔ ∀ a ∈ xs, h.weight a < w) := by
  refine ⟨_, skipListBest_exact hT hs hfuel, fun n => ?first, fun n hn a ha hle => ?least, ?none⟩
  case first =>
    rw [List.find?_eq_some_iff_append]
    simp only [decide_eq_true_eq, Bool.not_eq_true', decide_eq_false_iff_not, not_le]
    constructor
    · rintro ⟨hle, before, after, rfl, hbefore⟩
      exact ⟨before, after, rfl, hle, hbefore⟩
    · rintro ⟨before, after, rfl, hle, hbefore⟩
      exact ⟨hle, before, after, rfl, hbefore⟩
  case least =>
    obtain ⟨-, before, after, rfl, hbefore⟩ := List.find?_eq_some_iff_append.mp hn
    rcases List.mem_append.mp ha with hb | hb
    · have := hbefore a hb
      simp only [Bool.not_eq_true', decide_eq_false_iff_not] at this
      exact absurd hle this
    · rcases List.mem_cons.mp hb with rfl | hb
      · exact le_rfl
      · exact (List.pairwise_cons.mp (List.pairwise_append.mp hs).2.1).1 a hb
  case none => simp [List.find?_eq_none]

/-! ## Closest nodes -/

/-- No node of the list is closer to the requested weight than `n`. -/
def Closest (h : Heap α) (w : Nat) (xs : List α) (n : α) : Prop :=
  n ∈ xs ∧ ∀ a ∈ xs, distance h w n ≤ distance h w a

/-- What the header file promises of the search without `exact`. -/
def ClosestAnswer (h : Heap α) (w : Nat) (xs : List α) (r : Option α) : Prop :=
  (xs = [] → r = none) ∧ (xs ≠ [] → ∃ n, r = some n ∧ Closest h w xs n)

/-- The last light node is reached by the fast first loop, and it is closer than every heavy node. -/
def SkipsCloser (h : Heap α) (ht : α → Nat) (w : Nat) (xs : List α) : Prop :=
  ∃ q ∈ (xs.takeWhile (fun a => h.weight a < w)).getLast?, 1 < ht q ∧
    ∃ y ∈ (xs.dropWhile (fun a => h.weight a < w)).head?, distance h w q < distance h w y

theorem Sorted.le_last (hs : Sorted h xs) (d : α) : ∀ a ∈ xs, h.weight a ≤ h.weight (xs.getLastD d) := by
  induction xs generalizing d with
  | nil => simp
  | cons x xs ih =>
    obtain ⟨hx, hs⟩ := List.pairwise_cons.mp hs
    rw [List.getLastD_cons]
    intro a ha
    rcases List.mem_cons.mp ha with rfl | ha
    · rcases List.mem_cons.mp (Pointer.getLastD_mem xs a) with he | hm
      · rw [he]
      · exact hx _ hm
    · exact ih hs x a ha

theorem light_closest (hs : Sorted h xs) (hlight : ∀ a ∈ xs, h.weight a < w) (d : α) :
    ∀ a ∈ xs, distance h w (xs.getLastD d) ≤ distance h w a := by
  intro a ha
  have hlast : xs.getLastD d ∈ xs := by
    cases xs with
    | nil => cases ha
    | cons x xs => rw [List.getLastD_cons]; exact Pointer.getLastD_mem xs x
  have := hlight _ hlast
  have := hs.le_last d a ha
  unfold distance
  split_ifs <;> omega

theorem heavy_closest (hs : Sorted h xs) (hheavy : ∀ a ∈ xs, w ≤ h.weight a) :
    ∀ y ∈ xs.head?, ∀ a ∈ xs, distance h w y ≤ distance h w a := by
  intro y hy a ha
  obtain ⟨xs, rfl⟩ : ∃ ys, xs = y :: ys := by
    cases xs with
    | nil => simp at hy
    | cons x xs => simp only [List.head?_cons, Option.mem_some_iff] at hy; exact ⟨xs, by rw [hy]⟩
  have hle : h.weight y ≤ h.weight a := by
    rcases List.mem_cons.mp ha with rfl | ha
    · exact le_rfl
    · exact (List.pairwise_cons.mp hs).1 a ha
  have := hheavy y (by simp)
  unfold distance
  split_ifs <;> omega

/-- The fast first loop ends at the last light node when this node is higher than level 0. -/
theorem fastEnd_last (ht : α → Nat) (hnodup : (s :: xs).Nodup) :
    fastEnd h ht s xs w = (xs.takeWhile (fun a => h.weight a < w)).getLastD s ↔
      ∀ z ∈ (xs.takeWhile (fun a => h.weight a < w)).getLast?, 1 < ht z := by
  have hnd : (s :: xs.takeWhile (fun a => h.weight a < w)).Nodup :=
    hnodup.sublist ((List.takeWhile_sublist _).cons_cons s)
  unfold fastEnd
  generalize xs.takeWhile (fun a => h.weight a < w) = light at hnd
  rcases List.eq_nil_or_concat' light with rfl | ⟨pre, z, rfl⟩
  · simp [level]
  · rw [level_append]
    by_cases hz : 1 < ht z
    · simp [level, hz]
    · have hlow : level ht 1 [z] = [] := by simpa [level] using hz
      simp only [hlow, List.append_nil, List.getLastD_concat, List.getLast?_concat, Option.mem_some_iff,
        forall_eq', hz, iff_false]
      intro he
      have hm : (level ht 1 pre).getLastD s ∈ s :: pre := Pointer.getLastD_mem_of_subset level_subset
      rw [he] at hm
      simp only [List.nodup_cons, List.mem_append, List.mem_cons, List.nodup_append] at hnd hm
      grind

theorem distance_le_sizeMax (hw : w ≤ sizeMax) (ha : h.weight a ≤ sizeMax) : distance h w a ≤ sizeMax := by
  unfold distance
  split_ifs <;> omega

/-- Where the search without `exact` ends. Either at the last light node, because the first heavy one is
farther away, or at a heavy node of least weight. In the second case it has compared with the last
light node unless the fast first loop ended there. -/
inductive ShortAnswer (h : Heap α) (ht : α → Nat) (w : Nat) (light heavy : List α) : α → Prop
  | light (q : α) (hq : q ∈ light.getLast?) (hfar : ∀ y ∈ heavy.head?, ¬ 1 < ht q ∧ distance h w q < distance h w y) :
      ShortAnswer h ht w light heavy q
  | heavy (r y : α) (hr : r ∈ heavy) (hy : y ∈ heavy.head?) (hw : h.weight r = h.weight y)
      (hnear : ∀ q ∈ light.getLast?, 1 < ht q ∨ distance h w y ≤ distance h w q) :
      ShortAnswer h ht w light heavy r

theorem bestFit_shortAnswer (hT : Searchable h s xs ht) (hs : Sorted h xs) (hfuel : xs.length < fuel)
    (hw : w ≤ sizeMax) (hsize : ∀ a ∈ xs, h.weight a ≤ sizeMax) (hne : xs ≠ []) :
    ∃ r, bestFit h w false fuel (fastEnd h ht s xs w) sizeMax = some r ∧
      ShortAnswer h ht w (xs.takeWhile (fun a => h.weight a < w)) (xs.dropWhile (fun a => h.weight a < w)) r := by
  obtain ⟨-, zs, hsuf, hlast, hc, hlen, hsub⟩ := skipLight_spec (w := w) hT hs hfuel
  have hend := fastEnd_last (h := h) (w := w) ht hT.nodup
  have hpath := hT.path_zero
  have hheavy := hs.heavy (w := w)
  have hlight : ∀ a ∈ xs.takeWhile (fun a => h.weight a < w), h.weight a < w := light_takeWhile
  have hsplit : xs.takeWhile (fun a => h.weight a < w) ++ xs.dropWhile (fun a => h.weight a < w) = xs :=
    List.takeWhile_append_dropWhile
  have hfar : ∀ a ∈ xs, distance h w a ≤ sizeMax := fun a ha => distance_le_sizeMax hw (hsize a ha)
  set q := fastEnd h ht s xs w
  set light := xs.takeWhile (fun a => h.weight a < w)
  set heavy := xs.dropWhile (fun a => h.weight a < w)
  have hsorted : Sorted h (light ++ heavy) := by rwa [hsplit]
  have hmem : ∀ a, a ∈ light ∨ a ∈ heavy → a ∈ xs := fun a ha => by rwa [← hsplit, List.mem_append]
  obtain ⟨r, hbest, hr⟩ := bestFit_short hc (fun a ha => hT.live a (hsub a ha))
    (hsorted.sublist (hsuf.sublist.append_right heavy)) (fun a ha => hlight a (hsuf.subset ha)) hheavy
    (fun a ha => hfar a (hmem a (Or.inl (hsuf.subset ha)))) hlen
  refine ⟨r, hbest, ?_⟩
  rcases List.eq_nil_or_concat' zs with rfl | ⟨zs, z, rfl⟩
  · -- Nothing was compared with: the loop moved on to the first heavy node if there is one.
    simp only [List.map_nil, List.getLastD_nil] at hlast hr
    rw [hlast] at hend
    have hhigh := hend.mp rfl
    rcases hr with ⟨rfl, hnear⟩ | ⟨hr, hnear⟩
    · have hnil : heavy = [] := by
        cases hd : heavy with
        | nil => rfl
        | cons y ys =>
          have := hnear y (by rw [hd]; rfl)
          have := hfar y (hmem y (Or.inr (by rw [hd]; simp)))
          omega
      have hlne : light ≠ [] := by rintro h0; rw [h0, hnil] at hsplit; exact hne hsplit.symm
      refine .light q ?_ (by rw [hnil]; simp)
      rw [hlast, List.getLastD_eq_getLast?, List.getLast?_eq_some_getLast hlne]
      simp
    · obtain ⟨y, ys, hd⟩ := List.exists_cons_of_ne_nil (List.ne_nil_of_mem hr)
      have hy : y ∈ heavy.head? := by rw [hd]; rfl
      exact .heavy r y hr hy (hnear y hy).2 fun q hq => Or.inl (hhigh q hq)
  · -- The loop compared with the last light node, which is on level 0 only.
    obtain ⟨pre, hpre⟩ := hsuf
    have hz : light.getLast? = some z := by rw [← hpre, ← List.append_assoc, List.getLast?_concat]
    have hlow : ¬ 1 < ht z := by
      intro hhigh
      have he := hend.mpr (by rw [hz]; simpa using hhigh)
      rw [← hsplit] at hpath
      have hrest := hpath.at_last
      rw [← he] at hrest
      have := congrArg List.length (hc.unique hrest)
      simp only [List.length_append, List.length_singleton] at this
      omega
    simp only [List.map_append, List.map_cons, List.map_nil, List.getLastD_concat] at hr
    rcases hr with ⟨rfl, hnear⟩ | ⟨hr, hnear⟩
    · exact .light r (by rw [hz]; rfl) fun y hy => ⟨hlow, hnear y hy⟩
    · obtain ⟨y, ys, hd⟩ := List.exists_cons_of_ne_nil (List.ne_nil_of_mem hr)
      have hy : y ∈ heavy.head? := by rw [hd]; rfl
      refine .heavy r y hr hy (hnear y hy).2 fun q hq => Or.inr ?_
      obtain rfl : z = q := by simpa [hz] using hq
      exact (hnear y hy).1

theorem ShortAnswer.mem {light heavy : List α} {r : α} (hr : ShortAnswer h ht w light heavy r) :
    r ∈ light ++ heavy := by
  cases hr with
  | light hq hfar => exact List.mem_append_left _ (List.mem_of_getLast? hq)
  | heavy y hr hy hw hnear => exact List.mem_append_right _ hr

/-- Every node is at least as far as the last light node or as the first heavy one. -/
theorem ShortAnswer.closest_iff {light heavy : List α} {r : α} (hr : ShortAnswer h ht w light heavy r)
    (hs : Sorted h (light ++ heavy)) (hlight : ∀ a ∈ light, h.weight a < w) (hheavy : ∀ a ∈ heavy, w ≤ h.weight a) :
    Closest h w (light ++ heavy) r ↔
      ¬ ∃ q ∈ light.getLast?, 1 < ht q ∧ ∃ y ∈ heavy.head?, distance h w q < distance h w y := by
  have hfarLight : ∀ q ∈ light.getLast?, ∀ a ∈ light, distance h w q ≤ distance h w a := by
    intro q hq a ha
    have := light_closest (List.pairwise_append.mp hs).1 hlight q a ha
    rwa [List.getLastD_eq_getLast?, Option.mem_def.mp hq, Option.getD_some] at this
  have hfarHeavy := heavy_closest (List.pairwise_append.mp hs).2.1 hheavy
  have hmem := hr.mem
  cases hr with
  | light hq hfar =>
    constructor
    · rintro - ⟨q, hq', hhigh, y, hy, -⟩
      obtain rfl : r = q := Option.some.inj (hq.symm.trans hq')
      exact (hfar y hy).1 hhigh
    · intro _
      refine ⟨hmem, fun a ha => ?_⟩
      rcases List.mem_append.mp ha with ha | ha
      · exact hfarLight _ hq a ha
      · obtain ⟨y, ys, rfl⟩ := List.exists_cons_of_ne_nil (List.ne_nil_of_mem ha)
        have := (hfar y rfl).2
        have := hfarHeavy y rfl a ha
        omega
  | heavy y hr hy hw hnear =>
    have hsame : distance h w r = distance h w y := by unfold distance; rw [hw]
    constructor
    · rintro ⟨-, hclosest⟩ ⟨q, hq, -, y', hy', hlt⟩
      obtain rfl : y = y' := Option.some.inj (hy.symm.trans hy')
      have := hclosest q (List.mem_append_left _ (List.mem_of_getLast? hq))
      omega
    · intro hkept
      refine ⟨hmem, fun a ha => ?_⟩
      rw [hsame]
      rcases List.mem_append.mp ha with ha | ha
      · obtain ⟨q, hq⟩ : ∃ q, q ∈ light.getLast? :=
          ⟨_, List.getLast?_eq_some_getLast (List.ne_nil_of_mem ha)⟩
        have hnearest : distance h w y ≤ distance h w q := by
          rcases hnear q hq with hhigh | hle
          · exact Nat.not_lt.mp fun hlt => hkept ⟨q, hq, hhigh, y, hy, hlt⟩
          · exact hle
        exact hnearest.trans (hfarLight q hq a ha)
      · exact hfarHeavy y hy a ha

/-- Of a nonempty list the search without `exact` returns a node, and a closest one unless the fast
first loop skips it. -/
theorem skipListBest_short [DecidableEq α] (hT : Searchable h s xs ht) (hs : Sorted h xs)
    (hfuel : xs.length < fuel) (hw : w ≤ sizeMax) (hsize : ∀ a ∈ xs, h.weight a ≤ sizeMax) (hne : xs ≠ []) :
    ∃ r, skipListBest fuel h (some s) w false = some (some r) ∧ r ∈ xs ∧
      (Closest h w xs r ↔ ¬ SkipsCloser h ht w xs) := by
  obtain ⟨hrun, -⟩ := skipLight_spec (w := w) hT hs hfuel
  obtain ⟨r, hbest, hr⟩ := bestFit_shortAnswer hT hs hfuel hw hsize hne
  have hsplit : xs.takeWhile (fun a => h.weight a < w) ++ xs.dropWhile (fun a => h.weight a < w) = xs :=
    List.takeWhile_append_dropWhile
  have hmem : r ∈ xs := by
    have := hr.mem
    rwa [hsplit] at this
  have hrs : r ≠ s := by
    rintro rfl
    exact (List.nodup_cons.mp hT.nodup).1 hmem
  have hload : h.load r = some (h.node r) := Heap.load_eq (hT.live r (List.mem_cons_of_mem _ hmem))
  refine ⟨r, ?_, hmem, ?_⟩
  · simp only [skipListBest, hrun, hbest, hload, Option.bind_eq_bind, Option.bind_some]
    simp [hrs]
  · have hclosest := hr.closest_iff (by rwa [hsplit]) light_takeWhile hs.heavy
    rwa [hsplit] at hclosest

theorem skipListBest_empty [DecidableEq α] (hT : Searchable h s [] ht) (hfuel : 0 < fuel) :
    skipListBest fuel h (some s) w false = some none := by
  obtain ⟨r, hr, hmem⟩ := skipListBest_mem (w := w) hT (by simp [Sorted]) (by simpa using hfuel) false
  cases r with
  | none => exact hr
  | some n => simpa using hmem n rfl

/-- The answer is the promised one exactly if the fast first loop does not skip a closer node. -/
theorem skipListBest_closest_iff [DecidableEq α] (hT : Searchable h s xs ht) (hs : Sorted h xs)
    (hfuel : xs.length < fuel) (hw : w ≤ sizeMax) (hsize : ∀ a ∈ xs, h.weight a ≤ sizeMax) :
    (∃ r, skipListBest fuel h (some s) w false = some r ∧ ClosestAnswer h w xs r) ↔
      ¬ SkipsCloser h ht w xs := by
  by_cases hne : xs = []
  · subst hne
    have hnone := skipListBest_empty (w := w) hT (by simpa using hfuel)
    simp [hnone, ClosestAnswer, SkipsCloser]
  · obtain ⟨r, hr, -, hclosest⟩ := skipListBest_short hT hs hfuel hw hsize hne
    rw [← hclosest]
    simp [hr, ClosestAnswer, hne]

/-! ## A list on which the heights decide -/

/-- The nodes 1 and 2 of weight 5 and 100 behind the sentinel 0; node 1 has height `k`, node 2 has height 1. -/
def pairHeap (k : Nat) : Heap (Fin 3) where
  node a :=
    { weight := if a = 0 then 0 else if a = 1 then 5 else 100
      next := fun i => if a = 0 ∧ i < k then some 1 else if a = 1 ∧ i = 0 then some 2 else none
      payload := 0
      prev := fun i => if a = 1 ∧ i < k then some 0 else if a = 2 ∧ i = 0 then some 1 else none }
  live _ := true

def pairHeight (k : Nat) (a : Fin 3) : Nat := if a = 1 then k else 1

theorem pairHeap_threaded (hpos : 0 < k) (hk : k ≤ skipListMaxLevels) :
    Threaded (pairHeap k) 0 [1, 2] (pairHeight k) where
  nodup := by decide
  live _ _ := rfl
  chain i hi := by
    by_cases h0 : i = 0
    · subst h0
      simp [level, pairHeight, pairHeap, Heap.next, Heap.prev, hpos]
    · by_cases hik : i < k
      · simp [level, pairHeight, pairHeap, Heap.next, Heap.prev, h0, hik, show ¬ i < 1 by omega]
      · simp [level, pairHeight, pairHeap, Heap.next, h0, hik, show ¬ i < 1 by omega]
  pos := by simpa [pairHeight] using hpos
  le := by simpa [pairHeight] using hk
  top := by simp [pairHeight, pairHeap, Heap.prev]

theorem pairHeap_sorted (k : Nat) : Sorted (pairHeap k) [1, 2] := by
  simp [Sorted, pairHeap, Heap.weight]

/-- The exact search for 6 finds the node of weight 100. -/
theorem skipListBest_bestFit_pair :
    ∃ r, skipListBest 3 (pairHeap 2) (some 0) 6 true = some r ∧
      (∀ n, r = some n ↔ ∃ before after, [1, 2] = before ++ n :: after ∧ 6 ≤ (pairHeap 2).weight n ∧
        ∀ a ∈ before, (pairHeap 2).weight a < 6) ∧
      (∀ n, r = some n → ∀ a ∈ [1, 2], 6 ≤ (pairHeap 2).weight a → (pairHeap 2).weight n ≤ (pairHeap 2).weight a) ∧
      (r = none ↔ ∀ a ∈ [1, 2], (pairHeap 2).weight a < 6) :=
  skipListBest_bestFit (pairHeap_threaded (by decide) (by decide)).searchable (pairHeap_sorted 2) (by decide)

/-- With height 1 the node of weight 5 is the answer to 6, with height 2 it is skipped. -/
theorem skipListBest_closest_fails :
    Threaded (pairHeap 2) 0 [1, 2] (pairHeight 2) ∧ Sorted (pairHeap 2) [1, 2] ∧
      skipListBest 3 (pairHeap 2) (some 0) 6 false = some (some 2) ∧
      ¬ ClosestAnswer (pairHeap 2) 6 [1, 2] (some 2) ∧
      Threaded (pairHeap 1) 0 [1, 2] (pairHeight 1) ∧ Sorted (pairHeap 1) [1, 2] ∧
      skipListBest 3 (pairHeap 1) (some 0) 6 false = some (some 1) ∧
      distance (pairHeap 1) 6 1 ≠ distance (pairHeap 2) 6 2 := by
  refine ⟨pairHeap_threaded (by decide) (by decide), pairHeap_sorted 2, by decide, ?_,
    pairHeap_threaded (by decide) (by decide), pairHeap_sorted 1, by decide, by decide⟩
  rintro ⟨-, hclosest⟩
  obtain ⟨n, hn, -, hle⟩ := hclosest (by decide)
  obtain rfl := Option.some.inj hn
  exact absurd (hle 1 (by decide)) (by decide)

theorem skipListBest_closest_iff_pair :
    (∃ r, skipListBest 3 (pairHeap 1) (some 0) 6 false = some r ∧ ClosestAnswer (pairHeap 1) 6 [1, 2] r) ↔
      ¬ SkipsCloser (pairHeap 1) (pairHeight 1) 6 [1, 2] :=
  skipListBest_closest_iff (pairHeap_threaded (by decide) (by decide)).searchable (pairHeap_sorted 1) (by decide)
    (by decide) (by decide)

end GenericOs.SkipList
