import GenericOs.Slab.Lists

/-!
# Returning the page of a slab

`SLABTryReturnPage` takes the slab and its residual blocks out of their lists, one list
each. A removal in the middle or at the end of a list is right. At the head the code
writes through the null `Prev`.
-/

namespace GenericOs.Slab

open Pointer (Chain)

variable {m m' : Memory} {slub order obj slab head a p x n o len : ℕ} {xs ys ns : List ℕ} {lists : ℕ → List ℕ}

/-! ## Lists as chains -/

def listNext (m : Memory) (a : Nat) : Option Nat := if nextOf m a = 0 then none else some (nextOf m a)

/-- The head of the list stands for the null `Prev` of the first object. -/
def listPrev (m : Memory) (head a : Nat) : Option Nat :=
  if prevOf m a = 0 then some head else if prevOf m a = head then none else some (prevOf m a)

theorem links_iff_chain (hhead : head ∉ xs) {s prev : ℕ} (hs : (s = head ∧ prev = 0) ∨ (s = prev ∧ s ≠ 0 ∧ s ≠ head)) :
    Links m prev (nextOf m s) xs ↔ Chain (listNext m) (listPrev m head) s xs := by
  induction xs generalizing s prev with
  | nil =>
    rw [Links, Pointer.chain_nil, listNext]
    split_ifs with h0 <;> simp [h0]
  | cons x xs ih =>
    have hx : x ≠ head := fun he => hhead (by simp [he])
    have hnext : listNext m s = some x ↔ nextOf m s = x ∧ x ≠ 0 := by
      rw [listNext]
      split_ifs with h0
      · constructor
        · simp
        · rintro ⟨rfl, hx0⟩; exact absurd h0 hx0
      · constructor
        · rintro ⟨⟩; exact ⟨rfl, h0⟩
        · rintro ⟨rfl, -⟩; rfl
    have hprev : listPrev m head x = some s ↔ prevOf m x = prev := by
      rw [listPrev]
      rcases hs with ⟨rfl, rfl⟩ | ⟨rfl, hs0, hsh⟩
      · split_ifs with h0 h1
        · simp [h0]
        · simp [h0]
        · simp [h0, h1]
      · split_ifs with h0 h1
        · simp [h0, hs0.symm, hsh.symm]
        · simp [h1, hsh.symm]
        · simp
    rw [Links, Pointer.chain_cons, hnext, hprev]
    constructor
    · rintro ⟨h1, h2, h3, h4⟩
      exact ⟨⟨h1, h2⟩, h3, (ih (fun h => hhead (List.mem_cons_of_mem _ h)) (Or.inr ⟨rfl, h2, hx⟩)).mp h4⟩
    · rintro ⟨⟨h1, h2⟩, h3, h4⟩
      exact ⟨h1, h2, h3, (ih (fun h => hhead (List.mem_cons_of_mem _ h)) (Or.inr ⟨rfl, h2, hx⟩)).mpr h4⟩

theorem listAt_iff_chain (hhead : head ∉ xs) :
    ListAt m head xs ↔ Chain (listNext m) (listPrev m head) head xs ∧ xs.Nodup := by
  rw [← links_iff_chain hhead (Or.inl ⟨rfl, rfl⟩)]
  exact ⟨fun h => ⟨h.links, h.nodup⟩, fun h => ⟨h.1, h.2⟩⟩

theorem ListAt.around (h : ListAt m head (xs ++ n :: ys)) (hhead : head ∉ xs ++ n :: ys) (hxs : xs ≠ []) :
    prevOf m n = xs.getLastD head ∧ nextOf m n = ys.head?.getD 0 := by
  obtain ⟨hc, -⟩ := (listAt_iff_chain hhead).mp h
  have hlast : xs.getLastD head ∈ xs := by
    obtain ⟨x, zs, rfl⟩ := List.exists_cons_of_ne_nil hxs
    rw [List.getLastD_cons]
    exact Pointer.getLastD_mem zs x
  constructor
  · have hp := hc.prev_mem
    rw [listPrev] at hp
    split_ifs at hp with h0 h1
    · rw [← Option.some.inj hp] at hlast
      exact absurd (List.mem_append_left _ hlast) hhead
    · exact Option.some.inj hp
  · have hn := hc.at_last.2.2.next_head
    rw [listNext] at hn
    split_ifs at hn with h0
    · rw [← hn, h0]; rfl
    · rw [← hn]; rfl

theorem ListAt.prev_first (h : ListAt m head (n :: ys)) : prevOf m n = 0 := h.links.2.2.1

/-- The links of different nodes do not overlap, and the head of the list is apart from them. -/
structure Spaced (head : Nat) (xs : List Nat) : Prop where
  nonnull : ∀ x ∈ xs, x ≠ 0
  nodes : ∀ x ∈ xs, ∀ y ∈ xs, x ≠ y + offsetPrev
  head : ∀ x ∈ xs, head ≠ x ∧ head ≠ x + offsetPrev

theorem Spaced.head_notMem (h : Spaced head xs) : head ∉ xs := fun hm => (h.head head hm).1 rfl

/-- The two stores of `SLABListRemove` link an object out that is not the first. -/
theorem ListAt.unlink (h : ListAt m head (xs ++ n :: ys)) (hsp : Spaced head (xs ++ n :: ys)) (hxs : xs ≠ [])
    (hptr : ∀ a, nextOf m' a = if a = prevOf m n then nextOf m n
      else if nextOf m n ≠ 0 ∧ a = nextOf m n + offsetPrev then prevOf m n else nextOf m a) :
    ListAt m' head (xs ++ ys) := by
  have hhead := hsp.head_notMem
  obtain ⟨hprev, hnext⟩ := h.around hhead hxs
  obtain ⟨hc, hnodup⟩ := (listAt_iff_chain hhead).mp h
  have hlast : prevOf m n ∈ xs := by
    obtain ⟨x, zs, rfl⟩ := List.exists_cons_of_ne_nil hxs
    rw [hprev, List.getLastD_cons]
    exact Pointer.getLastD_mem zs x
  have hmem : ∀ a, a ∈ xs ++ ys → a ∈ xs ++ n :: ys := by
    intro a ha
    simp only [List.mem_append, List.mem_cons] at ha ⊢
    tauto
  have hhead' : head ∉ xs ++ ys := fun hm => hhead (hmem head hm)
  have hlastMem := hmem _ (List.mem_append_left ys hlast)
  have hnodupHead : (head :: (xs ++ n :: ys)).Nodup := List.nodup_cons.mpr ⟨hhead, hnodup⟩
  -- The object behind `n`, if there is one.
  have hbehind : ∀ a, a ∈ ys.head? ↔ nextOf m n ≠ 0 ∧ a = nextOf m n := by
    intro a
    cases ys with
    | nil => simp [hnext]
    | cons y ys =>
      have hy0 := hsp.nonnull y (by simp)
      simp only [hnext, List.head?_cons, Option.getD_some, Option.mem_some_iff]
      exact ⟨fun he => ⟨hy0, he.symm⟩, fun he => he.2.symm⟩
  have hbehindMem : ∀ a ∈ ys.head?, a ∈ xs ++ n :: ys := fun a ha =>
    hmem a (List.mem_append_right _ (List.mem_of_mem_head? ha))
  have hunlinked : Chain (fun a => if a = prevOf m n then ys.head? else listNext m a)
      (fun a => if a ∈ ys.head? then some (prevOf m n) else listPrev m head a) head (xs ++ ys) := by
    apply hc.unlink hnodupHead
    · exact if_pos hprev.symm
    · intro y hy
      rw [if_pos hy, hprev]
    · intro a ha
      exact if_neg (by rw [hprev]; exact ha)
    · intro a ha
      exact if_neg ha
  have hcell : ∀ a ∈ head :: (xs ++ ys), nextOf m' a = if a = prevOf m n then nextOf m n else nextOf m a := by
    intro a ha
    rw [hptr]
    split_ifs with h1 h2
    · rfl
    · -- The other store goes to a `Prev`.
      have hb := hbehindMem (nextOf m n) ((hbehind _).mpr ⟨h2.1, rfl⟩)
      rcases List.mem_cons.mp ha with rfl | ha
      · exact absurd h2.2 (hsp.head _ hb).2
      · exact absurd h2.2 (hsp.nodes a (hmem a ha) _ hb)
    · rfl
  have hback : ∀ a ∈ xs ++ ys, prevOf m' a = if a ∈ ys.head? then prevOf m n else prevOf m a := by
    intro a ha
    have hfield : prevOf m' a = _ := hptr (a + offsetPrev)
    rw [hfield, if_neg (Ne.symm (hsp.nodes _ hlastMem a (hmem a ha)))]
    simp only [Nat.add_right_cancel_iff, ← hbehind]
    rfl
  rw [listAt_iff_chain hhead']
  refine ⟨hunlinked.congr (fun a ha => ?next) (fun a ha => ?prev), ?nodup⟩
  case next =>
    rw [listNext, hcell a ha]
    by_cases hal : a = prevOf m n
    · simp only [if_pos hal]
      rw [hnext]
      cases ys with
      | nil => rfl
      | cons y ys => exact if_neg (hsp.nonnull y (by simp))
    · simp only [if_neg hal]
      rfl
  case prev =>
    rw [listPrev, hback a ha]
    by_cases hay : a ∈ ys.head?
    · simp only [if_pos hay]
      rw [if_neg (hsp.nonnull _ hlastMem), if_neg]
      intro he
      rw [he] at hlastMem
      exact hhead hlastMem
    · simp only [if_neg hay]
      rfl
  case nodup =>
    exact hnodup.sublist ((List.Sublist.refl xs).append (List.sublist_cons_self ..))

/-! ## The lists of a `SLUB` -/

/-- The lists of all orders are well formed, and each holds objects of its order. -/
structure Partials (m : Memory) (slub : Nat) (lists : Nat → List Nat) : Prop where
  list : ∀ o < slabsTotOrders, ListAt m (partialHead slub o) (lists o)
  object : ∀ o < slabsTotOrders, ∀ x ∈ lists o, OfOrder m o x ∧ Apart slub x

theorem Partials.spaced (h : Partials m slub lists) (ho : o < slabsTotOrders) {o' : ℕ} (ho' : o' < slabsTotOrders) :
    Spaced (partialHead slub o') (lists o) := by
  have h8 := offsetPrev_val
  refine ⟨fun x hx => ?_, fun x hx y hy => ?_, fun x hx => ?_⟩
  · have := (h.object o ho x hx).1.place
    omega
  · have := (h.object o ho x hx).1.place
    have := (h.object o ho y hy).1.place
    omega
  · have := (h.object o ho x hx).2.links o' ho'
    omega

theorem Partials.congr (h : Partials m slub lists) {lists' : ℕ → List ℕ}
    (hsame : ∀ o < slabsTotOrders, lists' o = lists o) : Partials m slub lists' := by
  refine ⟨fun o ho => ?_, fun o ho x hx => ?_⟩
  · rw [hsame o ho]
    exact h.list o ho
  · rw [hsame o ho] at hx
    exact h.object o ho x hx

theorem Partials.only (h : Partials m slub lists) {o' : ℕ} (ho : o < slabsTotOrders) (ho' : o' < slabsTotOrders)
    (hx : x ∈ lists o) (hx' : x ∈ lists o') : o = o' := (h.object o ho x hx).1.unique (h.object o' ho' x hx').1

/-- The lists without some objects. -/
def without (lists : Nat → List Nat) (ns : List Nat) (o : Nat) : List Nat := (lists o).filter (fun x => x ∉ ns)

theorem mem_without : x ∈ without lists ns o ↔ x ∈ lists o ∧ x ∉ ns := by simp [without]

/-- At the head of its list the object has no predecessor to write to. -/
theorem Partials.remove_head (h : Partials m slub lists) (ho : o < slabsTotOrders) (hn : (lists o).head? = some n) :
    slabListRemove m slub n = none := by
  obtain ⟨ys, hys⟩ : ∃ ys, lists o = n :: ys := by
    cases hl : lists o with
    | nil => rw [hl] at hn; cases hn
    | cons y ys => rw [hl, List.head?_cons] at hn; exact ⟨ys, by rw [Option.some.inj hn]⟩
  obtain ⟨hobj, ha⟩ := h.object o ho n (by rw [hys]; simp)
  have hlist := h.list o ho
  rw [hys] at hlist
  rw [slabListRemove_eq hobj ha, hlist.prev_first]
  cases hstore : (if nextOf m n ≠ 0 then m.storePtr (nextOf m n + offsetPrev) 0 else some m) with
  | none => rfl
  | some m₁ => simp [Memory.storePtr, Memory.store]

/-- Elsewhere it disappears from its list, and nothing else changes. -/
theorem Partials.remove (h : Partials m slub lists) (ho : o < slabsTotOrders) (hn : n ∈ lists o)
    (hhead : (lists o).head? ≠ some n) :
    ∃ m', slabListRemove m slub n = some m' ∧ Partials m' slub (without lists [n]) ∧
      ∀ o < slabsTotOrders, ∀ x ∈ lists o, lengthOf m' (slabObject x) = lengthOf m (slabObject x) := by
  have h8 := offsetPrev_val
  obtain ⟨hobj, ha⟩ := h.object o ho n hn
  have hlist := h.list o ho
  have hspaced := h.spaced ho ho
  obtain ⟨xs, ys, hxys⟩ := List.append_of_mem hn
  have hxs : xs ≠ [] := by
    rintro rfl
    rw [hxys] at hhead
    exact hhead rfl
  rw [hxys] at hlist hspaced
  obtain ⟨hprev, hnext⟩ := hlist.around hspaced.head_notMem hxs
  have hlast : prevOf m n ∈ lists o := by
    obtain ⟨x, zs, rfl⟩ := List.exists_cons_of_ne_nil hxs
    rw [hprev, List.getLastD_cons, hxys]
    exact List.mem_append_left _ (Pointer.getLastD_mem zs x)
  have hbehind : nextOf m n ≠ 0 → nextOf m n ∈ lists o := by
    intro hn0
    cases ys with
    | nil => exact absurd hnext hn0
    | cons y ys => rw [hnext, hxys]; simp
  have hplace : ∀ o < slabsTotOrders, ∀ x ∈ lists o, _ := fun o ho x hx => (h.object o ho x hx).1.place
  have hlastPlace := hplace o ho _ hlast
  obtain ⟨m₁, hrun₁, hptr₁, hframe₁⟩ := storeBack_spec m (nextOf m n)
    (fun hn0 => by have := hplace o ho _ (hbehind hn0); omega) (prevOf_lt m n)
  set m' := m₁.set (prevOf m n) (BitVec.ofNat 64 (nextOf m n)) with hm'
  have hrun : slabListRemove m slub n = some m' := by
    rw [slabListRemove_eq hobj ha, hrun₁, Option.bind_some, Memory.storePtr_eq (by omega) (by omega)]
  have hptr : ∀ a, nextOf m' a = if a = prevOf m n then nextOf m n
      else if nextOf m n ≠ 0 ∧ a = nextOf m n + offsetPrev then prevOf m n else nextOf m a := by
    intro a
    rw [hm', nextOf_set (nextOf_lt m n), hptr₁]
  -- Only links of objects in this list are written.
  have hframe : ∀ a, (∀ x ∈ lists o, a ≠ x ∧ a ≠ x + offsetPrev) → m'.at a = m.at a := by
    intro a hall
    rw [hm', Memory.at_set_ne _ (hall _ hlast).1, hframe₁]
    rintro ⟨hn0, he⟩
    exact (hall _ (hbehind hn0)).2 he
  have hlength : ∀ o < slabsTotOrders, ∀ x ∈ lists o, lengthOf m' (slabObject x) = lengthOf m (slabObject x) := by
    intro o' ho' x hx
    have hpx := hplace o' ho' x hx
    rw [lengthOf, hframe, lengthOf]
    intro y hy
    have hpy := hplace o ho y hy
    simp only [offsetCounts_val]
    omega
  refine ⟨m', hrun, ⟨fun o' ho' => ?list, fun o' ho' x hx => ?object⟩, hlength⟩
  case object =>
    have hx := (mem_without.mp hx).1
    obtain ⟨hxo, hxa⟩ := h.object o' ho' x hx
    exact ⟨hxo.congr (hlength o' ho' x hx), hxa⟩
  case list =>
    by_cases hoo : o' = o
    · subst hoo
      have hwithout : without lists [n] o' = xs ++ ys := by
        have hnodup := hlist.nodup
        rw [List.nodup_middle, List.nodup_cons] at hnodup
        rw [without, hxys, List.filter_append, List.filter_cons_of_neg (by simp), ← List.filter_append,
          List.filter_eq_self]
        intro x hx
        have : x ≠ n := by rintro rfl; exact hnodup.1 hx
        simpa using this
      rw [hwithout]
      exact hlist.unlink hspaced hxs hptr
    · have hwithout : without lists [n] o' = lists o' := by
        rw [without, List.filter_eq_self]
        intro x hx
        have : x ≠ n := by rintro rfl; exact hoo (h.only ho' ho hx hn)
        simpa using this
      rw [hwithout]
      refine (h.list o' ho').congr ?_ fun x hx => ⟨?_, ?_⟩
      · rw [nextOf, hframe, nextOf]
        exact fun y hy => (h.spaced ho ho').head y hy
      · rw [nextOf, hframe, nextOf]
        intro y hy
        have hpx := hplace o' ho' x hx
        have hpy := hplace o ho y hy
        have : x ≠ y := by rintro rfl; exact hoo (h.only ho' ho hx hy)
        omega
      · rw [prevOf, hframe, prevOf]
        intro y hy
        have hpx := hplace o' ho' x hx
        have hpy := hplace o ho y hy
        have : x ≠ y := by rintro rfl; exact hoo (h.only ho' ho hx hy)
        omega

/-- `SLABTrySafeListRemove` takes it out unless it is a slab with a main block in use. -/
theorem Partials.try_remove (h : Partials m slub lists) (ho : o < slabsTotOrders) (hn : n ∈ lists o)
    (hhead : (lists o).head? ≠ some n) :
    ∃ can m', slabCanRemoveObjectFromList m n = some can ∧ slabTrySafeListRemove m slub n = some m' ∧
      Partials m' slub (if can then without lists [n] else lists) := by
  obtain ⟨hobj, -⟩ := h.object o ho n hn
  have hcount : ∃ count, mainElementCount m (slabObject n) = some count := by
    have hpl := hobj.place
    unfold mainElementCount
    rw [Memory.load_eq (by simp only [offsetCounts_val]; omega) (by simp only [offsetCounts_val]; omega)]
    exact ⟨_, rfl⟩
  obtain ⟨count, hcount⟩ := hcount
  have hcan : ∃ can, slabCanRemoveObjectFromList m n = some can := by
    unfold slabCanRemoveObjectFromList
    simp only [slabMainTotal_eq hobj.page, hcount, Option.bind_eq_bind, Option.bind_some]
    split_ifs
    · exact ⟨true, rfl⟩
    · exact ⟨_, rfl⟩
  obtain ⟨can, hcan⟩ := hcan
  have hrun : slabTrySafeListRemove m slub n = if can then slabListRemove m slub n else some m := by
    unfold slabTrySafeListRemove
    simp only [hobj.objectOrder, hcan, Option.bind_eq_bind, Option.bind_some]
    rfl
  cases can with
  | false => exact ⟨false, m, hcan, hrun, h⟩
  | true =>
    obtain ⟨m', hremove, h', -⟩ := h.remove ho hn hhead
    exact ⟨true, m', hcan, hrun.trans hremove, h'⟩

/-! ## All objects of a page -/

def residualAt (slab j : Nat) : Nat := slab + sizeofSlab * 2 ^ j

/-- The slab is in a list, and so is each of its residual blocks, in the list of its own size. -/
structure PageLinked (m : Memory) (lists : Nat → List Nat) (slab : Nat) : Prop where
  whole : ∃ o < slabsTotOrders, slab ∈ lists o
  residual : ∀ j < residualTotal (lengthOf m slab), residualAt slab j ∈ lists (j + 2)

theorem residual_lt (hlen : IsSizeClass len) {j : ℕ} (hj : j < residualTotal len) :
    sizeofSlab * 2 ^ j < len ∧ len ≤ 512 ∧ j < 3 := by
  have hlt := (residualTotal_iff hlen).mp hj
  have hle := hlen.bounds.2
  refine ⟨hlt, hle, ?_⟩
  by_contra hge
  have := Nat.pow_le_pow_right (show 0 < 2 by decide) (Nat.le_of_not_lt hge)
  simp only [sizeofSlab_val] at hlt
  omega

theorem slabObject_residualAt (hpage : IsPage slab) (hlen : IsSizeClass len) {j : ℕ} (hj : j < residualTotal len) :
    slabObject (residualAt slab j) = slab := by
  have := residual_lt hlen hj
  exact slabObject_add hpage (by simp only [pageSize_val]; omega)

theorem without_of_disjoint (h : ∀ x ∈ ns, x ∉ lists o) : without lists ns o = lists o := by
  rw [without, List.filter_eq_self]
  intro x hx
  simpa using fun hns => h x hns hx

/-- The loop takes the residual blocks out one after another, until one of them is the head of its list. -/
theorem returnResidualLoop_spec (hpage : IsPage slab) (hlen : IsSizeClass len) {k j fuel : ℕ}
    (htotal : residualTotal len = j + k) (hfuel : k < fuel) (h : Partials m slub lists) (hm : lengthOf m slab = len)
    (hmem : ∀ i, j ≤ i → i < residualTotal len → residualAt slab i ∈ lists (i + 2)) :
    ((∀ i, j ≤ i → i < residualTotal len → (lists (i + 2)).head? ≠ some (residualAt slab i)) →
      ∃ m', returnResidualLoop slub slab fuel (sizeofSlab * 2 ^ j) m = some m' ∧
        Partials m' slub (without lists ((List.range' j k).map (residualAt slab)))) ∧
    ((∃ i, j ≤ i ∧ i < residualTotal len ∧ (lists (i + 2)).head? = some (residualAt slab i)) →
      returnResidualLoop slub slab fuel (sizeofSlab * 2 ^ j) m = none) := by
  induction k generalizing j fuel m lists with
  | zero =>
    obtain ⟨fuel, rfl⟩ : ∃ n, fuel = n + 1 := ⟨fuel - 1, by omega⟩
    have hdone : ¬ sizeofSlab * 2 ^ j < len := fun hlt => by
      have := (residualTotal_iff hlen).mpr hlt
      omega
    constructor
    · intro _
      refine ⟨m, ?_, ?_⟩
      · simp only [returnResidualLoop, elementLength_eq hpage, hm, Option.bind_eq_bind, Option.bind_some,
          if_neg hdone]
        rfl
      · have hsame : without lists [] = lists := by
          funext o
          exact without_of_disjoint (by simp)
        rwa [List.range'_zero, List.map_nil, hsame]
    · rintro ⟨i, h1, h2, -⟩
      omega
  | succ k ih =>
    obtain ⟨fuel, rfl⟩ : ∃ n, fuel = n + 1 := ⟨fuel - 1, by omega⟩
    have hj : j < residualTotal len := by omega
    obtain ⟨hlt, hle, hj3⟩ := residual_lt hlen hj
    have hjo : j + 2 < slabsTotOrders := by simp only [slabsTotOrders_val]; omega
    have hn := hmem j le_rfl hj
    have hword : word (sizeofSlab * 2 ^ j * 2) = sizeofSlab * 2 ^ (j + 1) := by
      rw [word, Nat.mod_eq_of_lt (by omega), Nat.pow_succ, Nat.mul_assoc]
    have hstep : returnResidualLoop slub slab (fuel + 1) (sizeofSlab * 2 ^ j) m =
        (slabListRemove m slub (residualAt slab j)).bind fun m =>
          returnResidualLoop slub slab fuel (sizeofSlab * 2 ^ (j + 1)) m := by
      simp only [returnResidualLoop, elementLength_eq hpage, hm, Option.bind_eq_bind, Option.bind_some, if_pos hlt,
        hword]
      rfl
    rw [hstep]
    by_cases hhead : (lists (j + 2)).head? = some (residualAt slab j)
    · rw [h.remove_head hjo hhead]
      exact ⟨fun hno => absurd hhead (hno j le_rfl hj), fun _ => rfl⟩
    · obtain ⟨m₁, hrun₁, h₁, hlength⟩ := h.remove hjo hn hhead
      have hm₁ : lengthOf m₁ slab = len := by
        have := hlength (j + 2) hjo _ hn
        rwa [slabObject_residualAt hpage hlen hj, hm] at this
      -- The lists of the later residual blocks are still the same.
      have hsame : ∀ i, j + 1 ≤ i → i < residualTotal len → without lists [residualAt slab j] (i + 2) = lists (i + 2) := by
        intro i hi hit
        apply without_of_disjoint
        intro x hx hxi
        obtain rfl : x = residualAt slab j := by simpa using hx
        have hio : i + 2 < slabsTotOrders := by
          have := (residual_lt hlen hit).2.2
          simp only [slabsTotOrders_val]
          omega
        have := h.only hjo hio hn hxi
        omega
      obtain ⟨hrest, hstop⟩ := ih (j := j + 1) (by omega) (show k < fuel by omega) h₁ hm₁ fun i hi hit => by
        rw [hsame i hi hit]
        exact hmem i (by omega) hit
      rw [hrun₁, Option.bind_some]
      constructor
      · intro hno
        obtain ⟨m₂, hrun₂, h₂⟩ := hrest fun i hi hit => by
          rw [hsame i hi hit]
          exact hno i (by omega) hit
        refine ⟨m₂, hrun₂, ?_⟩
        have hcomp : without (without lists [residualAt slab j]) ((List.range' (j + 1) k).map (residualAt slab)) =
            without lists ((List.range' j (k + 1)).map (residualAt slab)) := by
          funext o
          rw [without, without, without, List.filter_filter, List.range'_succ, List.map_cons]
          apply List.filter_congr
          intro x _
          simp only [List.mem_cons, not_or, List.not_mem_nil, or_false]
          rw [Bool.decide_and, Bool.and_comm]
        rwa [hcomp] at h₂
      · rintro ⟨i, hi, hit, hih⟩
        refine hstop ⟨i, ?_, hit, ?_⟩
        · by_contra hlt
          obtain rfl : i = j := by omega
          exact hhead hih
        · rwa [hsame i ?_ hit]
          by_contra hlt
          obtain rfl : i = j := by omega
          exact hhead hih

/-- The objects in the page of a slab are the slab and its residual blocks. -/
theorem OfOrder.mem_page (h : OfOrder m o x) (hpage : IsPage slab) (hlen : IsSizeClass (lengthOf m slab)) :
    slabObject x = slab ↔ x = slab ∨ ∃ j < residualTotal (lengthOf m slab), x = residualAt slab j := by
  constructor
  · rintro rfl
    rcases h.size with ⟨he, -⟩ | ⟨he, hlow, hlt⟩
    · exact Or.inl he
    · -- The offset is a power of two from 64 on.
      simp only [sizeofSlab_val, slabsMinAlloc_val] at hlow hlt he
      have ho : 2 ≤ o := by
        by_contra hlt2
        have := Nat.pow_le_pow_right (show 0 < 2 by decide) (show o ≤ 1 by omega)
        omega
      obtain ⟨j, rfl⟩ : ∃ j, o = j + 2 := ⟨o - 2, by omega⟩
      have hpow : 16 * 2 ^ (j + 2) = 64 * 2 ^ j := by rw [Nat.pow_add]; omega
      refine Or.inr ⟨j, (residualTotal_iff h.length).mpr ?_, ?_⟩
      · simp only [sizeofSlab_val]
        omega
      · simp only [residualAt, sizeofSlab_val]
        omega
  · rintro (rfl | ⟨j, hj, rfl⟩)
    · exact slabObject_add (q := 0) hpage (by decide)
    · exact slabObject_residualAt hpage hlen hj

/-- The lists without the slab and its residual blocks are the lists without the page. -/
theorem Partials.without_page (h : Partials m slub lists) (hpage : IsPage slab) (hlen : IsSizeClass (lengthOf m slab))
    (ho : o < slabsTotOrders) :
    without (without lists [slab]) ((List.range' 0 (residualTotal (lengthOf m slab))).map (residualAt slab)) o =
      (lists o).filter (fun x => slabObject x ≠ slab) := by
  rw [without, without, List.filter_filter]
  apply List.filter_congr
  intro x hx
  have hmem : x ∈ (List.range' 0 (residualTotal (lengthOf m slab))).map (residualAt slab) ↔
      ∃ j < residualTotal (lengthOf m slab), x = residualAt slab j := by
    simp only [List.mem_map, List.mem_range'_1, Nat.zero_add, Nat.zero_le, true_and, eq_comm]
  rw [← Bool.decide_and, decide_eq_decide, hmem, List.mem_singleton, ne_eq, (h.object o ho x hx).1.mem_page hpage hlen,
    not_or, and_comm]

/-- The whole page: the slab first, then its residual blocks. -/
theorem Partials.return_page (h : Partials m slub lists) (hl : PageLinked m lists slab) (hself : slabObject slab = slab) :
    ((∀ o < slabsTotOrders, ∀ x ∈ (lists o).head?, slabObject x ≠ slab) →
      ∃ m₁ m', slabListRemove m slub slab = some m₁ ∧ returnResidualLoop slub slab 64 sizeofSlab m₁ = some m' ∧
        Partials m' slub (fun o => (lists o).filter (fun x => slabObject x ≠ slab))) ∧
    ((∃ o < slabsTotOrders, ∃ x ∈ (lists o).head?, slabObject x = slab) →
      (slabListRemove m slub slab).bind (returnResidualLoop slub slab 64 sizeofSlab) = none) := by
  obtain ⟨o, ho, hslab⟩ := hl.whole
  obtain ⟨hobj, -⟩ := h.object o ho slab hslab
  have hpage := hobj.page
  have hlen := hobj.length
  rw [hself] at hpage hlen
  set len := lengthOf m slab with hlenDef
  have hsize : len = slabsMinAlloc * 2 ^ o := by
    rcases hobj.size with ⟨-, hs⟩ | ⟨he, hlow, -⟩
    · exact hs
    · rw [hself] at he
      simp only [sizeofSlab_val] at hlow
      omega
  have hresOrder : ∀ i < residualTotal len, i + 2 < slabsTotOrders := fun i hi => by
    have := (residual_lt hlen hi).2.2
    simp only [slabsTotOrders_val]
    omega
  have htotal : residualTotal len < 64 := by
    by_contra hge
    have := (residual_lt hlen (show 63 < residualTotal len by omega)).2.2
    omega
  by_cases hhead : (lists o).head? = some slab
  · constructor
    · intro hno
      exact absurd hself (hno o ho slab hhead)
    · intro _
      rw [h.remove_head ho hhead]
      rfl
  · obtain ⟨m₁, hrun₁, h₁, hlength⟩ := h.remove ho hslab hhead
    have hm₁ : lengthOf m₁ slab = len := by
      have := hlength o ho _ hslab
      rwa [hself] at this
    have hsame : ∀ i < residualTotal len, without lists [slab] (i + 2) = lists (i + 2) := by
      intro i hi
      apply without_of_disjoint
      intro x hx hxi
      obtain rfl : x = slab := by simpa using hx
      obtain rfl : o = i + 2 := h.only ho (hresOrder i hi) hslab hxi
      have hlt := (residual_lt hlen hi).1
      rw [hsize, Nat.pow_add] at hlt
      simp only [sizeofSlab_val, slabsMinAlloc_val] at hlt
      omega
    obtain ⟨hrest, hstop⟩ := returnResidualLoop_spec (j := 0) hpage hlen (Nat.zero_add _).symm htotal h₁ hm₁ fun i _ hi => by
        rw [hsame i hi]
        exact hl.residual i hi
    rw [Nat.pow_zero, Nat.mul_one] at hrest hstop
    rw [hrun₁, Option.bind_some]
    constructor
    · intro hno
      obtain ⟨m₂, hrun₂, h₂⟩ := hrest fun i _ hi => by
        rw [hsame i hi]
        exact fun he => hno _ (hresOrder i hi) _ he (slabObject_residualAt hpage hlen hi)
      refine ⟨m₁, m₂, rfl, hrun₂, h₂.congr fun o' ho' => ?_⟩
      exact (h.without_page hpage hlen ho').symm
    · rintro ⟨o', ho', x, hx, hxs⟩
      apply hstop
      obtain ⟨hxobj, -⟩ := h.object o' ho' x (List.mem_of_mem_head? hx)
      rcases (hxobj.mem_page hpage hlen).mp hxs with rfl | ⟨j, hj, rfl⟩
      · obtain rfl := h.only ho' ho (List.mem_of_mem_head? hx) hslab
        exact absurd hx hhead
      · obtain rfl := h.only ho' (hresOrder j hj) (List.mem_of_mem_head? hx) (hl.residual j hj)
        refine ⟨j, Nat.zero_le j, hj, ?_⟩
        rw [hsame j hj]
        exact hx

theorem slabTryReturnPage_eq (hp : slabObject p = slab) (hfree : slabCanFree m slab = some true) :
    slabTryReturnPage m slub p = (slabListRemove m slub slab).bind (returnResidualLoop slub slab 64 sizeofSlab) := by
  simp only [slabTryReturnPage, hp, hfree, Option.bind_eq_bind, Option.bind_some, if_true]

/-- Returning a free page leaves the well-formed lists without the page exactly if none of its objects is the
head of a list. A page that cannot be freed is left alone. -/
theorem slabTryReturnPage_iff (hp : slabObject p = slab) :
    (slabCanFree m slab = some false → slabTryReturnPage m slub p = some m) ∧
    (slabCanFree m slab = some true → Partials m slub lists → PageLinked m lists slab →
      ((∃ m', slabTryReturnPage m slub p = some m' ∧
        Partials m' slub (fun o => (lists o).filter (fun x => slabObject x ≠ slab))) ↔
      ∀ o < slabsTotOrders, ∀ x ∈ (lists o).head?, slabObject x ≠ slab)) := by
  constructor
  · intro hfree
    simp only [slabTryReturnPage, hp, hfree, Option.bind_eq_bind, Option.bind_some]
    rfl
  · intro hfree h hl
    have hself : slabObject slab = slab := by
      rw [← hp, slabObject, slabObject, pageSize_val]
      omega
    obtain ⟨hclean, hstuck⟩ := h.return_page hl hself
    rw [slabTryReturnPage_eq hp hfree]
    constructor
    · rintro ⟨m', hrun, -⟩ o ho x hx hxs
      rw [hstuck ⟨o, ho, x, hx, hxs⟩] at hrun
      cases hrun
    · intro hno
      obtain ⟨m₁, m', hrun₁, hrun, h'⟩ := hclean hno
      exact ⟨m', by rw [hrun₁, Option.bind_some, hrun], h'⟩

/-! ## Two slabs of one list -/

/-- Free slabs of 64-byte blocks at 4096 and 8192, and a `SLUB` at 16384 whose list of order 2 is 8192, 4096. -/
def twoSlabs : Memory where
  «at» a :=
    if a = 4096 + offsetCounts ∨ a = 8192 + offsetCounts then BitVec.ofNat 64 (64 + 63 * 2 ^ 32)
    else if a = 8192 then 4096
    else if a = 4096 + offsetPrev then 8192
    else if a = partialHead 16384 2 then 8192
    else 0

def twoSlabsLists (o : Nat) : List Nat := if o = 2 then [8192, 4096] else []

theorem twoSlabs_partials : Partials twoSlabs 16384 twoSlabsLists := by
  have hclass : IsSizeClass 64 := ⟨2, by decide, by decide⟩
  have hobject : ∀ x ∈ [8192, 4096], OfOrder twoSlabs 2 x ∧ Apart 16384 x := by
    have hslab : ∀ x ∈ [8192, 4096], slabObject x = x ∧ IsPage x ∧ x + pageSize ≤ 2 ^ 64 ∧
        lengthOf twoSlabs x = 64 ∧ (∀ o < slabsTotOrders, x + sizeofSlab ≤ partialHead 16384 o) := by
      intro x hx
      simp only [List.mem_cons, List.not_mem_nil, or_false] at hx
      rcases hx with rfl | rfl
      · exact ⟨by decide, ⟨by decide, by decide⟩, by decide, by decide, by decide⟩
      · exact ⟨by decide, ⟨by decide, by decide⟩, by decide, by decide, by decide⟩
    intro x hx
    obtain ⟨hself, hpage, hfits, hlen, hfar⟩ := hslab x hx
    refine ⟨⟨by rwa [hself], by rwa [hself], by rwa [hself, hlen], Or.inl ⟨hself.symm, hlen⟩⟩, ?_, ?_⟩
    · intro o ho
      rw [hself]
      exact Or.inr (hfar o ho)
    · intro o ho
      have := hfar o ho
      simp only [sizeofSlab_val] at this
      omega
  constructor
  · intro o ho
    by_cases h2 : o = 2
    · subst h2
      exact ⟨⟨by decide, by decide, by decide, by decide, by decide, by decide,
        (by decide : nextOf twoSlabs 4096 = 0)⟩, by decide⟩
    · have hempty : twoSlabsLists o = [] := if_neg h2
      rw [hempty]
      have hzero : ∀ o < slabsTotOrders, o ≠ 2 → nextOf twoSlabs (partialHead 16384 o) = 0 := by decide
      exact ⟨hzero o ho h2, by simp⟩
  · intro o ho x hx
    by_cases h2 : o = 2
    · subst h2
      exact hobject x hx
    · rw [twoSlabsLists, if_neg h2] at hx
      cases hx

theorem twoSlabs_linked {slab : ℕ} (hslab : slab ∈ [8192, 4096]) : PageLinked twoSlabs twoSlabsLists slab := by
  refine ⟨⟨2, by decide, hslab⟩, fun j hj => ?_⟩
  have hlen : lengthOf twoSlabs slab = 64 := by
    simp only [List.mem_cons, List.not_mem_nil, or_false] at hslab
    rcases hslab with rfl | rfl
    · decide
    · decide
  rw [hlen] at hj
  exact absurd hj (by rw [show residualTotal 64 = 0 by decide]; exact Nat.not_lt_zero j)

/-- The second slab of the list can be returned. -/
theorem slabTryReturnPage_iff_second :
    ((∃ m', slabTryReturnPage twoSlabs 16384 4160 = some m' ∧
        Partials m' 16384 (fun o => (twoSlabsLists o).filter (fun x => slabObject x ≠ 4096))) ↔
      ∀ o < slabsTotOrders, ∀ x ∈ (twoSlabsLists o).head?, slabObject x ≠ 4096) :=
  (slabTryReturnPage_iff (by decide)).2 (by decide) twoSlabs_partials (twoSlabs_linked (by simp))

/-- The first slab of the list cannot: the call writes through its null `Prev`. -/
theorem slabTryReturnPage_fails :
    Partials twoSlabs 16384 twoSlabsLists ∧ PageLinked twoSlabs twoSlabsLists 8192 ∧
      slabCanFree twoSlabs 8192 = some true ∧ slabTryReturnPage twoSlabs 16384 8192 = none :=
  ⟨twoSlabs_partials, twoSlabs_linked (by simp), by decide, by
    have hrun : (slabTryReturnPage twoSlabs 16384 8192).isNone = true := by decide +kernel
    exact Option.isNone_iff_eq_none.mp hrun⟩

end GenericOs.Slab
