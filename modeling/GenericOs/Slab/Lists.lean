import GenericOs.Library.Chain
import GenericOs.Slab.Order

/-!
# The partial lists

The objects are slabs, at the start of a page, and the residual blocks of slabs. `Partial`
holds a doubly linked list of them for each order. `SLABSafeListAdd` takes the address of
`Next` for its value and points the new head back at itself, and `SLABListRemove` never
takes an object for the head.
-/

namespace GenericOs.Slab

variable {m m' : Memory} {slub order obj slab head a p x : ℕ} {xs ys : List ℕ}

/-! ## Objects -/

/-- A slab with blocks of `16 * 2 ^ order` bytes, or a residual block of that size. -/
structure OfOrder (m : Memory) (order obj : Nat) : Prop where
  page : IsPage (slabObject obj)
  fits : slabObject obj + pageSize ≤ 2 ^ 64
  length : IsSizeClass (lengthOf m (slabObject obj))
  size : (obj = slabObject obj ∧ lengthOf m obj = slabsMinAlloc * 2 ^ order) ∨
    (obj = slabObject obj + slabsMinAlloc * 2 ^ order ∧ sizeofSlab ≤ slabsMinAlloc * 2 ^ order ∧
      slabsMinAlloc * 2 ^ order < lengthOf m (slabObject obj))

/-- `Partial` overlaps neither the header of the page nor the links of the object. -/
structure Apart (slub obj : Nat) : Prop where
  header : ∀ o < slabsTotOrders, partialHead slub o + 8 ≤ slabObject obj ∨ slabObject obj + sizeofSlab ≤ partialHead slub o
  links : ∀ o < slabsTotOrders, partialHead slub o + 8 ≤ obj ∨ obj + 16 ≤ partialHead slub o

/-- `SLUB` can be read and written. -/
structure IsSlub (slub : Nat) : Prop where
  aligned : slub % 8 = 0
  nonnull : slub ≠ 0

theorem OfOrder.place (h : OfOrder m order obj) : slabObject obj % 4096 = 0 ∧ 0 < slabObject obj ∧
    slabObject obj + 4096 ≤ 2 ^ 64 ∧ (obj = slabObject obj ∨ obj = slabObject obj + 64 ∨
      obj = slabObject obj + 128 ∨ obj = slabObject obj + 256) := by
  have h1 := h.page.aligned
  have h2 := h.page.nonnull
  have h3 := h.fits
  simp only [pageSize_val] at h1 h3
  refine ⟨h1, Nat.pos_of_ne_zero h2, h3, ?_⟩
  rcases h.size with ⟨he, -⟩ | ⟨he, hlow, hhigh⟩
  · exact Or.inl he
  · have hle := h.length.bounds.2
    simp only [slabsMinAlloc_val, sizeofSlab_val] at he hlow hhigh
    have hlt : order < 5 := by
      by_contra hge
      have := Nat.pow_le_pow_right (show 0 < 2 by decide) (Nat.le_of_not_lt hge)
      omega
    rcases order with _ | _ | _ | _ | _ | order
    · omega
    · omega
    · omega
    · omega
    · omega
    · omega

theorem OfOrder.congr (h : OfOrder m order obj)
    (hlen : lengthOf m' (slabObject obj) = lengthOf m (slabObject obj)) : OfOrder m' order obj := by
  refine ⟨h.page, h.fits, by rw [hlen]; exact h.length, ?_⟩
  rcases h.size with ⟨he, hs⟩ | ⟨he, hlow, hhigh⟩
  · refine Or.inl ⟨he, ?_⟩
    rw [← he] at hlen
    rw [hlen, hs]
  · exact Or.inr ⟨he, hlow, by rw [hlen]; exact hhigh⟩

theorem slabSizeToOrder_class {len : ℕ} (h : IsSizeClass len) :
    slabSizeToOrder len < slabsTotOrders ∧ len = slabsMinAlloc * 2 ^ slabSizeToOrder len := by
  obtain ⟨order, ho, rfl⟩ := h
  have hpow : slabsMinAlloc * 2 ^ order = 2 ^ (4 + order) := by
    rw [Nat.pow_add]
    rfl
  have horder : slabSizeToOrder (2 ^ (4 + order)) = order := by
    have hlow : 2 ^ 4 ≤ 2 ^ (4 + order) := Nat.pow_le_pow_right (by decide) (by omega)
    have hhigh : 2 ^ (4 + order) < 2 ^ 64 := by
      rw [slabsTotOrders_val] at ho
      exact Nat.pow_lt_pow_right (by decide) (by omega)
    rw [slabSizeToOrder_of_le (by omega) hhigh, Nat.clog_pow 2 _ (by decide)]
    omega
  rw [hpow, horder]
  exact ⟨ho, hpow.symm⟩

theorem OfOrder.objectOrder (h : OfOrder m order obj) :
    slabObjectOrder m obj = some (slabSizeToOrder (lengthOf m (slabObject obj))) :=
  slabObjectOrder_eq (elementLength_eq h.page)

/-! ## Lists -/

/-- `*SLABNext(a)`, and also `*a` for the head of a list. -/
def nextOf (m : Memory) (a : Nat) : Nat := (m.at a).toNat

/-- `*SLABPrev(a)`. -/
def prevOf (m : Memory) (a : Nat) : Nat := (m.at (a + offsetPrev)).toNat

/-- From the pointer `p` the list is visited, once each, then null, and every `Prev` is the predecessor. -/
def Links (m : Memory) (prev p : Nat) : List Nat → Prop
  | [] => p = 0
  | x :: xs => p = x ∧ x ≠ 0 ∧ prevOf m x = prev ∧ Links m x (nextOf m x) xs

/-- The well-formed list at `head`: the first `Prev` is null. -/
structure ListAt (m : Memory) (head : Nat) (xs : List Nat) : Prop where
  links : Links m 0 (nextOf m head) xs
  nodup : xs.Nodup

@[simp] theorem slabNext_eq (obj : ℕ) : slabNext obj = obj := by simp [slabNext]

@[simp] theorem slabPrev_eq (obj : ℕ) : slabPrev obj = obj + offsetPrev := by simp [slabPrev]

theorem Links.congr {prev p : ℕ} (h : Links m prev p xs) (hx : ∀ x ∈ xs, nextOf m' x = nextOf m x ∧ prevOf m' x = prevOf m x) :
    Links m' prev p xs := by
  induction xs generalizing prev p with
  | nil => exact h
  | cons x xs ih =>
    obtain ⟨h1, h2, h3, h4⟩ := h
    have hxx := hx x (by simp)
    refine ⟨h1, h2, hxx.2.trans h3, ?_⟩
    rw [hxx.1]
    exact ih h4 fun y hy => hx y (List.mem_cons_of_mem _ hy)

theorem ListAt.congr (h : ListAt m head xs) (hhead : nextOf m' head = nextOf m head)
    (hx : ∀ x ∈ xs, nextOf m' x = nextOf m x ∧ prevOf m' x = prevOf m x) : ListAt m' head xs :=
  ⟨by rw [hhead]; exact h.links.congr hx, h.nodup⟩

theorem Memory.loadPtr_eq (ha : a ≠ 0) (h8 : a % 8 = 0) : m.loadPtr a = some (nextOf m a) := by
  rw [loadPtr, load_eq ha h8]
  rfl

theorem Memory.storePtr_eq (ha : a ≠ 0) (h8 : a % 8 = 0) (p : ℕ) :
    m.storePtr a p = some (m.set a (BitVec.ofNat 64 p)) := store_eq ha h8 _

theorem nextOf_lt (m : Memory) (a : ℕ) : nextOf m a < 2 ^ 64 := (m.at a).isLt

theorem prevOf_lt (m : Memory) (a : ℕ) : prevOf m a < 2 ^ 64 := (m.at _).isLt

theorem nextOf_set (hp : p < 2 ^ 64) : nextOf (m.set a (BitVec.ofNat 64 p)) x = if x = a then p else nextOf m x := by
  rw [nextOf, Memory.at_set]
  split_ifs
  · rw [BitVec.toNat_ofNat, Nat.mod_eq_of_lt hp]
  · rfl

/-! ## Adding and removing -/

inductive ListOp where
  | add (obj : Nat)
  | remove (obj : Nat)

def ListOp.exec (slub order : Nat) (m : Memory) : ListOp → Option Memory
  | .add obj => slabSafeListAdd m (partialHead slub order) obj
  | .remove obj => slabListRemove m slub obj

/-- The list that the operation is meant to leave. -/
def ListOp.apply (xs : List Nat) : ListOp → List Nat
  | .add obj => obj :: xs
  | .remove obj => xs.erase obj

/-- Objects of the order that are not in the list are added, and objects in the list are removed. -/
def Admissible (m : Memory) (slub order : Nat) : List Nat → List ListOp → Prop
  | _, [] => True
  | xs, .add obj :: ops =>
    (OfOrder m order obj ∧ Apart slub obj ∧ obj ∉ xs) ∧ Admissible m slub order (obj :: xs) ops
  | xs, .remove obj :: ops => obj ∈ xs ∧ Admissible m slub order (xs.erase obj) ops

def execAll (slub order : Nat) (m : Memory) (ops : List ListOp) : Option Memory := ops.foldlM (ListOp.exec slub order) m

/-- The objects that were ever added, from the last one on. -/
def added (es : List Nat) : ListOp → List Nat
  | .add obj => obj :: es
  | .remove _ => es

/-- Whatever was added last is the head, every object that was ever added has a predecessor among these,
and nothing but their links and the head of the list has changed since `start`. -/
structure Tangled (start : Memory) (slub order : Nat) (es : List Nat) (m : Memory) : Prop where
  object : ∀ x ∈ es, OfOrder start order x ∧ Apart slub x
  head : nextOf m (partialHead slub order) = es.headD 0
  prev : ∀ x ∈ es, prevOf m x ∈ es
  next : ∀ x ∈ es, nextOf m x = 0 ∨ nextOf m x ∈ es
  frame : ∀ a, a ≠ partialHead slub order → (∀ x ∈ es, a ≠ x ∧ a ≠ x + offsetPrev) → m.at a = start.at a

variable {start : Memory} {es : List ℕ} {op : ListOp} {ops : List ListOp}

theorem Tangled.lengthOf (h : Tangled start slub order es m) (ho : order < slabsTotOrders) (hx : x ∈ es) :
    lengthOf m (slabObject x) = lengthOf start (slabObject x) := by
  rw [Slab.lengthOf, h.frame, Slab.lengthOf]
  · have := (h.object x hx).2.header order ho
    simp only [sizeofSlab_val, offsetCounts_val] at *
    omega
  · intro y hy
    have hpx := (h.object x hx).1.place
    have hpy := (h.object y hy).1.place
    simp only [offsetCounts_val, offsetPrev_val]
    omega

theorem partialHead_word (hs : IsSlub slub) (o : ℕ) : partialHead slub o ≠ 0 ∧ partialHead slub o % 8 = 0 := by
  have := hs.aligned
  have := hs.nonnull
  unfold partialHead
  omega

/-- The new head ends up as its own predecessor. -/
theorem slabSafeListAdd_eq (hh : head ≠ 0 ∧ head % 8 = 0) (ho : obj ≠ 0 ∧ obj % 8 = 0) (hne : head ≠ obj + offsetPrev) :
    slabSafeListAdd m head obj = some ((((m.set (obj + offsetPrev) (BitVec.ofNat 64 0)).set head (BitVec.ofNat 64 obj)).set obj
      (BitVec.ofNat 64 (nextOf m head))).set (obj + offsetPrev) (BitVec.ofNat 64 obj)) := by
  have hp : obj + offsetPrev ≠ 0 ∧ (obj + offsetPrev) % 8 = 0 := by
    simp only [offsetPrev_val]
    omega
  have hold : nextOf (m.set (obj + offsetPrev) (BitVec.ofNat 64 0)) head = nextOf m head := by
    rw [nextOf, Memory.at_set_ne _ hne, nextOf]
  simp only [slabSafeListAdd, slabNext_eq, slabPrev_eq, Memory.storePtr_eq hp.1 hp.2, Memory.loadPtr_eq hh.1 hh.2,
    Memory.storePtr_eq hh.1 hh.2, Memory.storePtr_eq ho.1 ho.2, Option.bind_eq_bind, Option.bind_some, hold,
    if_pos ho.1]

/-- The object is taken for one that is not the head, whatever its place. -/
theorem slabListRemove_eq (hobj : OfOrder m order obj) (ha : Apart slub obj) :
    slabListRemove m slub obj =
      (if nextOf m obj ≠ 0 then m.storePtr (nextOf m obj + offsetPrev) (prevOf m obj) else some m).bind
        fun m' => m'.storePtr (prevOf m obj) (nextOf m obj) := by
  have hpl := hobj.place
  have ho : obj ≠ 0 ∧ obj % 8 = 0 := by omega
  have hp : obj + offsetPrev ≠ 0 ∧ (obj + offsetPrev) % 8 = 0 := by
    simp only [offsetPrev_val]
    omega
  have hne : obj ≠ partialHead slub (slabSizeToOrder (lengthOf m (slabObject obj))) := by
    have := ha.links _ (slabSizeToOrder_class hobj.length).1
    omega
  simp only [slabListRemove, hobj.objectOrder, slabNext_eq, slabPrev_eq, Memory.loadPtr_eq ho.1 ho.2,
    Memory.loadPtr_eq hp.1 hp.2, Option.bind_eq_bind, Option.bind_some, if_neg hne]
  split_ifs <;> rfl

/-- `if( next ) *SLABPrev( next ) = prev;` -/
theorem storeBack_spec {prev : ℕ} (m : Memory) (next : ℕ) (hnext : next ≠ 0 → next % 8 = 0) (hp : prev < 2 ^ 64) :
    ∃ m₁, (if next ≠ 0 then m.storePtr (next + offsetPrev) prev else some m) = some m₁ ∧
      (∀ a, nextOf m₁ a = if next ≠ 0 ∧ a = next + offsetPrev then prev else nextOf m a) ∧
      ∀ a, ¬ (next ≠ 0 ∧ a = next + offsetPrev) → m₁.at a = m.at a := by
  by_cases hn : next = 0
  · exact ⟨m, by simp [hn], fun a => by simp [hn], fun _ _ => rfl⟩
  · have h8 := hnext hn
    refine ⟨m.set (next + offsetPrev) (BitVec.ofNat 64 prev), ?_, fun a => ?_, fun a ha => ?_⟩
    · rw [if_pos hn, Memory.storePtr_eq (by simp) (by simp only [offsetPrev_val]; omega)]
    · rw [nextOf_set hp]
      by_cases he : a = next + offsetPrev
      · rw [if_pos he, if_pos ⟨hn, he⟩]
      · rw [if_neg he, if_neg fun h => he h.2]
    · exact Memory.at_set_ne _ fun he => ha ⟨hn, he⟩

theorem Tangled.add (h : Tangled start slub order es m) (hs : IsSlub slub) (ho : order < slabsTotOrders)
    (hobj : OfOrder start order obj) (ha : Apart slub obj) :
    ∃ m', slabSafeListAdd m (partialHead slub order) obj = some m' ∧ Tangled start slub order (obj :: es) m' := by
  have hpl := hobj.place
  have hlinks := ha.links order ho
  have hobject : ∀ x ∈ obj :: es, OfOrder start order x ∧ Apart slub x := by
    intro x hx
    rcases List.mem_cons.mp hx with rfl | hx
    · exact ⟨hobj, ha⟩
    · exact h.object x hx
  have hrun := slabSafeListAdd_eq (m := m) (partialHead_word hs order)
    (show obj ≠ 0 ∧ obj % 8 = 0 by omega)
    (by simp only [offsetPrev_val]; omega)
  set head := partialHead slub order
  set m' := (((m.set (obj + offsetPrev) (BitVec.ofNat 64 0)).set head (BitVec.ofNat 64 obj)).set obj
    (BitVec.ofNat 64 (nextOf m head))).set (obj + offsetPrev) (BitVec.ofNat 64 obj) with hm'
  have hlt : obj < 2 ^ 64 := by omega
  have h8 := offsetPrev_val
  have hptr : ∀ a, nextOf m' a = if a = obj + offsetPrev then obj else if a = obj then nextOf m head
      else if a = head then obj else nextOf m a := by
    intro a
    simp only [hm', nextOf_set hlt, nextOf_set (nextOf_lt m head), nextOf_set (show 0 < 2 ^ 64 by decide)]
    split_ifs <;> rfl
  refine ⟨m', hrun, hobject, ?head, ?prev, ?next, ?frame⟩
  case head => exact (hptr head).trans (by rw [if_neg (by omega), if_neg (by omega), if_pos rfl]; rfl)
  case prev =>
    intro x hx
    have hx' : prevOf m' x = _ := hptr (x + offsetPrev)
    have hpx := (hobject x hx).1.place
    have hlx := (hobject x hx).2.links order ho
    rw [hx']
    by_cases hxo : x = obj
    · rw [if_pos (by rw [hxo])]
      simp
    · rw [if_neg (by omega), if_neg (by omega), if_neg (by omega)]
      exact List.mem_cons_of_mem _ (h.prev x (List.mem_of_ne_of_mem hxo hx))
  case next =>
    intro x hx
    have hpx := (hobject x hx).1.place
    have hlx := (hobject x hx).2.links order ho
    rw [hptr]
    by_cases hxo : x = obj
    · rw [if_neg (by omega), if_pos hxo, h.head]
      cases es with
      | nil => exact Or.inl rfl
      | cons y ys => exact Or.inr (by simp)
    · rw [if_neg (by omega), if_neg hxo, if_neg (by omega)]
      exact (h.next x (List.mem_of_ne_of_mem hxo hx)).imp_right (List.mem_cons_of_mem _)
  case frame =>
    intro a hne hall
    obtain ⟨h1, h2⟩ := hall obj (by simp)
    simp only [hm']
    rw [Memory.at_set_ne _ h2, Memory.at_set_ne _ h1, Memory.at_set_ne _ hne, Memory.at_set_ne _ h2]
    exact h.frame a hne fun x hx => hall x (List.mem_cons_of_mem _ hx)

theorem Tangled.remove (h : Tangled start slub order es m) (ho : order < slabsTotOrders) (hobj : obj ∈ es) :
    ∃ m', slabListRemove m slub obj = some m' ∧ Tangled start slub order es m' := by
  obtain ⟨hO, ha⟩ := h.object obj hobj
  have hlen := h.lengthOf ho hobj
  rw [slabListRemove_eq (hO.congr hlen) ha]
  have hplace : ∀ x ∈ es, _ := fun x hx => (h.object x hx).1.place
  have hprev := h.prev obj hobj
  have hpp := hplace _ hprev
  obtain ⟨m₁, hrun₁, hptr₁, hframe₁⟩ := storeBack_spec m (nextOf m obj)
    (fun hn => by have := hplace _ ((h.next obj hobj).resolve_left hn); omega) (prevOf_lt m obj)
  refine ⟨m₁.set (prevOf m obj) (BitVec.ofNat 64 (nextOf m obj)), ?_, h.object, ?head, ?prev, ?next, ?frame⟩
  · rw [hrun₁, Option.bind_some, Memory.storePtr_eq (by omega) (by omega)]
  case head =>
    have hlp := (h.object _ hprev).2.links order ho
    rw [nextOf_set (nextOf_lt m obj), if_neg (by omega), hptr₁, if_neg, h.head]
    rintro ⟨hn, he⟩
    have := (h.object _ ((h.next obj hobj).resolve_left hn)).2.links order ho
    simp only [offsetPrev_val] at he
    omega
  case prev =>
    intro x hx
    have hpx := hplace x hx
    have hx' : prevOf (m₁.set (prevOf m obj) (BitVec.ofNat 64 (nextOf m obj))) x = _ :=
      nextOf_set (nextOf_lt m obj)
    rw [hx', hptr₁, if_neg (by simp only [offsetPrev_val]; omega)]
    split_ifs with hn
    · exact hprev
    · exact h.prev x hx
  case next =>
    intro x hx
    have hpx := hplace x hx
    rw [nextOf_set (nextOf_lt m obj), hptr₁]
    split_ifs with hp hn
    · exact h.next obj hobj
    · exact Or.inr hprev
    · exact h.next x hx
  case frame =>
    intro a hne hall
    rw [Memory.at_set_ne _ (hall _ hprev).1, hframe₁ a, h.frame a hne hall]
    rintro ⟨hn, he⟩
    exact (hall _ ((h.next obj hobj).resolve_left hn)).2 he

theorem tangled_run (hs : IsSlub slub) (ho : order < slabsTotOrders) (h : Tangled start slub order es m)
    (hsub : xs ⊆ es) (hadm : Admissible start slub order xs ops) :
    ∃ m', execAll slub order m ops = some m' ∧ Tangled start slub order (ops.foldl added es) m' ∧
      ops.foldl ListOp.apply xs ⊆ ops.foldl added es := by
  induction ops generalizing m xs es with
  | nil => exact ⟨m, rfl, h, hsub⟩
  | cons op ops ih =>
    cases op with
    | add obj =>
      obtain ⟨⟨hobj, ha, -⟩, hadm⟩ := hadm
      obtain ⟨m₁, hrun, h₁⟩ := h.add hs ho hobj ha
      obtain ⟨m₂, hrest, h₂, hsub₂⟩ := ih h₁ (List.cons_subset_cons obj hsub) hadm
      refine ⟨m₂, ?_, h₂, hsub₂⟩
      rw [execAll, List.foldlM_cons, ListOp.exec, hrun]
      exact hrest
    | remove obj =>
      obtain ⟨hmem, hadm⟩ := hadm
      obtain ⟨m₁, hrun, h₁⟩ := h.remove ho (hsub hmem)
      obtain ⟨m₂, hrest, h₂, hsub₂⟩ := ih h₁ (List.Subset.trans (List.erase_subset ..) hsub) hadm
      refine ⟨m₂, ?_, h₂, hsub₂⟩
      rw [execAll, List.foldlM_cons, ListOp.exec, hrun]
      exact hrest

/-- The first operation on an empty list is an addition, so something has been added. -/
theorem added_ne_nil (hadm : Admissible start slub order [] ops) (hne : ops ≠ []) : ops.foldl added [] ≠ [] := by
  have hgrow : ∀ (ops : List ListOp) (es : List ℕ), es ≠ [] → ops.foldl added es ≠ [] := by
    intro ops
    induction ops with
    | nil => exact fun es h => h
    | cons op ops ih =>
      intro es h
      cases op with
      | add obj => exact ih _ (by simp [added])
      | remove obj => exact ih _ h
  cases ops with
  | nil => exact absurd rfl hne
  | cons op ops =>
    cases op with
    | add obj => exact hgrow ops _ (by simp [added])
    | remove obj => simp [Admissible] at hadm

/-- No list is well formed at this head once something has been added. -/
theorem Tangled.not_listAt (h : Tangled start slub order es m) (hne : es ≠ []) (hsub : xs ⊆ es) :
    ¬ ListAt m (partialHead slub order) xs := by
  rintro ⟨hlinks, -⟩
  have hpos : ∀ x ∈ es, x ≠ 0 := fun x hx => by
    have := (h.object x hx).1.place
    omega
  cases xs with
  | nil =>
    rw [Links, h.head] at hlinks
    obtain ⟨y, ys, rfl⟩ := List.exists_cons_of_ne_nil hne
    exact hpos y (by simp) hlinks
  | cons x xs => exact hpos _ (h.prev x (hsub (by simp))) hlinks.2.2.1

theorem OfOrder.unique {order' : ℕ} (h : OfOrder m order obj) (h' : OfOrder m order' obj) : order = order' := by
  have hpow : slabsMinAlloc * 2 ^ order = slabsMinAlloc * 2 ^ order' → order = order' := fun he =>
    Nat.pow_right_injective le_rfl (Nat.eq_of_mul_eq_mul_left (by decide) he)
  have hpos := Nat.two_pow_pos order
  have hpos' := Nat.two_pow_pos order'
  simp only [slabsMinAlloc_val] at hpow
  rcases h.size with ⟨he, hs⟩ | ⟨he, -, -⟩ <;> rcases h'.size with ⟨he', hs'⟩ | ⟨he', -, -⟩ <;>
    simp only [slabsMinAlloc_val] at * <;> omega

/-- The lists of the other orders are as before. -/
def OthersKept (start m : Memory) (slub order : Nat) : Prop :=
  ∀ o < slabsTotOrders, o ≠ order → ∀ ys, (∀ y ∈ ys, OfOrder start o y ∧ Apart slub y) →
    ListAt start (partialHead slub o) ys → ListAt m (partialHead slub o) ys

theorem Tangled.others (h : Tangled start slub order es m) (ho : order < slabsTotOrders) :
    OthersKept start m slub order := by
  intro o ho' hne ys hys hlist
  have h8 := offsetPrev_val
  refine hlist.congr ?_ fun y hy => ?_
  · rw [nextOf, h.frame, nextOf]
    · unfold partialHead
      omega
    · intro x hx
      have := (h.object x hx).2.links o ho'
      omega
  · have hpy := (hys y hy).1.place
    have hly := (hys y hy).2.links order ho
    have hfar : ∀ x ∈ es, x ≠ y := by
      rintro x hx rfl
      exact hne ((hys x hy).1.unique (h.object x hx).1)
    constructor
    · rw [nextOf, h.frame, nextOf]
      · omega
      · intro x hx
        have hpx := (h.object x hx).1.place
        have := hfar x hx
        omega
    · rw [prevOf, h.frame, prevOf]
      · omega
      · intro x hx
        have hpx := (h.object x hx).1.place
        have := hfar x hx
        omega

/-- Starting from an empty list, the list is well formed after the operations only when there are none.
The lists of the other orders are not touched. -/
theorem partial_list_iff (hs : IsSlub slub) (ho : order < slabsTotOrders)
    (hempty : ListAt start (partialHead slub order) []) (hadm : Admissible start slub order [] ops) :
    (∃ m, execAll slub order start ops = some m ∧ OthersKept start m slub order) ∧
      ((∃ m, execAll slub order start ops = some m ∧
        ListAt m (partialHead slub order) (ops.foldl ListOp.apply []) ∧ OthersKept start m slub order) ↔
      ops = []) := by
  have hinit : Tangled start slub order [] start :=
    ⟨by simp, hempty.links, by simp, by simp, fun _ _ _ => rfl⟩
  obtain ⟨m, hrun, hT, hsub⟩ := tangled_run hs ho hinit (List.Subset.refl []) hadm
  have hothers := hT.others ho
  refine ⟨⟨m, hrun, hothers⟩, ?_, ?_⟩
  · rintro ⟨m', hrun', hlist, -⟩
    obtain rfl : m' = m := Option.some.inj (hrun'.symm.trans hrun)
    by_contra hne
    exact hT.not_listAt (added_ne_nil hadm hne) hsub hlist
  · rintro rfl
    obtain rfl : start = m := Option.some.inj hrun
    exact ⟨start, hrun, hempty, hothers⟩

/-- A slab of 64-byte blocks at 4096, and a `SLUB` at 16384 with empty lists. -/
def oneSlab : Memory := uniformSlab 4096 64 false

theorem oneSlab_object : OfOrder oneSlab 2 4096 ∧ Apart 16384 4096 := by
  have hlen : lengthOf oneSlab 4096 = 64 := lengthOf_uniformSlab ⟨2, by decide, by decide⟩ false
  have hobj : slabObject 4096 = 4096 := by decide
  refine ⟨⟨by rw [hobj]; exact isPage_4096, by decide, ?_, Or.inl ⟨hobj.symm, hlen⟩⟩, by decide, by decide⟩
  rw [hobj, hlen]
  exact ⟨2, by decide, by decide⟩

theorem oneSlab_empty : ListAt oneSlab (partialHead 16384 2) [] :=
  ⟨(by decide : nextOf oneSlab (partialHead 16384 2) = 0), by simp⟩

theorem oneSlab_admissible : Admissible oneSlab 16384 2 [] [.add 4096] :=
  ⟨⟨oneSlab_object.1, oneSlab_object.2, by simp⟩, trivial⟩

/-- After one addition the only object is its own predecessor. -/
theorem partial_list_fails :
    IsSlub 16384 ∧ ListAt oneSlab (partialHead 16384 2) [] ∧ Admissible oneSlab 16384 2 [] [.add 4096] ∧
      ∃ m, execAll 16384 2 oneSlab [.add 4096] = some m ∧ prevOf m 4096 = 4096 ∧
        ¬ ListAt m (partialHead 16384 2) [4096] := by
  refine ⟨⟨by decide, by decide⟩, oneSlab_empty, oneSlab_admissible, ?_⟩
  have hrun : (execAll 16384 2 oneSlab [.add 4096]).map (fun m => prevOf m 4096) = some 4096 := by decide +kernel
  obtain ⟨m, hrun, hprev⟩ := Option.map_eq_some_iff.mp hrun
  refine ⟨m, hrun, hprev, ?_⟩
  rintro ⟨⟨-, -, hnull, -⟩, -⟩
  rw [hprev] at hnull
  exact absurd hnull (by decide)

theorem partial_list_iff_add :
    ∃ m, execAll 16384 2 oneSlab [.add 4096] = some m ∧ OthersKept oneSlab m 16384 2 :=
  (partial_list_iff ⟨by decide, by decide⟩ (by decide) oneSlab_empty oneSlab_admissible).1

end GenericOs.Slab
