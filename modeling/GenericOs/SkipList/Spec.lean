import Mathlib.Data.Set.Basic
import GenericOs.Library.Chain
import GenericOs.SkipList.Code

/-!
# What a well-formed skip list is

The fields of a heap as functions, the writes as total functions, and the invariant:
every level is a doubly linked chain through the nodes that are high enough.
-/

namespace GenericOs.SkipList

variable {α : Type} {h h' h'' : Heap α} {a b n q s : α} {i j k w : Nat}

/-! ## The fields of the nodes -/

namespace Heap

def next (h : Heap α) (i : Nat) (a : α) : Option α := (h.node a).next i

def prev (h : Heap α) (i : Nat) (a : α) : Option α := (h.node a).prev i

def weight (h : Heap α) (a : α) : Nat := (h.node a).weight

def payload (h : Heap α) (a : α) : Nat := (h.node a).payload

theorem load_eq (hl : h.live a) : h.load a = some (h.node a) := by simp [load, hl]

variable [DecidableEq α]

def withWeight (h : Heap α) (a : α) (w : Nat) : Heap α := h.set a { h.node a with weight := w }

def withNext (h : Heap α) (a : α) (i : Nat) (p : Option α) : Heap α :=
  h.set a { h.node a with next := Function.update (h.node a).next i p }

def withPrev (h : Heap α) (a : α) (i : Nat) (p : Option α) : Heap α :=
  h.set a { h.node a with prev := Function.update (h.node a).prev i p }

theorem store_eq (hl : h.live a) (nd : Node α) : h.store a nd = some (h.set a nd) := by
  simp [store, hl]

theorem setWeight_eq (hl : h.live a) : h.setWeight a w = some (h.withWeight a w) := by
  simp [setWeight, load_eq hl, store_eq hl, withWeight]

theorem setNext_eq (hl : h.live a) (p : Option α) : h.setNext a i p = some (h.withNext a i p) := by
  simp [setNext, load_eq hl, store_eq hl, withNext]

theorem setPrev_eq (hl : h.live a) (p : Option α) : h.setPrev a i p = some (h.withPrev a i p) := by
  simp [setPrev, load_eq hl, store_eq hl, withPrev]

@[simp] theorem live_set (nd : Node α) : (h.set a nd).live = h.live := rfl
@[simp] theorem live_withWeight : (h.withWeight a w).live = h.live := rfl
@[simp] theorem live_withNext (p : Option α) : (h.withNext a i p).live = h.live := rfl
@[simp] theorem live_withPrev (p : Option α) : (h.withPrev a i p).live = h.live := rfl

theorem node_set (nd : Node α) : (h.set a nd).node b = if b = a then nd else h.node b := by
  simp [set, Function.update_apply]

theorem setPayload_eq (hl : h.live a) (p : Nat) :
    h.setPayload a p = some (h.set a { h.node a with payload := p }) := by
  simp [setPayload, load_eq hl, store_eq hl]

@[simp] theorem next_withWeight : (h.withWeight a w).next j b = h.next j b := by
  simp only [next, withWeight, node_set]; split_ifs with hb <;> simp [hb]

@[simp] theorem prev_withWeight : (h.withWeight a w).prev j b = h.prev j b := by
  simp only [prev, withWeight, node_set]; split_ifs with hb <;> simp [hb]

@[simp] theorem payload_withWeight : (h.withWeight a w).payload b = h.payload b := by
  simp only [payload, withWeight, node_set]; split_ifs with hb <;> simp [hb]

theorem weight_withWeight : (h.withWeight a w).weight b = if b = a then w else h.weight b := by
  simp only [weight, withWeight, node_set]; split_ifs <;> rfl

theorem next_withNext (p : Option α) :
    (h.withNext a i p).next j b = if b = a ∧ j = i then p else h.next j b := by
  simp only [next, withNext, node_set]
  by_cases hb : b = a <;> by_cases hj : j = i <;> simp [hb, hj]

@[simp] theorem prev_withNext (p : Option α) : (h.withNext a i p).prev j b = h.prev j b := by
  simp only [prev, withNext, node_set]; split_ifs with hb <;> simp [hb]

@[simp] theorem next_withPrev (p : Option α) : (h.withPrev a i p).next j b = h.next j b := by
  simp only [next, withPrev, node_set]; split_ifs with hb <;> simp [hb]

theorem prev_withPrev (p : Option α) :
    (h.withPrev a i p).prev j b = if b = a ∧ j = i then p else h.prev j b := by
  simp only [prev, withPrev, node_set]
  by_cases hb : b = a <;> by_cases hj : j = i <;> simp [hb, hj]

end Heap

/-! ## Changes of links only -/

/-- From `h` to `h'` only link fields change, and only in the nodes of `F`. -/
structure Relinked (F : Set α) (h h' : Heap α) : Prop where
  live : h'.live = h.live
  weight : ∀ a, h'.weight a = h.weight a
  payload : ∀ a, h'.payload a = h.payload a
  other : ∀ a ∉ F, h'.node a = h.node a

theorem Relinked.refl (F : Set α) (h : Heap α) : Relinked F h h :=
  ⟨rfl, fun _ => rfl, fun _ => rfl, fun _ _ => rfl⟩

theorem Relinked.trans {F : Set α} (h1 : Relinked F h h') (h2 : Relinked F h' h'') :
    Relinked F h h'' :=
  ⟨h2.live.trans h1.live, fun a => (h2.weight a).trans (h1.weight a),
    fun a => (h2.payload a).trans (h1.payload a), fun a ha => (h2.other a ha).trans (h1.other a ha)⟩

theorem Relinked.mono {F G : Set α} (h1 : Relinked F h h') (hFG : F ⊆ G) : Relinked G h h' :=
  ⟨h1.live, h1.weight, h1.payload, fun a ha => h1.other a fun hF => ha (hFG hF)⟩

theorem relinked_withNext [DecidableEq α] {F : Set α} (p : Option α) (ha : a ∈ F) :
    Relinked F h (h.withNext a i p) := by
  refine ⟨rfl, fun b => ?_, fun b => ?_, fun b hb => ?_⟩
  · simp only [Heap.weight, Heap.withNext, Heap.node_set]; split_ifs with hb <;> simp [hb]
  · simp only [Heap.payload, Heap.withNext, Heap.node_set]; split_ifs with hb <;> simp [hb]
  · rw [Heap.withNext, Heap.node_set, if_neg (by rintro rfl; exact hb ha)]

theorem relinked_withPrev [DecidableEq α] {F : Set α} (p : Option α) (ha : a ∈ F) :
    Relinked F h (h.withPrev a i p) := by
  refine ⟨rfl, fun b => ?_, fun b => ?_, fun b hb => ?_⟩
  · simp only [Heap.weight, Heap.withPrev, Heap.node_set]; split_ifs with hb <;> simp [hb]
  · simp only [Heap.payload, Heap.withPrev, Heap.node_set]; split_ifs with hb <;> simp [hb]
  · rw [Heap.withPrev, Heap.node_set, if_neg (by rintro rfl; exact hb ha)]

/-! ## Levels -/

/-- The nodes that reach above level `i`. -/
def level (ht : α → Nat) (i : Nat) (xs : List α) : List α := xs.filter (fun a => i < ht a)

theorem level_append (ht : α → Nat) (i : Nat) (xs ys : List α) :
    level ht i (xs ++ ys) = level ht i xs ++ level ht i ys := List.filter_append ..

theorem level_cons (ht : α → Nat) (i : Nat) (x : α) (xs : List α) :
    level ht i (x :: xs) = if i < ht x then x :: level ht i xs else level ht i xs := by
  simp [level, List.filter_cons]

theorem mem_level {ht : α → Nat} {xs : List α} : a ∈ level ht i xs ↔ a ∈ xs ∧ i < ht a := by
  simp [level]

theorem level_subset {ht : α → Nat} {xs : List α} : level ht i xs ⊆ xs := List.filter_subset_self _

theorem level_update [DecidableEq α] {ht : α → Nat} {xs : List α} (hn : n ∉ xs) (height : Nat) :
    level (Function.update ht n height) i xs = level ht i xs := by
  apply List.filter_congr
  intro a ha
  rw [Function.update_of_ne (by rintro rfl; exact hn ha)]

/-- The skip list behind the sentinel `s` holds the nodes `xs`, in this order, with heights `ht`. -/
structure Threaded (h : Heap α) (s : α) (xs : List α) (ht : α → Nat) : Prop where
  nodup : (s :: xs).Nodup
  live : ∀ a ∈ s :: xs, h.live a
  chain : ∀ i < skipListMaxLevels, Pointer.Chain (h.next i) (h.prev i) s (level ht i xs)
  pos : ∀ a ∈ xs, 0 < ht a
  le : ∀ a ∈ xs, ht a ≤ skipListMaxLevels
  top : ∀ a ∈ xs, ht a < skipListMaxLevels → h.prev (ht a) a = none

/-- What the searches need: on every level the `next` pointers visit the nodes that are high enough. -/
structure Searchable (h : Heap α) (s : α) (xs : List α) (ht : α → Nat) : Prop where
  nodup : (s :: xs).Nodup
  live : ∀ a ∈ s :: xs, h.live a
  path : ∀ i < skipListMaxLevels, Pointer.Path (h.next i) s (level ht i xs)
  pos : ∀ a ∈ xs, 0 < ht a
  le : ∀ a ∈ xs, ht a ≤ skipListMaxLevels

/-- The weights do not decrease along the list. -/
def Sorted (h : Heap α) (xs : List α) : Prop := xs.Pairwise (fun a b => h.weight a ≤ h.weight b)

theorem Threaded.empty (hl : h.live s) (hs : ∀ i, h.next i s = none) (ht : α → Nat) :
    Threaded h s [] ht where
  nodup := by simp
  live := by simpa using hl
  chain i _ := hs i
  pos := by simp
  le := by simp
  top := by simp

theorem level_zero {xs : List α} {ht : α → Nat} (hpos : ∀ a ∈ xs, 0 < ht a) : level ht 0 xs = xs := by
  rw [level, List.filter_eq_self]
  simpa using hpos

theorem Threaded.chain_zero {xs : List α} {ht : α → Nat} (ht0 : Threaded h s xs ht) :
    Pointer.Chain (h.next 0) (h.prev 0) s xs := by
  have h0 := ht0.chain 0 (by simp)
  rwa [level_zero ht0.pos] at h0

theorem Threaded.searchable {xs : List α} {ht : α → Nat} (ht0 : Threaded h s xs ht) :
    Searchable h s xs ht :=
  ⟨ht0.nodup, ht0.live, fun i hi => (ht0.chain i hi).path, ht0.pos, ht0.le⟩

theorem Searchable.path_zero {xs : List α} {ht : α → Nat} (hT : Searchable h s xs ht) :
    Pointer.Path (h.next 0) s xs := by
  have h0 := hT.path 0 (by simp)
  rwa [level_zero hT.pos] at h0

theorem Threaded.congr {xs : List α} {ht : α → Nat} (ht0 : Threaded h s xs ht)
    (hlive : ∀ a ∈ s :: xs, h'.live a) (hnext : ∀ a ∈ s :: xs, ∀ i, h'.next i a = h.next i a)
    (hprev : ∀ a ∈ xs, ∀ i, h'.prev i a = h.prev i a) : Threaded h' s xs ht where
  nodup := ht0.nodup
  live := hlive
  chain i hi := by
    refine (ht0.chain i hi).congr (fun a ha => hnext a ?_ i) (fun a ha => hprev a (mem_level.mp ha).1 i)
    rcases List.mem_cons.mp ha with rfl | ha
    · simp
    · exact List.mem_cons_of_mem _ (mem_level.mp ha).1
  pos := ht0.pos
  le := ht0.le
  top a ha hlt := by rw [hprev a ha]; exact ht0.top a ha hlt

theorem Threaded.mem_others {xs ys : List α} {ht : α → Nat} (ht0 : Threaded h s (xs ++ n :: ys) ht) :
    a ∈ xs ++ ys ↔ a ∈ xs ++ n :: ys ∧ a ≠ n := by
  have hnd := (List.nodup_cons.mp ht0.nodup).2
  rw [List.nodup_middle, List.nodup_cons] at hnd
  by_cases han : a = n
  · subst han; simpa using hnd.1
  · simp [han]

theorem Sorted.congr {xs : List α} (hs : Sorted h xs) (hw : ∀ a ∈ xs, h'.weight a = h.weight a) :
    Sorted h' xs := by
  apply hs.imp_of_mem
  intro a b ha hb hab
  rwa [hw a ha, hw b hb]

end GenericOs.SkipList
