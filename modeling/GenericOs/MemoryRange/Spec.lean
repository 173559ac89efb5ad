import GenericOs.Library.Tiling
import GenericOs.MemoryRange.Code
import GenericOs.SkipList.Forest

/-!
# The invariant of the page allocator

`Index` says how the four lists hold the ranges, and `Inv` adds that the ranges are
exactly the maximal runs of free bytes.
-/

namespace GenericOs.MemoryRange

open SkipList (Heap Node Forest Loose Relinked)
open Interval (Tiling Separated IsRun)

/-! ## Where things are -/

def sizeNode (r : Nat) : NodePtr := .at (r + sizeofMemoryRange)

def addrNode (r : Nat) : NodePtr := .at (r + sizeofMemoryRange + sizeofSkipList)

/-- A range and its two nodes, at the start of its first page. -/
def headerSize : Nat := sizeofMemoryRange + 2 * sizeofSkipList

def sentinels : Set NodePtr := {p | ∀ a, p ≠ .at a}

def sizeSentinels : Set NodePtr := {p | p ∈ sentinels ∧ p ≠ .addr}

/-- The size list that `MemoryRangeToSentinel` picks. -/
def sizeClass (begin pages : Nat) : NodePtr :=
  if modHugepageSize begin ≠ 0 then .unaligned2M
  else if pages ≥ pagesPerHugepage then .aligned2MBig
  else .aligned2M

def rangeClass (m : Memory) (r : Nat) : NodePtr := sizeClass (m.range r).begin (m.range r).pages

/-- The bytes of the pages that belong to the allocator. -/
def freeBytes (m : Memory) : Set ℕ := {j | m.owned (j / pageSize)}

/-- The length of a range in bytes. -/
def len (m : Memory) (r : Nat) : Nat := (m.range r).pages * pageSize

structure Header (m : Memory) (r : Nat) : Prop where
  aligned : r % pageSize = 0
  pos : 0 < r
  lt : r < 2 ^ 64
  owned : m.owned (r / pageSize)
  sizeField : (m.range r).sizeNode = some (sizeNode r)
  addrField : (m.range r).addrNode = some (addrNode r)
  sizePayload : m.heap.payload (sizeNode r) = r
  addrPayload : m.heap.payload (addrNode r) = r

/-- The ranges `A` are linked by address, and those of `Z` by size too. -/
structure Index (m : Memory) (lists : NodePtr → List NodePtr) (A Z : Set ℕ) : Prop where
  forest : Forest m.heap sentinels lists
  addr_mem : ∀ n, n ∈ lists .addr ↔ ∃ r ∈ A, n = addrNode r
  size_mem : ∀ s ∈ sizeSentinels, ∀ n, n ∈ lists s ↔ ∃ r ∈ Z, n = sizeNode r ∧ rangeClass m r = s
  header : ∀ r ∈ A, Header m r
  begin : ∀ r ∈ A, (m.range r).begin = r
  addrWeight : ∀ r ∈ A, m.heap.weight (addrNode r) = r
  sizeWeight : ∀ r ∈ Z, m.heap.weight (sizeNode r) = (m.range r).pages
  sub : Z ⊆ A
  null : m.heap.payload .addr = 0

/-- The ranges are the maximal runs of free bytes. -/
structure Layout (m : Memory) (A : Set ℕ) : Prop where
  tiling : Tiling A (len m) (freeBytes m)
  separated : Separated A (len m)
  bound : freeBytes m ⊆ Set.Iio (2 ^ 64)

def Inv (m : Memory) : Prop := ∃ lists A, Index m lists A A ∧ Layout m A

/-! ## Small facts -/

variable {m m' : Memory} {lists : NodePtr → List NodePtr} {A Z : Set ℕ} {r a b : ℕ} {s n : NodePtr}

theorem word_eq {x : Nat} (hx : x < 2 ^ 64) : word x = x := Nat.mod_eq_of_lt hx

theorem wordSub_eq {x y : Nat} (hyx : y ≤ x) (hx : x < 2 ^ 64) : wordSub x y = x - y := by
  unfold wordSub word
  omega

theorem len_update {x : Range} (h : m'.range = Function.update m.range r x) : len m' r = x.pages * pageSize := by
  unfold len
  rw [h, Function.update_self]

theorem len_update_of_ne {x : Range} (h : m'.range = Function.update m.range r x) (ha : a ≠ r) :
    len m' a = len m a := by
  unfold len
  rw [h, Function.update_of_ne ha]

@[simp] theorem sizeofMemoryRange_val : sizeofMemoryRange = 32 := rfl
@[simp] theorem sizeofSkipList_val : sizeofSkipList = 128 := rfl

@[simp] theorem sizeNode_inj : sizeNode a = sizeNode b ↔ a = b := by simp [sizeNode]
@[simp] theorem addrNode_inj : addrNode a = addrNode b ↔ a = b := by simp [addrNode]

/-- Page starts are 4096 apart, so no node of one kind is a node of the other. -/
theorem sizeNode_ne_addrNode (ha : a % pageSize = 0) (hb : b % pageSize = 0) : sizeNode a ≠ addrNode b := by
  simp only [sizeNode, addrNode, ne_eq, NodePtr.at.injEq, sizeofMemoryRange_val, sizeofSkipList_val,
    pageSize_val] at *
  omega

theorem addr_sentinel : NodePtr.addr ∈ sentinels := by intro a; simp

theorem sizeNode_not_sentinel : sizeNode r ∉ sentinels := fun h => h _ rfl
theorem addrNode_not_sentinel : addrNode r ∉ sentinels := fun h => h _ rfl

theorem sizeClass_sentinel (begin pages : Nat) : sizeClass begin pages ∈ sizeSentinels := by
  unfold sizeClass
  split_ifs <;> exact ⟨by intro a; simp, by simp⟩

theorem rangeClass_sentinel (m : Memory) (r : Nat) : rangeClass m r ∈ sizeSentinels :=
  sizeClass_sentinel _ _

theorem modHugepageSize_aligned (hr : r % pageSize = 0) : modHugepageSize r = 0 := by
  simp only [modHugepageSize, pageSize_val, pagesPerHugepage_val] at *
  omega

/-- With the macro as it stands every page start counts as aligned. -/
theorem sizeClass_aligned (hr : r % pageSize = 0) (pages : Nat) :
    sizeClass r pages = if pages ≥ pagesPerHugepage then .aligned2MBig else .aligned2M := by
  simp [sizeClass, modHugepageSize_aligned hr]

theorem owns_header (hr : r % pageSize = 0) (ho : m.owned (r / pageSize)) (offset size : Nat)
    (hsize : 0 < size) (hfit : offset + size ≤ pageSize) : m.ownsObject (r + offset) size := by
  have h1 : (r + offset) / pageSize = r / pageSize := by
    simp only [pageSize_val] at *
    omega
  have h2 : (r + offset + size - 1) / pageSize = r / pageSize := by
    simp only [pageSize_val] at *
    omega
  rw [Memory.ownsObject, h1, h2, ho, Bool.and_self]

theorem live_sizeNode (hr : r % pageSize = 0) (ho : m.owned (r / pageSize)) : m.heap.live (sizeNode r) :=
  owns_header hr ho sizeofMemoryRange sizeofSkipList (by decide) (by decide)

theorem live_addrNode (hr : r % pageSize = 0) (ho : m.owned (r / pageSize)) : m.heap.live (addrNode r) :=
  owns_header hr ho (sizeofMemoryRange + sizeofSkipList) sizeofSkipList (by decide) (by decide)

theorem owns_range (hr : r % pageSize = 0) (ho : m.owned (r / pageSize)) :
    m.ownsObject r sizeofMemoryRange :=
  owns_header hr ho 0 sizeofMemoryRange (by decide) (by decide)

theorem Header.load (h : Header m r) : m.loadRange r = some (m.range r) := by
  rw [Memory.loadRange, if_pos (owns_range h.aligned h.owned)]

theorem Header.store (h : Header m r) (x : Range) :
    m.storeRange r x = some { m with range := Function.update m.range r x } := by
  rw [Memory.storeRange, if_pos (owns_range h.aligned h.owned)]

theorem heap_withHeap {h : Heap NodePtr} (hl : h.live = m.heap.live) : (m.withHeap h).heap = h := by
  obtain ⟨node, live⟩ := h
  simp only [Memory.heap] at hl
  subst hl
  rfl

theorem randomHeightLoop_pos (p : ℚ) (left level : Nat) (random : Nat → ℚ) (hl : 0 < level) :
    0 < (randomHeightLoop p left level random).1 := by
  induction left generalizing level random with
  | zero => exact hl
  | succ left ih =>
    unfold randomHeightLoop
    split_ifs
    · exact ih _ _ (by omega)
    · exact hl

/-- Drawing a height moves the generator on and changes nothing else. -/
theorem randomMemoryRangeHeight_spec (m : Memory) (p : ℚ) (maxLevel : Nat) :
    ∃ height random, randomMemoryRangeHeight m p maxLevel = (height, { m with random := random }) ∧
      0 < height :=
  ⟨_, _, rfl, randomHeightLoop_pos p _ 1 _ (by omega)⟩

/-! ## Lists and ranges -/

theorem tiling_end {F : Set ℕ} (hT : Tiling A (len m) F) (hF : F ⊆ Set.Iio (2 ^ 64)) (hr : r ∈ A) :
    r + len m r ≤ 2 ^ 64 := by
  have hpos := hT.pos r hr
  have := hF ((hT.cover (r + len m r - 1)).mpr ⟨r, hr, by omega, by omega⟩)
  rw [Set.mem_Iio] at this
  omega

theorem Index.size_iff (hI : Index m lists A Z) (hs : s ∈ sizeSentinels) :
    sizeNode r ∈ lists s ↔ r ∈ Z ∧ rangeClass m r = s := by
  rw [hI.size_mem s hs]
  constructor
  · rintro ⟨x, hx, he, hc⟩
    obtain rfl := sizeNode_inj.mp he
    exact ⟨hx, hc⟩
  · rintro ⟨hr, hc⟩
    exact ⟨r, hr, rfl, hc⟩

theorem Index.addr_iff (hI : Index m lists A Z) : addrNode r ∈ lists .addr ↔ r ∈ A := by
  rw [hI.addr_mem]
  simp

theorem Index.loose_size (hI : Index m lists A Z) (hr : r % pageSize = 0) (hz : r ∉ Z) :
    Loose sentinels lists (sizeNode r) := by
  refine ⟨sizeNode_not_sentinel, fun s hs hm => ?_⟩
  by_cases ha : s = .addr
  · subst ha
    obtain ⟨x, hx, he⟩ := (hI.addr_mem _).mp hm
    exact sizeNode_ne_addrNode hr (hI.header x hx).aligned he
  · exact hz ((hI.size_iff ⟨hs, ha⟩).mp hm).1

theorem Index.loose_addr (hI : Index m lists A Z) (hr : r % pageSize = 0) (ha : r ∉ A) :
    Loose sentinels lists (addrNode r) := by
  refine ⟨addrNode_not_sentinel, fun s hs hm => ?_⟩
  by_cases hs' : s = .addr
  · subst hs'
    exact ha (hI.addr_iff.mp hm)
  · obtain ⟨x, hx, he, -⟩ := (hI.size_mem s ⟨hs, hs'⟩ _).mp hm
    exact sizeNode_ne_addrNode (hI.header x (hI.sub hx)).aligned hr he.symm

theorem Index.node_cases (hI : Index m lists A Z) (hn : ¬ Loose sentinels lists n) (hs : n ∉ sentinels) :
    ∃ r ∈ A, n = sizeNode r ∨ n = addrNode r := by
  simp only [Loose, not_and, not_forall, not_not] at hn
  obtain ⟨s, hsent, hm⟩ := hn hs
  by_cases ha : s = .addr
  · subst ha
    obtain ⟨r, hr, he⟩ := (hI.addr_mem n).mp hm
    exact ⟨r, hr, Or.inr he⟩
  · obtain ⟨r, hr, he, -⟩ := (hI.size_mem s ⟨hsent, ha⟩ n).mp hm
    exact ⟨r, hI.sub hr, Or.inl he⟩

/-- Where a node is stored; 0 for the list heads, which lie in `info`. -/
def NodePtr.address : NodePtr → ℕ
  | .at a => a
  | _ => 0

/-- Every node in a list has an address of its own, so there are fewer nodes than rounds. -/
theorem Index.length_lt (hI : Index m lists A Z) (hs : s ∈ sentinels) : (lists s).length < rounds := by
  obtain ⟨ht, hT⟩ := hI.forest.threaded s hs
  have hnd := (List.nodup_cons.mp hT.nodup).2
  have hrange : ∀ p ∈ lists s, p = .at p.address ∧ 0 < p.address ∧ p.address < 2 ^ 64 := by
    intro p hp
    obtain ⟨x, hx, he⟩ := hI.node_cases (fun hl => hl.2 s hs hp) (hI.forest.node s hs p hp)
    have h1 := (hI.header x hx).aligned
    have h2 := (hI.header x hx).lt
    rcases he with rfl | rfl <;>
    · simp only [sizeNode, addrNode, NodePtr.address, pageSize_val, sizeofMemoryRange_val, sizeofSkipList_val,
        true_and] at *
      omega
  have hinj : ((lists s).map NodePtr.address).Nodup := by
    apply List.Nodup.map_on _ hnd
    intro p hp q hq he
    rw [(hrange p hp).1, (hrange q hq).1, he]
  have hsub : (0 :: (lists s).map NodePtr.address) ⊆ List.range rounds := by
    intro x hx
    rw [List.mem_range]
    rcases List.mem_cons.mp hx with rfl | hx
    · simp [rounds]
    · obtain ⟨p, hp, rfl⟩ := List.mem_map.mp hx
      exact (hrange p hp).2.2
  have hnd0 : (0 :: (lists s).map NodePtr.address).Nodup := by
    refine List.nodup_cons.mpr ⟨fun h0 => ?_, hinj⟩
    obtain ⟨p, hp, he⟩ := List.mem_map.mp h0
    have := (hrange p hp).2.1
    omega
  have := hnd0.length_le_of_subset hsub
  simp only [List.length_cons, List.length_map, List.length_range] at this
  omega

end GenericOs.MemoryRange
