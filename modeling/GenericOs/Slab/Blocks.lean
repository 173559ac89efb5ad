import Mathlib.Data.List.Induction
import Mathlib.Order.WellFounded
import GenericOs.Slab.Layout

/-!
# Allocating and freeing size-aligned blocks

Blocks that start at a multiple of their size never cross a word of the bitmap, so
`SLABSet` handles all of them. The bitmap is then the union of the free blocks, and
`SLABFirst` returns the lowest of them.
-/

namespace GenericOs.Slab

open Marks (paint shows)

variable {m m' : Memory} {slab len p q q' i : ℕ} {F : Set ℕ} {v : Bool}

/-! ## The blocks -/

/-- The offsets of the blocks: residual blocks of size 64, 128, … at the offset equal to their size, and
then the multiples of `len`. None is below 64. -/
def alignedBlocks (len : Nat) : Set ℕ :=
  {q | (∃ j, q = sizeofSlab * 2 ^ j ∧ q < len) ∨ (q % len = 0 ∧ len ≤ q ∧ sizeofSlab ≤ q ∧ q < pageSize)}

/-- The slots of the block at the offset `q`, as long as its offset or its class says. -/
def coverAt (len q : Nat) : Set ℕ := {i | q ≤ i * slabsMinAlloc ∧ i * slabsMinAlloc < q + min q len}

theorem mem_alignedBlocks (hlen : IsSizeClass len) : q ∈ alignedBlocks len ↔
    ((q = 64 ∨ q = 128 ∨ q = 256) ∧ q < len) ∨ (q % len = 0 ∧ len ≤ q ∧ 64 ≤ q ∧ q < 4096) := by
  have hres : (∃ j, q = sizeofSlab * 2 ^ j ∧ q < len) ↔ (q = 64 ∨ q = 128 ∨ q = 256) ∧ q < len := by
    constructor
    · rintro ⟨j, rfl, hlt⟩
      refine ⟨?_, hlt⟩
      have hj : j < 3 := by
        by_contra hge
        have hpow := Nat.pow_le_pow_right (show 0 < 2 by decide) (Nat.le_of_not_lt hge)
        have := hlen.bounds
        simp only [sizeofSlab_val] at hlt
        omega
      obtain rfl | rfl | rfl : j = 0 ∨ j = 1 ∨ j = 2 := by omega
      · simp
      · simp
      · simp
    · rintro ⟨rfl | rfl | rfl, hlt⟩
      · exact ⟨0, rfl, hlt⟩
      · exact ⟨1, rfl, hlt⟩
      · exact ⟨2, rfl, hlt⟩
  rw [alignedBlocks, Set.mem_ofPred_eq, hres]
  rfl

/-- A block lies in the page behind the header and is aligned to its size, which divides a word. -/
structure Aligned (len q : Nat) : Prop where
  low : 64 ≤ q
  fits : q + min q len ≤ 4096
  slots : q % 16 = 0 ∧ min q len % 16 = 0 ∧ 0 < min q len
  word : q / 1024 = (q + min q len - 1) / 1024

theorem aligned (hlen : IsSizeClass len) (hq : q ∈ alignedBlocks len) : Aligned len q := by
  rw [mem_alignedBlocks hlen] at hq
  rcases hlen.cases with rfl | rfl | rfl | rfl | rfl | rfl <;> constructor <;> omega

/-- The blocks tile the page behind the header. -/
theorem blocks_tile (hlen : IsSizeClass len) :
    (∃ q ∈ alignedBlocks len, i ∈ coverAt len q) ↔ 4 ≤ i ∧ i < slotCount := by
  constructor
  · rintro ⟨q, hq, hlow, hhigh⟩
    have hA := aligned hlen hq
    have := hA.low
    have := hA.fits
    simp only [slabsMinAlloc_val, slotCount_val] at *
    omega
  · rintro ⟨hlow, hhigh⟩
    have hmem : ∀ q, q ∈ alignedBlocks len ∧ i ∈ coverAt len q ↔
        (((q = 64 ∨ q = 128 ∨ q = 256) ∧ q < len) ∨ (q % len = 0 ∧ len ≤ q ∧ 64 ≤ q ∧ q < 4096)) ∧
          q ≤ i * 16 ∧ i * 16 < q + min q len := fun q => by rw [mem_alignedBlocks hlen]; rfl
    simp only [hmem, slotCount_val] at *
    rcases Nat.lt_or_ge (i * 16) len with hres | hmain
    · rcases Nat.lt_or_ge i 8 with h8 | h8
      · exact ⟨64, by rcases hlen.cases with rfl | rfl | rfl | rfl | rfl | rfl <;> omega⟩
      · rcases Nat.lt_or_ge i 16 with h16 | h16
        · exact ⟨128, by rcases hlen.cases with rfl | rfl | rfl | rfl | rfl | rfl <;> omega⟩
        · exact ⟨256, by rcases hlen.cases with rfl | rfl | rfl | rfl | rfl | rfl <;> omega⟩
    · exact ⟨i * 16 - i * 16 % len, by rcases hlen.cases with rfl | rfl | rfl | rfl | rfl | rfl <;> omega⟩

theorem coverAt_apart (hlen : IsSizeClass len) (hq : q ∈ alignedBlocks len) (hq' : q' ∈ alignedBlocks len)
    (hne : q' ≠ q) : ∀ i ∈ coverAt len q', i ∉ coverAt len q := by
  rintro i ⟨h1, h2⟩ ⟨h3, h4⟩
  rw [mem_alignedBlocks hlen] at hq hq'
  simp only [slabsMinAlloc_val] at *
  rcases hlen.cases with rfl | rfl | rfl | rfl | rfl | rfl <;> omega

theorem region_eq_coverAt (hlen : IsSizeClass len) (hq : q ∈ alignedBlocks len) : region len q = coverAt len q := by
  have hA := aligned hlen hq
  have := hA.slots
  have := hA.word
  ext i
  simp only [region, coverAt, Set.mem_ofPred_eq, slabsMinAlloc_val, bitmapBits_val]
  omega

/-! ## Runs -/

/-- `p = SLABFirst(slab)`, and then `SLABSet(p, false)` if `p` is not null. -/
def allocate (m : Memory) (slab : Nat) : Option (Nat × Memory) := do
  let p ← slabFirst m slab
  if p ≠ 0 then
    let m ← slabSet m p false
    return (p, m)
  else return (p, m)

/-- What the caller sees: the pointer it got, null included, or the pointer it freed. -/
inductive Event where
  | returned (p : Nat)
  | freed (p : Nat)

/-- The offset that a pointer into the page has; null has none. -/
def offsetOf (slab p : Nat) : Set ℕ := {q | slab + q = p}

def Event.apply (slab : Nat) (F : Set ℕ) : Event → Set ℕ
  | .returned p => F \ offsetOf slab p
  | .freed p => offsetOf slab p ∪ F

/-- The free blocks after these events, when all blocks were free before. -/
def freeAfter (slab len : Nat) (events : List Event) : Set ℕ :=
  events.foldl (Event.apply slab) (alignedBlocks len)

@[simp] theorem offsetOf_add : offsetOf slab (slab + q) = {q} := by
  ext q'
  simp [offsetOf]

theorem freeAfter_concat (events : List Event) (e : Event) :
    freeAfter slab len (events ++ [e]) = e.apply slab (freeAfter slab len events) := by
  rw [freeAfter, List.foldl_append]
  rfl

/-- `p` points to a block that is not free. -/
def Allocated (slab len : Nat) (events : List Event) (p : Nat) : Prop :=
  ∃ q ∈ alignedBlocks len, p = slab + q ∧ q ∉ freeAfter slab len events

inductive Run (slab len : Nat) (start : Memory) : List Event → Memory → Prop
  | init : Run slab len start [] start
  | allocate {events m p m'} (h : Run slab len start events m) (hrun : allocate m slab = some (p, m')) :
      Run slab len start (events ++ [.returned p]) m'
  | free {events m p m'} (h : Run slab len start events m) (hp : Allocated slab len events p)
      (hrun : slabSet m p true = some m') : Run slab len start (events ++ [.freed p]) m'

/-- All blocks are free, and the slots of the header are clear. -/
structure Fresh (m : Memory) (slab len : Nat) : Prop where
  length : lengthOf m slab = len
  slots : ∀ i < slotCount, bit m slab i = true ↔ ∃ q ∈ alignedBlocks len, i ∈ coverAt len q

/-! ## The bitmap and the free blocks -/

/-- The bits of the bitmap; there are no others. -/
def slots (m : Memory) (slab i : Nat) : Bool := decide (i < slotCount) && bit m slab i

/-- The bitmap shows exactly the blocks of `F`. -/
structure Shown (m : Memory) (slab len : Nat) (F : Set ℕ) : Prop where
  length : lengthOf m slab = len
  sub : F ⊆ alignedBlocks len
  slots : slots m slab = shows (coverAt len) F

theorem coverAt_lt (hlen : IsSizeClass len) (hq : q ∈ alignedBlocks len) (hi : i ∈ coverAt len q) :
    i < slotCount := ((blocks_tile hlen).mp ⟨q, hq, hi⟩).2

theorem Shown.bit_iff (h : Shown m slab len F) (hi : i < slotCount) :
    bit m slab i = true ↔ ∃ q ∈ F, i ∈ coverAt len q := by
  rw [← Marks.shows_iff, ← h.slots, Slab.slots, decide_eq_true hi, Bool.true_and]

theorem Fresh.shown (h : Fresh m slab len) (hlen : IsSizeClass len) : Shown m slab len (alignedBlocks len) := by
  refine ⟨h.length, subset_rfl, ?_⟩
  funext i
  rw [Bool.eq_iff_iff, Marks.shows_iff]
  by_cases hi : i < slotCount
  · rw [Slab.slots, decide_eq_true hi, Bool.true_and]
    exact h.slots i hi
  · rw [Slab.slots, decide_eq_false hi]
    simp only [Bool.false_and, Bool.false_eq_true, false_iff, not_exists, not_and]
    intro q hq hiq
    exact hi (coverAt_lt hlen hq hiq)

/-- Marking a block, in terms of the slots. -/
theorem Shown.set (h : Shown m slab len F) (hs : IsPage slab) (hlen : IsSizeClass len) (hq : q ∈ alignedBlocks len)
    (v : Bool) :
    ∃ m', slabSet m (slab + q) v = some m' ∧ lengthOf m' slab = len ∧
      Slab.slots m' slab = paint (coverAt len q) v (shows (coverAt len) F) := by
  have hA := aligned hlen hq
  have hpage : q < pageSize := by
    have := hA.slots
    have := hA.fits
    simp only [pageSize_val]
    omega
  have hlt : lengthOf m slab < 1024 := by
    have := hlen.bounds
    rw [h.length]
    omega
  obtain ⟨m', hrun, hbit, hother⟩ := slabSet_spec hs hpage hlt v
  rw [h.length, region_eq_coverAt hlen hq] at hbit
  refine ⟨m', hrun, (lengthOf_congr hother).trans h.length, ?_⟩
  rw [← h.slots]
  funext i
  by_cases hi : i < slotCount
  · rw [Slab.slots, decide_eq_true hi, Bool.true_and, hbit]
    by_cases hiq : i ∈ coverAt len q
    · rw [Marks.paint_mem hiq, Marks.paint_mem hiq]
    · rw [Marks.paint_notMem hiq, Marks.paint_notMem hiq, Slab.slots, decide_eq_true hi, Bool.true_and]
  · have hiq : i ∉ coverAt len q := fun hiq => hi (coverAt_lt hlen hq hiq)
    rw [Marks.paint_notMem hiq, Slab.slots, Slab.slots, decide_eq_false hi, Bool.false_and, Bool.false_and]

theorem Shown.free (h : Shown m slab len F) (hs : IsPage slab) (hlen : IsSizeClass len) (hq : q ∈ alignedBlocks len) :
    ∃ m', slabSet m (slab + q) true = some m' ∧ Shown m' slab len (insert q F) := by
  obtain ⟨m', hrun, hlength, hslots⟩ := h.set hs hlen hq true
  refine ⟨m', hrun, hlength, Set.insert_subset hq h.sub, ?_⟩
  rw [hslots, Marks.paint_true_shows]

theorem Shown.take (h : Shown m slab len F) (hs : IsPage slab) (hlen : IsSizeClass len) (hq : q ∈ F) :
    ∃ m', slabSet m (slab + q) false = some m' ∧ Shown m' slab len (F \ {q}) := by
  have hblock := h.sub hq
  obtain ⟨m', hrun, hlength, hslots⟩ := h.set hs hlen hblock false
  refine ⟨m', hrun, hlength, Set.sdiff_subset.trans h.sub, ?_⟩
  rw [hslots, Marks.paint_false_shows]
  exact fun q' hq' hne => coverAt_apart hlen hblock (h.sub hq') hne

/-- The lowest set bit is the first slot of the lowest free block. -/
theorem Shown.first (h : Shown m slab len F) (hs : IsPage slab) (hlen : IsSizeClass len) :
    (F = ∅ ∧ slabFirst m slab = some 0) ∨ ∃ q, IsLeast F q ∧ slabFirst m slab = some (slab + q) := by
  rcases Set.eq_empty_or_nonempty F with rfl | hne
  · refine Or.inl ⟨rfl, slabFirst_none hs fun i hi => ?_⟩
    rw [← Bool.not_eq_true, h.bit_iff hi]
    simp
  · obtain ⟨q, hq, hmin⟩ := wellFounded_lt.has_min F hne
    have hleast : ∀ q' ∈ F, q ≤ q' := fun q' hq' => Nat.not_lt.mp (hmin q' hq')
    have hA := aligned hlen (h.sub hq)
    have hslots := hA.slots
    have hfits := hA.fits
    have hn : q / 16 < slotCount := by simp only [slotCount_val]; omega
    refine Or.inr ⟨q, ⟨hq, hleast⟩, ?_⟩
    have hfirst := slabFirst_some (m := m) hs hn ?_ ?_
    · rwa [slabsMinAlloc_val, Nat.div_mul_cancel (Nat.dvd_of_mod_eq_zero hslots.1)] at hfirst
    · rw [h.bit_iff hn]
      refine ⟨q, hq, ?_⟩
      simp only [coverAt, Set.mem_ofPred_eq, slabsMinAlloc_val]
      omega
    · -- A lower slot would belong to a lower block.
      intro i hi
      rw [← Bool.not_eq_true, h.bit_iff (hi.trans hn)]
      rintro ⟨q', hq', h1, -⟩
      have := hleast q' hq'
      simp only [slabsMinAlloc_val] at h1
      omega

/-- One allocation: null when nothing is free, else the lowest free block, which is free no longer. -/
theorem Shown.allocate (h : Shown m slab len F) (hs : IsPage slab) (hlen : IsSizeClass len) :
    ∃ p m', allocate m slab = some (p, m') ∧ Shown m' slab len (F \ offsetOf slab p) ∧
      ((p = 0 ∧ F = ∅) ∨ ∃ q, p = slab + q ∧ IsLeast F q) := by
  rcases h.first hs hlen with ⟨rfl, hfirst⟩ | ⟨q, hq, hfirst⟩
  · refine ⟨0, m, ?_, ?_, Or.inl ⟨rfl, rfl⟩⟩
    · simp [Slab.allocate, hfirst]
    · rwa [Set.empty_sdiff]
  · obtain ⟨m', hset, h'⟩ := h.take hs hlen hq.1
    have hp : slab + q ≠ 0 := by
      have := hs.nonnull
      omega
    refine ⟨slab + q, m', ?_, by rwa [offsetOf_add], Or.inr ⟨q, rfl, hq⟩⟩
    simp only [Slab.allocate, hfirst, Option.bind_eq_bind, Option.bind_some, if_pos hp, hset]
    rfl

variable {start : Memory} {events : List Event}

/-- In every state of a run the bitmap shows the blocks that are free. -/
theorem Run.shown (hrun : Run slab len start events m) (hs : IsPage slab) (hlen : IsSizeClass len)
    (hstart : Fresh start slab len) : Shown m slab len (freeAfter slab len events) := by
  induction hrun with
  | init => exact hstart.shown hlen
  | allocate h hcall ih =>
    obtain ⟨p, m', hcall', h', -⟩ := ih.allocate hs hlen
    rw [hcall] at hcall'
    cases hcall'
    rw [freeAfter_concat]
    exact h'
  | free h hp hcall ih =>
    obtain ⟨q, hq, rfl, -⟩ := hp
    obtain ⟨m', hcall', h'⟩ := ih.free hs hlen hq
    rw [hcall] at hcall'
    cases hcall'
    rw [freeAfter_concat, Event.apply, offsetOf_add]
    exact h'

theorem Run.returned (hrun : Run slab len start (events ++ [.returned p]) m) (hs : IsPage slab)
    (hlen : IsSizeClass len) (hstart : Fresh start slab len) :
    p = 0 ∨ ∃ q ∈ freeAfter slab len events, p = slab + q := by
  generalize he : events ++ [.returned p] = all at hrun
  cases hrun with
  | init => simp at he
  | @allocate _ _ p' _ h hcall =>
    obtain ⟨rfl, hlast⟩ := List.append_inj' he rfl
    obtain rfl : p = p' := by simpa using hlast
    obtain ⟨p', m', hcall', -, hor⟩ := (h.shown hs hlen hstart).allocate hs hlen
    rw [hcall] at hcall'
    cases hcall'
    rcases hor with ⟨h0, -⟩ | ⟨q, hq, hleast⟩
    · exact Or.inl h0
    · exact Or.inr ⟨q, hleast.1, hq⟩
  | free h hp hcall =>
    have := (List.append_inj' he rfl).2
    simp at this

theorem Run.before {later : List Event} (hrun : Run slab len start (events ++ later) m) :
    ∃ m', Run slab len start events m' := by
  induction later using List.reverseRecOn generalizing m with
  | nil => exact ⟨m, by simpa using hrun⟩
  | append_singleton later e ih =>
    rw [← List.append_assoc] at hrun
    generalize he : events ++ later ++ [e] = all at hrun
    cases hrun with
    | init => simp at he
    | allocate h hcall => exact ih (by rw [(List.append_inj' he rfl).1]; exact h)
    | free h hp hcall => exact ih (by rw [(List.append_inj' he rfl).1]; exact h)

theorem taken_until_freed {between : List Event} (hfreed : .freed (slab + q) ∉ between) :
    q ∉ freeAfter slab len (events ++ .returned (slab + q) :: between) := by
  induction between using List.reverseRecOn with
  | nil =>
    rw [freeAfter_concat, Event.apply, offsetOf_add]
    exact fun h => h.2 rfl
  | append_singleton between e ih =>
    have ih := ih fun h => hfreed (List.mem_append_left _ h)
    rw [← List.cons_append, ← List.append_assoc, freeAfter_concat]
    cases e with
    | returned p => exact fun h => ih h.1
    | freed p =>
      rintro (hp | h)
      · rw [offsetOf, Set.mem_ofPred_eq] at hp
        subst hp
        simp at hfreed
      · exact ih h

/-- What holds after the events of a run. -/
structure Serves (m : Memory) (slab len : Nat) (events : List Event) : Prop where
  bitmap : ∀ i < slotCount, bit m slab i = true ↔ ∃ q ∈ freeAfter slab len events, i ∈ coverAt len q
  lowest : ∃ p m', allocate m slab = some (p, m') ∧ (p = 0 ↔ freeAfter slab len events = ∅) ∧
    (p ≠ 0 → ∃ q, p = slab + q ∧ IsLeast (freeAfter slab len events) q)
  once : ∀ p before between after, p ≠ 0 →
    events = before ++ .returned p :: (between ++ .returned p :: after) → .freed p ∈ between
  commute : ∀ p p', Allocated slab len events p → Allocated slab len events p' → p ≠ p' →
    ∃ m₁ m₂ m₁' m₂', slabSet m p true = some m₁ ∧ slabSet m₁ p' true = some m₂ ∧
      slabSet m p' true = some m₁' ∧ slabSet m₁' p true = some m₂' ∧
      ∀ i < slotCount, bit m₂ slab i = bit m₂' slab i

theorem Run.once (hrun : Run slab len start events m) (hs : IsPage slab) (hlen : IsSizeClass len)
    (hstart : Fresh start slab len) {before between after : List Event} (hp : p ≠ 0)
    (he : events = before ++ .returned p :: (between ++ .returned p :: after)) : .freed p ∈ between := by
  by_contra hno
  have hsplit : events = (before ++ .returned p :: between) ++ [.returned p] ++ after := by simp [he]
  rw [hsplit] at hrun
  obtain ⟨m₁, hsecond⟩ := hrun.before
  rcases hsecond.returned hs hlen hstart with h0 | ⟨q, hq, rfl⟩
  · exact hp h0
  · exact taken_until_freed hno hq

theorem Shown.commute (h : Shown m slab len F) (hs : IsPage slab) (hlen : IsSizeClass len)
    (hq : q ∈ alignedBlocks len) (hq' : q' ∈ alignedBlocks len) :
    ∃ m₁ m₂ m₁' m₂', slabSet m (slab + q) true = some m₁ ∧ slabSet m₁ (slab + q') true = some m₂ ∧
      slabSet m (slab + q') true = some m₁' ∧ slabSet m₁' (slab + q) true = some m₂' ∧
      ∀ i < slotCount, bit m₂ slab i = bit m₂' slab i := by
  obtain ⟨m₁, hrun₁, h₁⟩ := h.free hs hlen hq
  obtain ⟨m₂, hrun₂, h₂⟩ := h₁.free hs hlen hq'
  obtain ⟨m₁', hrun₁', h₁'⟩ := h.free hs hlen hq'
  obtain ⟨m₂', hrun₂', h₂'⟩ := h₁'.free hs hlen hq
  refine ⟨m₁, m₂, m₁', m₂', hrun₁, hrun₂, hrun₁', hrun₂', fun i hi => ?_⟩
  rw [Bool.eq_iff_iff, h₂.bit_iff hi, h₂'.bit_iff hi, Set.insert_comm]

/-- In every run each allocation returns the lowest free block, no block is returned twice without a free
in between, and the bitmap is the union of the free blocks. -/
theorem run_serves (hs : IsPage slab) (hlen : IsSizeClass len) (hstart : Fresh start slab len)
    (hrun : Run slab len start events m) : Serves m slab len events := by
  have hshown := hrun.shown hs hlen hstart
  constructor
  · exact fun i hi => hshown.bit_iff hi
  · obtain ⟨p, m', hcall, -, hor⟩ := hshown.allocate hs hlen
    refine ⟨p, m', hcall, ?_⟩
    rcases hor with ⟨rfl, hF⟩ | ⟨q, rfl, hq⟩
    · exact ⟨⟨fun _ => hF, fun _ => rfl⟩, fun h0 => absurd rfl h0⟩
    · have hp : slab + q ≠ 0 := by
        have := hs.nonnull
        omega
      refine ⟨⟨fun h0 => absurd h0 hp, fun hF => ?_⟩, fun _ => ⟨q, rfl, hq⟩⟩
      rw [hF] at hq
      exact absurd hq.1 (Set.notMem_empty q)
  · exact fun p before between after hp he => hrun.once hs hlen hstart hp he
  · rintro p p' ⟨q, hq, rfl, -⟩ ⟨q', hq', rfl, -⟩ -
    exact hshown.commute hs hlen hq hq'

/-- A slab of 64-byte blocks with all slots behind the header free. -/
def freshSlab : Memory where
  «at» a := if a = 4096 + offsetCounts then 64 else if a = 4096 + offsetBitmap then ~~~15 else BitVec.allOnes 64

theorem freshSlab_fresh : Fresh freshSlab 4096 64 := by
  have hbits : ∀ i < slotCount, bit freshSlab 4096 i = decide (4 ≤ i) := by decide +kernel
  refine ⟨by decide, fun i hi => ?_⟩
  rw [hbits i hi, blocks_tile ⟨2, by decide, by decide⟩, decide_eq_true_iff]
  exact ⟨fun h => ⟨h, hi⟩, fun h => h.1⟩

/-- The block at 64 is freed while the one behind it is allocated, and is returned again. -/
def reused : List Event := [.returned 4160, .returned 4224, .freed 4160, .returned 4160]

theorem run_serves_reused : ∃ m, Run 4096 64 freshSlab reused m ∧ Serves m 4096 64 reused := by
  have hrun : ((allocate freshSlab 4096).bind fun x₁ => (allocate x₁.2 4096).bind fun x₂ =>
      (slabSet x₂.2 4160 true).bind fun m₃ => (allocate m₃ 4096).map fun x₄ => [x₁.1, x₂.1, x₄.1]) =
      some [4160, 4224, 4160] := by decide +kernel
  obtain ⟨⟨p₁, m₁⟩, h₁, hrun⟩ := Option.bind_eq_some_iff.mp hrun
  obtain ⟨⟨p₂, m₂⟩, h₂, hrun⟩ := Option.bind_eq_some_iff.mp hrun
  obtain ⟨m₃, h₃, hrun⟩ := Option.bind_eq_some_iff.mp hrun
  obtain ⟨⟨p₄, m₄⟩, h₄, hrun⟩ := Option.map_eq_some_iff.mp hrun
  simp only [List.cons.injEq, and_true] at hrun
  obtain ⟨rfl, rfl, rfl⟩ := hrun
  have hlen : IsSizeClass 64 := ⟨2, by decide, by decide⟩
  have hallocated : Allocated 4096 64 ([] ++ [.returned 4160] ++ [.returned 4224]) 4160 := by
    refine ⟨64, (mem_alignedBlocks hlen).mpr (by omega), rfl, ?_⟩
    rw [freeAfter_concat, freeAfter_concat]
    rintro ⟨⟨-, hout⟩, -⟩
    exact hout rfl
  have hreused : Run 4096 64 freshSlab reused m₄ := .allocate (.free (.allocate (.allocate .init h₁) h₂) hallocated h₃) h₄
  exact ⟨m₄, hreused, run_serves isPage_4096 hlen freshSlab_fresh hreused⟩

end GenericOs.Slab
