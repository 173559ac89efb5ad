import GenericOs.Library.Marks
import GenericOs.Slab.Code

/-!
# The slot bitmap of a slab

One bit for every 16 bytes of the page. `SLABSet` paints the slots of a region, and
`SLABFirst` finds the lowest set bit.
-/

namespace GenericOs.Slab

open Marks (paint)

variable {m m' : Memory} {a b p slab len q i j n s : ℕ} {w : BitVec 64} {v : Bool}

/-! ## Loads and stores -/

namespace Memory

theorem load_eq (ha : a ≠ 0) (h8 : a % 8 = 0) : m.load a = some (m.at a) := by
  simp [load, ha, h8]

theorem store_eq (ha : a ≠ 0) (h8 : a % 8 = 0) (w : BitVec 64) : m.store a w = some (m.set a w) := by
  simp [store, ha, h8]

theorem at_set (w : BitVec 64) : (m.set a w).at b = if b = a then w else m.at b := by
  simp [set, Function.update_apply]

theorem at_set_ne (w : BitVec 64) (h : b ≠ a) : (m.set a w).at b = m.at b := by rw [at_set, if_neg h]

@[simp] theorem at_set_self (w : BitVec 64) : (m.set a w).at a = w := by rw [at_set, if_pos rfl]

end Memory

/-- The first byte of a page that is not the null page. -/
structure IsPage (slab : Nat) : Prop where
  aligned : slab % pageSize = 0
  nonnull : slab ≠ 0

theorem slabObject_add (h : IsPage slab) (hq : q < pageSize) : slabObject (slab + q) = slab := by
  have := h.aligned
  unfold slabObject
  simp only [pageSize_val] at *
  omega

theorem slabObjectOffset_add (h : IsPage slab) (hq : q < pageSize) : slabObjectOffset (slab + q) = q := by
  have := h.aligned
  unfold slabObjectOffset
  simp only [pageSize_val] at *
  omega

/-- `slab->ElementLength`. -/
def lengthOf (m : Memory) (slab : Nat) : Nat := ((m.at (slab + offsetCounts)).extractLsb' 0 16).toNat

theorem elementLength_eq (h : IsPage slab) : elementLength m slab = some (lengthOf m slab) := by
  have := h.aligned
  have := h.nonnull
  simp only [pageSize_val] at *
  rw [elementLength, Memory.load_eq (by simp) (by simp; omega)]
  rfl

/-! ## Words -/

theorem bsf_eq_iff (hn : n < 64) : bsf w = n ↔ w.getLsbD n = true ∧ ∀ j < n, w.getLsbD j = false := by
  unfold bsf
  cases hf : (List.range 64).find? fun i => w.getLsbD i with
  | none =>
    rw [List.find?_eq_none] at hf
    have hlow := hf n (List.mem_range.mpr hn)
    simp only [Option.getD_none, allOnes]
    constructor
    · intro he; omega
    · rintro ⟨hset, -⟩; exact absurd hset hlow
  | some k =>
    rw [List.find?_range_eq_some] at hf
    obtain ⟨hset, -, hlow⟩ := hf
    simp only [Option.getD_some]
    constructor
    · rintro rfl
      exact ⟨hset, fun j hj => by simpa using hlow j hj⟩
    · rintro ⟨hset', hlow'⟩
      rcases Nat.lt_trichotomy k n with hlt | heq | hgt
      · rw [hlow' k hlt] at hset
        exact absurd hset (by simp)
      · exact heq
      · have := hlow n hgt
        simp [hset'] at this

theorem bsf_eq_allOnes : bsf w = allOnes ↔ ∀ j < 64, w.getLsbD j = false := by
  unfold bsf
  cases hf : (List.range 64).find? fun i => w.getLsbD i with
  | none =>
    rw [List.find?_eq_none] at hf
    simpa using hf
  | some k =>
    have hk := List.mem_range.mp (List.mem_of_find?_eq_some hf)
    have hset : w.getLsbD k = true := by simpa using List.find?_some hf
    simp only [Option.getD_some, allOnes]
    constructor
    · intro he; omega
    · intro hall
      rw [hall k hk] at hset
      exact absurd hset (by simp)

/-- The mask that `SLABSet` builds: `n` bits from bit `s` on. -/
theorem mask_bit (hn : n < 64) (hj : j < 64) :
    (((1#64 <<< n) - 1) <<< s).getLsbD j = decide (s ≤ j ∧ j < s + n) := by
  have hpow : 2 ^ n < 2 ^ 64 := Nat.pow_lt_pow_right (by decide) hn
  have hones : ((1#64 <<< n) - 1).toNat = 2 ^ n - 1 := by
    have hpos : 0 < 2 ^ n := Nat.two_pow_pos n
    have hshift : (1#64 <<< n).toNat = 2 ^ n := by
      rw [BitVec.toNat_shiftLeft, BitVec.toNat_ofNat, Nat.shiftLeft_eq, Nat.mod_eq_of_lt (show 1 < 2 ^ 64 by decide),
        Nat.one_mul, Nat.mod_eq_of_lt hpow]
    rw [BitVec.toNat_sub, hshift, show BitVec.toNat (1 : BitVec 64) = 1 from rfl]
    omega
  rw [BitVec.getLsbD_shiftLeft, BitVec.getLsbD, hones, Nat.testBit_two_pow_sub_one]
  rw [Bool.eq_iff_iff]
  simp only [hj, decide_true, Bool.true_and, Bool.and_eq_true, Bool.not_eq_true', decide_eq_false_iff_not,
    decide_eq_true_eq]
  omega

theorem write_bit (old mask : BitVec 64) (v : Bool) (hj : j < 64) :
    (if v then old ||| mask else old &&& ~~~mask).getLsbD j = if mask.getLsbD j then v else old.getLsbD j := by
  cases v with
  | true =>
    rw [if_pos rfl, BitVec.getLsbD_or]
    cases mask.getLsbD j <;> simp
  | false =>
    rw [if_neg (by simp), BitVec.getLsbD_and, BitVec.getLsbD_not, decide_eq_true hj]
    cases mask.getLsbD j <;> simp

/-! ## `SLABSet` -/

/-- Is the slot marked free? -/
def bit (m : Memory) (slab i : Nat) : Bool :=
  (m.at (slab + offsetBitmap + 8 * (i / bitmapBits))).getLsbD (i % bitmapBits)

/-- The slots that `SLABSet` writes at the offset `q`: its mask does not reach into the next word. -/
def region (len q : Nat) : Set ℕ :=
  {i | i / bitmapBits = q / slabsMinAlloc / bitmapBits ∧ q / slabsMinAlloc ≤ i ∧
    i < q / slabsMinAlloc + min q len / slabsMinAlloc}

theorem slabSet_spec (h : IsPage slab) (hq : q < pageSize) (hlen : lengthOf m slab < 1024) (v : Bool) :
    ∃ m', slabSet m (slab + q) v = some m' ∧
      (∀ i, bit m' slab i = paint (region (lengthOf m slab) q) v (bit m slab) i) ∧
      ∀ a, (∀ base, base < slabsBitmapCount → a ≠ slab + offsetBitmap + 8 * base) → m'.at a = m.at a := by
  have haligned := h.aligned
  have hnonnull := h.nonnull
  simp only [pageSize_val] at hq haligned
  set len := lengthOf m slab with hlendef
  set target := slab + offsetBitmap + 8 * (q / slabsMinAlloc / bitmapBits) with htarget
  set mask := ((1#64 <<< (min q len / slabsMinAlloc)) - 1) <<< (q / slabsMinAlloc % bitmapBits) with hmask
  have ht0 : target ≠ 0 := by simp only [htarget, offsetBitmap_val]; omega
  have ht8 : target % 8 = 0 := by
    simp only [htarget, offsetBitmap_val]
    omega
  have hslots : min q len / slabsMinAlloc < 64 := by
    have := Nat.min_le_right q len
    simp only [slabsMinAlloc_val]
    omega
  have hrun : slabSet m (slab + q) v =
      some (m.set target (if v then m.at target ||| mask else m.at target &&& ~~~mask)) := by
    have hq' : q < pageSize := hq
    simp only [slabSet, slabObject_add h hq', slabObjectOffset_add h hq', elementLength_eq h,
      Option.bind_eq_bind, Option.bind_some, ← hlendef, ← htarget, ← hmask, Memory.load_eq ht0 ht8,
      Memory.store_eq ht0 ht8]
    cases v <;> rfl
  refine ⟨_, hrun, fun i => ?_, fun a ha => ?_⟩
  · by_cases hword : i / bitmapBits = q / slabsMinAlloc / bitmapBits
    · -- The slot is in the word that is written.
      have hj : i % bitmapBits < 64 := Nat.mod_lt _ (by decide)
      have hbit := mask_bit (s := q / slabsMinAlloc % bitmapBits) hslots hj
      rw [← hmask] at hbit
      have hmem : i ∈ region len q ↔ q / slabsMinAlloc % bitmapBits ≤ i % bitmapBits ∧
          i % bitmapBits < q / slabsMinAlloc % bitmapBits + min q len / slabsMinAlloc := by
        simp only [region, Set.mem_ofPred_eq, hword, true_and]
        simp only [bitmapBits_val, slabsMinAlloc_val] at hword ⊢
        omega
      have hold : bit m slab i = (m.at target).getLsbD (i % bitmapBits) := by rw [bit, hword]
      rw [bit, hword, ← htarget, Memory.at_set_self, write_bit _ _ _ hj, hbit]
      by_cases hi : i ∈ region len q
      · rw [Marks.paint_mem hi, decide_eq_true (hmem.mp hi), if_pos rfl]
      · rw [Marks.paint_notMem hi, decide_eq_false (fun hc => hi (hmem.mpr hc)), hold, if_neg (by simp)]
    · rw [Marks.paint_notMem (fun hi => hword hi.1), bit, bit, Memory.at_set_ne]
      simp only [htarget]
      omega
  · apply Memory.at_set_ne
    apply ha
    simp only [slabsMinAlloc_val, bitmapBits_val, slabsBitmapCount_val]
    omega

theorem lengthOf_congr (h : ∀ a, (∀ base, base < slabsBitmapCount → a ≠ slab + offsetBitmap + 8 * base) →
    m'.at a = m.at a) : lengthOf m' slab = lengthOf m slab := by
  rw [lengthOf, lengthOf, h]
  intro base _
  simp only [offsetCounts_val, offsetBitmap_val]
  omega

/-! ## `SLABFirst` -/

theorem word_load (h : IsPage slab) (base : ℕ) :
    m.load (slab + offsetBitmap + 8 * base) = some (m.at (slab + offsetBitmap + 8 * base)) := by
  have := h.aligned
  simp only [pageSize_val] at this
  exact Memory.load_eq (by simp) (by simp only [offsetBitmap_val]; omega)

theorem slabFirstLoop_clear (h : IsPage slab) {left base : ℕ} (slot : ℕ)
    (hclear : ∀ i, bitmapBits * base ≤ i → i < bitmapBits * (base + left) → bit m slab i = false)
    (hslot : left = 0 → slot = allOnes) :
    slabFirstLoop m slab left base slot = some (allOnes, base + left) := by
  induction left generalizing base slot with
  | zero => rw [slabFirstLoop, hslot rfl, Nat.add_zero]
  | succ left ih =>
    have hword : bsf (m.at (slab + offsetBitmap + 8 * base)) = allOnes := by
      rw [bsf_eq_allOnes]
      intro j hj
      have := hclear (bitmapBits * base + j) (by omega) (by simp only [bitmapBits_val]; omega)
      rwa [bit, show (bitmapBits * base + j) / bitmapBits = base by simp only [bitmapBits_val]; omega,
        show (bitmapBits * base + j) % bitmapBits = j by simp only [bitmapBits_val]; omega] at this
    have hrest : slabFirstLoop m slab left (base + 1) allOnes = some (allOnes, base + 1 + left) :=
      ih allOnes (fun i h1 h2 => hclear i (by simp only [bitmapBits_val] at *; omega)
        (by simp only [bitmapBits_val] at *; omega)) (fun _ => rfl)
    rw [slabFirstLoop, word_load h]
    simp only [hword, Option.bind_eq_bind, Option.bind_some]
    rw [if_neg (by simp), hrest]
    congr 2
    omega

theorem slabFirstLoop_found (h : IsPage slab) {left base : ℕ} (slot : ℕ) (hlow : bitmapBits * base ≤ n)
    (hhigh : n < bitmapBits * (base + left)) (hset : bit m slab n = true)
    (hclear : ∀ i, bitmapBits * base ≤ i → i < n → bit m slab i = false) :
    slabFirstLoop m slab left base slot = some (n % bitmapBits, n / bitmapBits) := by
  induction left generalizing base slot with
  | zero => exact absurd (hlow.trans_lt hhigh) (Nat.lt_irrefl _)
  | succ left ih =>
    rw [slabFirstLoop, word_load h]
    simp only [Option.bind_eq_bind, Option.bind_some]
    have hbits : ∀ j < 64, (m.at (slab + offsetBitmap + 8 * base)).getLsbD j = bit m slab (bitmapBits * base + j) := by
      intro j hj
      rw [bit, show (bitmapBits * base + j) / bitmapBits = base by simp only [bitmapBits_val]; omega,
        show (bitmapBits * base + j) % bitmapBits = j by simp only [bitmapBits_val]; omega]
    rcases Nat.lt_or_ge n (bitmapBits * (base + 1)) with hhere | hlater
    · -- The lowest set bit is in this word.
      have hj : n % bitmapBits < 64 := Nat.mod_lt _ (by decide)
      have hbase : n / bitmapBits = base := by simp only [bitmapBits_val] at *; omega
      have hn : bitmapBits * base + n % bitmapBits = n := by rw [← hbase]; exact Nat.div_add_mod ..
      have hword : bsf (m.at (slab + offsetBitmap + 8 * base)) = n % bitmapBits := by
        rw [bsf_eq_iff hj]
        refine ⟨by rw [hbits _ hj, hn, hset], fun j hjn => ?_⟩
        rw [hbits j (by omega)]
        exact hclear _ (by omega) (by omega)
      rw [hword, if_pos (by simp only [allOnes]; omega), hbase]
      rfl
    · have hword : bsf (m.at (slab + offsetBitmap + 8 * base)) = allOnes := by
        rw [bsf_eq_allOnes]
        intro j hj
        rw [hbits j hj]
        exact hclear _ (by omega) (by simp only [bitmapBits_val] at *; omega)
      rw [hword, if_neg (by simp)]
      exact ih allOnes hlater (by simp only [bitmapBits_val] at *; omega)
        fun i h1 h2 => hclear i (by simp only [bitmapBits_val] at *; omega) h2

/-- The slots of the page. -/
def slotCount : Nat := bitmapBits * slabsBitmapCount

@[simp, grind =] theorem slotCount_val : slotCount = 256 := rfl

theorem slabFirst_none (h : IsPage slab) (hclear : ∀ i < slotCount, bit m slab i = false) :
    slabFirst m slab = some 0 := by
  have hloop : slabFirstLoop m slab slabsBitmapCount 0 0 = some (allOnes, 0 + slabsBitmapCount) := slabFirstLoop_clear h 0
    (fun i _ hi => hclear i (by simpa [slotCount] using hi)) (by simp)
  simp only [slabFirst, hloop, Option.bind_eq_bind, Option.bind_some]
  rfl

theorem slabFirst_some (h : IsPage slab) (hn : n < slotCount) (hset : bit m slab n = true)
    (hclear : ∀ i < n, bit m slab i = false) : slabFirst m slab = some (slab + n * slabsMinAlloc) := by
  have hloop : slabFirstLoop m slab slabsBitmapCount 0 0 = some (n % bitmapBits, n / bitmapBits) :=
    slabFirstLoop_found h 0 (by simp) (by simpa [slotCount] using hn) hset (fun i _ hi => hclear i hi)
  have hslot : n % bitmapBits ≠ allOnes := by
    simp only [bitmapBits_val, allOnes]
    omega
  simp only [slabFirst, hloop, Option.bind_eq_bind, Option.bind_some]
  rw [if_neg hslot, Nat.mod_add_div]
  rfl

end GenericOs.Slab
