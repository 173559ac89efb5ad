import GenericOs.Slab.Bitmap

/-!
# Where the code puts the blocks of a slab

`SLABMainOffset` is the smaller of the header size and the block size, so the first main
block starts inside the header or below the residual blocks. `SLABSet` takes the size of
a block from its offset, and it writes one word of the bitmap only.
-/

namespace GenericOs.Slab

open Marks (paint paintAll Agrees Clean)

variable {m m' : Memory} {slab len q i : ℕ} {v : Bool}

/-- The block sizes from 16 to 512. -/
def IsSizeClass (len : Nat) : Prop := ∃ order < slabsTotOrders, len = slabsMinAlloc * 2 ^ order

theorem IsSizeClass.cases (h : IsSizeClass len) :
    len = 16 ∨ len = 32 ∨ len = 64 ∨ len = 128 ∨ len = 256 ∨ len = 512 := by
  obtain ⟨order, ho, rfl⟩ := h
  rcases order with _ | _ | _ | _ | _ | _ | order
  · simp
  · simp
  · simp
  · simp
  · simp
  · simp
  · simp only [slabsTotOrders_val] at ho
    omega

theorem IsSizeClass.bounds (h : IsSizeClass len) : 16 ≤ len ∧ len ≤ 512 := by
  rcases h.cases with h | h | h | h | h | h <;> omega

/-- Residual block `j`, or main block `k`. -/
inductive Block where
  | residual (j : Nat)
  | main (k : Nat)
  deriving DecidableEq

/-- `SLABResidualTotal`, `SLABMainOffset` and `SLABMainTotal` of a slab with blocks of this length. -/
def residualTotal (len : Nat) : Nat :=
  if len < cachelineLength then 0
  else wordSub (bsf (BitVec.ofNat 64 len)) (bsf (BitVec.ofNat 64 cachelineLength))

def mainOffset (len : Nat) : Nat := min sizeofSlab len

def mainTotal (len : Nat) : Nat := (pageSize - mainOffset len) / len

theorem slabResidualTotal_eq (h : IsPage slab) : slabResidualTotal m slab = some (residualTotal (lengthOf m slab)) := by
  simp only [slabResidualTotal, elementLength_eq h, residualTotal, Option.bind_eq_bind, Option.bind_some]
  split_ifs <;> rfl

theorem slabMainOffset_eq (h : IsPage slab) : slabMainOffset m slab = some (mainOffset (lengthOf m slab)) := by
  simp only [slabMainOffset, elementLength_eq h, mainOffset, Option.bind_eq_bind, Option.bind_some]
  rfl

theorem slabMainTotal_eq (h : IsPage slab) : slabMainTotal m slab = some (mainTotal (lengthOf m slab)) := by
  simp only [slabMainTotal, slabMainOffset_eq h, elementLength_eq h, mainTotal, Option.bind_eq_bind,
    Option.bind_some]
  rfl

def IsBlock (len : Nat) : Block → Prop
  | .residual j => j < residualTotal len
  | .main k => k < mainTotal len

def Block.offset (len : Nat) : Block → Nat
  | .residual j => sizeofSlab * 2 ^ j
  | .main k => mainOffset len + k * len

def Block.size (len : Nat) : Block → Nat
  | .residual j => sizeofSlab * 2 ^ j
  | .main _ => len

/-- The slots of 16 bytes that a block covers. -/
def Block.cover (len : Nat) (b : Block) : Set ℕ :=
  {i | b.offset len ≤ i * slabsMinAlloc ∧ i * slabsMinAlloc < b.offset len + b.size len}

/-- The slots that `SLABSet` writes for it. -/
def Block.region (len : Nat) (b : Block) : Set ℕ := Slab.region len (b.offset len)

/-! ## The numbers of blocks -/

theorem residualTotal_iff (h : IsSizeClass len) {j : ℕ} : j < residualTotal len ↔ sizeofSlab * 2 ^ j < len := by
  have hsmall : residualTotal 16 = 0 ∧ residualTotal 32 = 0 ∧ residualTotal 64 = 0 ∧ residualTotal 128 = 1 ∧
      residualTotal 256 = 2 ∧ residualTotal 512 = 3 := by decide
  have hpow : 3 ≤ j → 2 ^ 3 ≤ 2 ^ j := fun hj => Nat.pow_le_pow_right (show 0 < 2 by decide) hj
  simp only [sizeofSlab_val]
  rcases Nat.lt_or_ge j 3 with hlt | hge
  · obtain rfl | rfl | rfl : j = 0 ∨ j = 1 ∨ j = 2 := by omega
    · rcases h.cases with rfl | rfl | rfl | rfl | rfl | rfl <;> omega
    · rcases h.cases with rfl | rfl | rfl | rfl | rfl | rfl <;> omega
    · rcases h.cases with rfl | rfl | rfl | rfl | rfl | rfl <;> omega
  · have := hpow hge
    rcases h.cases with rfl | rfl | rfl | rfl | rfl | rfl <;> omega

theorem mainTotal_iff (h : IsSizeClass len) {k : ℕ} :
    k < mainTotal len ↔ mainOffset len + k * len + len ≤ pageSize := by
  unfold mainTotal mainOffset
  rcases h.cases with rfl | rfl | rfl | rfl | rfl | rfl <;> simp <;> omega

theorem isBlock_main_zero (h : IsSizeClass len) : IsBlock len (.main 0) := by
  have := h.bounds
  rw [IsBlock, mainTotal_iff h]
  simp only [mainOffset, sizeofSlab_val, pageSize_val]
  omega

/-- A block is made of whole slots of the page. -/
structure Whole (len : Nat) (b : Block) : Prop where
  offset : b.offset len % slabsMinAlloc = 0
  size : b.size len % slabsMinAlloc = 0
  pos : 0 < b.size len
  fits : b.offset len + b.size len ≤ pageSize

theorem IsBlock.whole (h : IsSizeClass len) {b : Block} (hb : IsBlock len b) : Whole len b := by
  cases b with
  | residual j =>
    have hj := (residualTotal_iff h).mp hb
    have hpos := Nat.two_pow_pos j
    have hle := h.bounds.2
    simp only [sizeofSlab_val] at hj
    constructor <;> simp [Block.offset, Block.size] <;> omega
  | main k =>
    have hk := (mainTotal_iff h).mp hb
    unfold mainOffset at hk
    rcases h.cases with rfl | rfl | rfl | rfl | rfl | rfl <;>
      constructor <;> simp [Block.offset, Block.size, mainOffset] at hk ⊢ <;> omega

/-- The mask never reaches beyond the block. -/
theorem Whole.region_sub {b : Block} (h : Whole len b) (hsize : min (b.offset len) len ≤ b.size len) :
    b.region len ⊆ b.cover len := by
  rintro i ⟨-, hlow, hhigh⟩
  have := h.offset
  have := h.size
  simp only [Block.cover, Set.mem_ofPred_eq, slabsMinAlloc_val] at *
  omega

theorem IsBlock.region_sub (h : IsSizeClass len) {b : Block} (hb : IsBlock len b) :
    b.region len ⊆ b.cover len := by
  apply (hb.whole h).region_sub
  cases b with
  | residual j => exact Nat.min_le_left ..
  | main k => exact Nat.min_le_right ..

/-! ## Which blocks `SLABSet` gets right -/

/-- The bytes whose slots are in one word of the bitmap. -/
def wordBytes : Nat := slabsMinAlloc * bitmapBits

@[simp] theorem wordBytes_val : wordBytes = 1024 := rfl

/-- The block is a main block that starts no lower than its size, and it is within one word of the bitmap. -/
def Block.Handled (len : Nat) (b : Block) : Prop :=
  len ≤ b.offset len ∧ b.offset len / wordBytes = (b.offset len + len - 1) / wordBytes

theorem Block.mem_cover {b : Block} : i ∈ b.cover len ↔ b.offset len ≤ i * 16 ∧ i * 16 < b.offset len + b.size len :=
  Iff.rfl

theorem Block.mem_region {b : Block} : i ∈ b.region len ↔ i / 64 = b.offset len / 16 / 64 ∧
    b.offset len / 16 ≤ i ∧ i < b.offset len / 16 + min (b.offset len) len / 16 := Iff.rfl

/-- A handled block is a main block that shares no slot with another block. -/
theorem Block.Handled.apart (hlen : IsSizeClass len) (h64 : sizeofSlab ≤ len) {b b' : Block} (h : b.Handled len)
    (hb : IsBlock len b) (hb' : IsBlock len b') (hne : b' ≠ b) (hi : i ∈ b'.cover len) : i ∉ b.cover len := by
  obtain ⟨hle, -⟩ := h
  rw [Block.mem_cover] at *
  simp only [sizeofSlab_val] at h64
  cases b with
  | residual j =>
    have := (residualTotal_iff hlen).mp hb
    simp only [Block.offset] at hle
    omega
  | main k =>
    cases b' with
    | residual j =>
      have hj := (residualTotal_iff hlen).mp hb'
      simp only [Block.offset, Block.size] at *
      -- The residual block ends at the first multiple of `len` or below.
      have hend : sizeofSlab * 2 ^ j + sizeofSlab * 2 ^ j ≤ len := by
        obtain ⟨order, -, rfl⟩ := hlen
        simp only [sizeofSlab_val, slabsMinAlloc_val] at *
        have hlt : j + 2 < order := by
          by_contra hge
          have := Nat.pow_le_pow_right (show 0 < 2 by decide) (show order ≤ j + 2 by omega)
          rw [Nat.pow_add] at this
          omega
        have := Nat.pow_le_pow_right (show 0 < 2 by decide) hlt
        rw [show (j + 2).succ = j + 3 from rfl, Nat.pow_add] at this
        omega
      omega
    | main k' =>
      have hkk : k' ≠ k := fun he => hne (by rw [he])
      simp only [Block.offset, Block.size] at *
      rcases Nat.lt_or_gt_of_ne hkk with hlt | hgt
      · have := Nat.mul_le_mul_right len (Nat.succ_le_of_lt hlt)
        rw [Nat.succ_mul] at this
        omega
      · have := Nat.mul_le_mul_right len (Nat.succ_le_of_lt hgt)
        rw [Nat.succ_mul] at this
        omega

theorem clean_iff_handled (hlen : IsSizeClass len) (h64 : sizeofSlab ≤ len) {b : Block} (hb : IsBlock len b) :
    Clean (Block.region len) (Block.cover len) {b | IsBlock len b} b ↔ b.Handled len := by
  have hw := hb.whole hlen
  have hoff := hw.offset
  have hpage := hw.fits
  simp only [slabsMinAlloc_val, sizeofSlab_val, pageSize_val] at hoff h64 hpage
  constructor
  · rintro ⟨hcovers, hapart⟩
    have hle : len ≤ b.offset len := by
      by_contra hlt
      -- A block below its size overlaps the first main block or the first residual block.
      cases b with
      | residual j =>
        have hj := (residualTotal_iff hlen).mp hb
        have hpos := Nat.two_pow_pos j
        simp only [sizeofSlab_val] at hj
        refine hapart (.main 0) (isBlock_main_zero hlen) (by simp) (4 * 2 ^ j) ?_ ?_
        · simp only [Block.mem_cover, Block.offset, Block.size, mainOffset, sizeofSlab_val]
          omega
        · simp only [Block.mem_region, Block.offset, sizeofSlab_val]
          omega
      | main k =>
        have hk : k = 0 ∧ sizeofSlab < len := by
          simp only [Block.offset, mainOffset, sizeofSlab_val] at *
          rcases Nat.eq_zero_or_pos k with rfl | hpos
          · omega
          · have := Nat.le_mul_of_pos_left len hpos
            omega
        obtain ⟨rfl, hbig⟩ := hk
        have hres : IsBlock len (.residual 0) := (residualTotal_iff hlen).mpr (by simpa using hbig)
        refine hapart (.residual 0) hres (by simp) 4 ?_ ?_
        · simp [Block.mem_cover, Block.offset, Block.size]
        · simp only [Block.mem_region, Block.offset, mainOffset, sizeofSlab_val] at hbig ⊢
          omega
    refine ⟨hle, ?_⟩
    cases b with
    | residual j =>
      have hj := (residualTotal_iff hlen).mp hb
      simp only [Block.offset] at hle
      omega
    | main k =>
      -- The last slot of the block.
      have hlast := hcovers (a := (Block.offset len (.main k) + len - 1) / 16) (by
        have hsize := hw.size
        simp only [Block.mem_cover, Block.size, slabsMinAlloc_val] at hsize ⊢
        omega)
      rw [Block.mem_region] at hlast
      simp only [wordBytes_val]
      omega
  · intro h
    have hword := h.2
    have hsub := hb.region_sub hlen
    refine ⟨fun i hi => ?_, fun b' hb' hne i hi hir => h.apart hlen h64 hb hb' hne hi (hsub hir)⟩
    have hsize : b.size len = len := by
      cases b with
      | residual j =>
        have hj := (residualTotal_iff hlen).mp hb
        have := h.1
        simp only [Block.offset] at this
        omega
      | main k => rfl
    have hlensize := hw.size
    rw [Block.mem_cover, hsize] at hi
    rw [hsize, slabsMinAlloc_val] at hlensize
    rw [Block.mem_region]
    have hle := h.1
    simp only [wordBytes_val] at hword
    omega

/-! ## Sequences of calls -/

variable {ops : List (Block × Bool)}

/-- The calls `SLABSet(block, isFree)` of a list, the first one first. -/
def setAll (slab len : Nat) (m : Memory) (ops : List (Block × Bool)) : Option Memory :=
  ops.foldlM (fun m p => slabSet m (slab + p.1.offset len) p.2) m

theorem setAll_cons (p : Block × Bool) :
    setAll slab len m (p :: ops) = (slabSet m (slab + p.1.offset len) p.2).bind fun m => setAll slab len m ops :=
  List.foldlM_cons ..

theorem setBlock_spec (h : IsPage slab) (hlen : IsSizeClass len) (hm : lengthOf m slab = len) {b : Block}
    (hb : IsBlock len b) (v : Bool) :
    ∃ m', slabSet m (slab + b.offset len) v = some m' ∧ lengthOf m' slab = len ∧
      bit m' slab = paint (b.region len) v (bit m slab) := by
  have hw := hb.whole hlen
  have hq : b.offset len < pageSize := by
    have := hw.pos
    have := hw.fits
    omega
  have hlt : lengthOf m slab < 1024 := by
    have := hlen.bounds
    omega
  obtain ⟨m', hrun, hbit, hother⟩ := slabSet_spec h hq hlt v
  rw [hm] at hbit
  exact ⟨m', hrun, (lengthOf_congr hother).trans hm, funext hbit⟩

theorem setAll_spec (h : IsPage slab) (hlen : IsSizeClass len) (hm : lengthOf m slab = len)
    (hops : ∀ p ∈ ops, IsBlock len p.1) :
    ∃ m', setAll slab len m ops = some m' ∧ lengthOf m' slab = len ∧
      bit m' slab = paintAll (Block.region len) (bit m slab) ops := by
  induction ops generalizing m with
  | nil => exact ⟨m, rfl, hm, rfl⟩
  | cons p ops ih =>
    obtain ⟨m₁, hset, hm₁, hbit₁⟩ := setBlock_spec h hlen hm (hops p (by simp)) p.2
    obtain ⟨m₂, hrest, hm₂, hbit₂⟩ := ih hm₁ fun q hq => hops q (List.mem_cons_of_mem _ hq)
    refine ⟨m₂, ?_, hm₂, ?_⟩
    · rw [setAll_cons, hset, Option.bind_some, hrest]
    · rw [hbit₂, hbit₁, Marks.paintAll_cons]

/-- Layout and bitmap agree over the calls: a marked block shows its last mark, no call changes a slot of
another block, and no block covers a slot of the header. -/
structure LayoutAgrees (m : Memory) (slab len : Nat) (ops : List (Block × Bool)) : Prop where
  shown : ∃ m', setAll slab len m ops = some m' ∧ ∀ pre b v post, ops = pre ++ (b, v) :: post →
    (∀ p ∈ post, p.1 ≠ b) → ∀ i ∈ b.cover len, bit m' slab i = v
  others : ∀ pre b v post, ops = pre ++ (b, v) :: post → ∃ m₁ m₂, setAll slab len m pre = some m₁ ∧
    slabSet m₁ (slab + b.offset len) v = some m₂ ∧
    ∀ b', IsBlock len b' → b' ≠ b → ∀ i ∈ b'.cover len, bit m₂ slab i = bit m₁ slab i
  header : ∀ b, IsBlock len b → ∀ i ∈ b.cover len, sizeofSlab ≤ i * slabsMinAlloc

theorem layoutAgrees_iff (h : IsPage slab) (hlen : IsSizeClass len) (hm : lengthOf m slab = len)
    (hops : ∀ p ∈ ops, IsBlock len p.1) :
    LayoutAgrees m slab len ops ↔
      Agrees (Block.region len) (Block.cover len) {b | IsBlock len b} (bit m slab) ops ∧
        ∀ b, IsBlock len b → ∀ i ∈ b.cover len, sizeofSlab ≤ i * slabsMinAlloc := by
  obtain ⟨m', hrun, -, hbit⟩ := setAll_spec h hlen hm hops
  -- The two states around a call, and what the call paints.
  have hcall : ∀ pre b v post, ops = pre ++ (b, v) :: post → ∃ m₁ m₂, setAll slab len m pre = some m₁ ∧
      slabSet m₁ (slab + b.offset len) v = some m₂ ∧ bit m₁ slab = paintAll (Block.region len) (bit m slab) pre ∧
      bit m₂ slab = paintAll (Block.region len) (bit m slab) (pre ++ [(b, v)]) := by
    rintro pre b v post rfl
    obtain ⟨m₁, hpre, hm₁, hbit₁⟩ := setAll_spec h hlen hm
      (show ∀ p ∈ pre, IsBlock len p.1 from fun p hp => hops p (by simp [hp]))
    obtain ⟨m₂, hset, -, hbit₂⟩ := setBlock_spec h hlen hm₁ (hops (b, v) (by simp)) v
    refine ⟨m₁, m₂, hpre, hset, hbit₁, ?_⟩
    rw [hbit₂, hbit₁, Marks.paintAll_append, Marks.paintAll_cons, Marks.paintAll_nil]
  constructor
  · rintro ⟨⟨m'', hrun', hshown⟩, hothers, hheader⟩
    obtain rfl : m'' = m' := Option.some.inj (hrun'.symm.trans hrun)
    refine ⟨⟨fun pre b v post he hpost i hi => ?_, fun pre b v post he b' hb' hne i hi => ?_⟩, hheader⟩
    · rw [← hbit]
      exact hshown pre b v post he hpost i hi
    · obtain ⟨m₁, m₂, hpre, hset, hbit₁, hbit₂⟩ := hcall pre b v post he
      obtain ⟨m₁', m₂', hpre', hset', hsame⟩ := hothers pre b v post he
      obtain rfl : m₁' = m₁ := Option.some.inj (hpre'.symm.trans hpre)
      obtain rfl : m₂' = m₂ := Option.some.inj (hset'.symm.trans hset)
      rw [← hbit₁, ← hbit₂]
      exact hsame b' hb' hne i hi
  · rintro ⟨⟨hshown, hothers⟩, hheader⟩
    refine ⟨⟨m', hrun, fun pre b v post he hpost i hi => ?_⟩, fun pre b v post he => ?_, hheader⟩
    · rw [hbit]
      exact hshown pre b v post he hpost i hi
    · obtain ⟨m₁, m₂, hpre, hset, hbit₁, hbit₂⟩ := hcall pre b v post he
      refine ⟨m₁, m₂, hpre, hset, fun b' hb' hne i hi => ?_⟩
      rw [hbit₁, hbit₂]
      exact hothers pre b v post he b' hb' hne i hi

/-- From 64 bytes on no block is in the header. -/
theorem header_iff (hlen : IsSizeClass len) :
    (∀ b, IsBlock len b → ∀ i ∈ b.cover len, sizeofSlab ≤ i * slabsMinAlloc) ↔ sizeofSlab ≤ len := by
  constructor
  · intro h
    have hmain := isBlock_main_zero hlen
    by_contra hlt
    have hw := hmain.whole hlen
    have hoff := hw.offset
    have hpos := hw.pos
    have := h (.main 0) hmain (mainOffset len / 16) (by
      simp only [Block.mem_cover, Block.offset, Block.size, slabsMinAlloc_val] at *
      omega)
    simp only [mainOffset, sizeofSlab_val, slabsMinAlloc_val] at *
    omega
  · intro h64 b _ i hi
    rw [Block.mem_cover] at hi
    cases b with
    | residual j =>
      have := Nat.two_pow_pos j
      simp only [Block.offset, sizeofSlab_val, slabsMinAlloc_val] at *
      omega
    | main k =>
      simp only [Block.offset, mainOffset, sizeofSlab_val, slabsMinAlloc_val] at *
      omega

/-- A slab whose bitmap has the same value everywhere. -/
def uniformSlab (slab len : Nat) (v : Bool) : Memory where
  «at» a := if a = slab + offsetCounts then BitVec.ofNat 64 len else if v then BitVec.allOnes 64 else 0

theorem uniformSlab_at (a : ℕ) : (uniformSlab slab len v).at a =
    if a = slab + offsetCounts then BitVec.ofNat 64 len else if v then BitVec.allOnes 64 else 0 := rfl

theorem lengthOf_uniformSlab (hlen : IsSizeClass len) (v : Bool) : lengthOf (uniformSlab slab len v) slab = len := by
  rw [lengthOf, uniformSlab_at, if_pos rfl]
  rcases hlen.cases with rfl | rfl | rfl | rfl | rfl | rfl <;> decide

theorem bit_uniformSlab (v : Bool) : bit (uniformSlab slab len v) slab = fun _ => v := by
  funext i
  have hj : i % bitmapBits < 64 := Nat.mod_lt _ (by decide)
  rw [bit, uniformSlab_at, if_neg (by simp only [offsetBitmap_val, offsetCounts_val]; omega)]
  cases v
  · rw [if_neg (by simp)]
    exact BitVec.getLsbD_zero
  · rw [if_pos rfl, BitVec.getLsbD_allOnes, decide_eq_true hj]

/-- Layout and bitmap agree from every starting bitmap exactly if the blocks are at least as large as the
header and every marked one is handled. -/
theorem layoutAgrees_iff_handled (h : IsPage slab) (hlen : IsSizeClass len) (hops : ∀ p ∈ ops, IsBlock len p.1) :
    (∀ m, lengthOf m slab = len → LayoutAgrees m slab len ops) ↔
      sizeofSlab ≤ len ∧ ∀ p ∈ ops, p.1.Handled len := by
  have hsub : ∀ b ∈ {b | IsBlock len b}, Block.region len b ⊆ Block.cover len b := fun b hb => hb.region_sub hlen
  constructor
  · intro hall
    have hstart : ∀ v, _ := fun v => (layoutAgrees_iff h hlen (lengthOf_uniformSlab hlen v) hops).mp
      (hall (uniformSlab slab len v) (lengthOf_uniformSlab hlen v))
    have h64 := (header_iff hlen).mp (hstart true).2
    have hclean := (Marks.agrees_iff_clean hsub hops).mp fun v => by
      have := (hstart v).1
      rwa [bit_uniformSlab] at this
    exact ⟨h64, fun p hp => (clean_iff_handled hlen h64 (hops p hp)).mp (hclean p hp)⟩
  · rintro ⟨h64, hhandled⟩ m hm
    rw [layoutAgrees_iff h hlen hm hops, header_iff hlen]
    exact ⟨Marks.agrees_of_clean hops
      (fun p hp => (clean_iff_handled hlen h64 (hops p hp)).mpr (hhandled p hp)) _, h64⟩

/-! ## Two sequences -/

theorem isPage_4096 : IsPage 4096 := ⟨by decide, by decide⟩

/-- With blocks of 128 bytes the second main block is within one word, so it may be marked. -/
theorem layoutAgrees_iff_handled_main :
    (∀ m, lengthOf m 4096 = 128 → LayoutAgrees m 4096 128 [(.main 1, false), (.main 1, true)]) ↔
      sizeofSlab ≤ 128 ∧ ∀ p ∈ [(Block.main 1, false), (Block.main 1, true)], p.1.Handled 128 :=
  layoutAgrees_iff_handled isPage_4096 ⟨3, by decide, by decide⟩ (by simp [IsBlock]; decide)

/-- Marking the first main block of 128 bytes only reaches its first 64 bytes, and they belong to the
residual block too. -/
theorem layoutAgrees_fails :
    IsPage 4096 ∧ IsSizeClass 128 ∧ IsBlock 128 (.main 0) ∧ lengthOf (uniformSlab 4096 128 true) 4096 = 128 ∧
      ¬ LayoutAgrees (uniformSlab 4096 128 true) 4096 128 [(.main 0, false)] := by
  have hlen : IsSizeClass 128 := ⟨3, by decide, by decide⟩
  have hm : lengthOf (uniformSlab 4096 128 true) 4096 = 128 := lengthOf_uniformSlab hlen true
  have hb : IsBlock 128 (.main 0) := by simp [IsBlock]; decide
  refine ⟨isPage_4096, hlen, hb, hm, fun h => ?_⟩
  obtain ⟨m', hrun, hshown⟩ := h.shown
  obtain ⟨m₁, hset, -, hbit⟩ := setBlock_spec isPage_4096 hlen hm hb false
  obtain rfl : m₁ = m' := by
    rw [setAll_cons, hset] at hrun
    exact Option.some.inj hrun
  have hi : 8 ∈ Block.cover 128 (.main 0) := by simp [Block.mem_cover, Block.offset, Block.size, mainOffset]
  have hout : 8 ∉ Block.region 128 (.main 0) := by simp [Block.mem_region, Block.offset, mainOffset]
  have hlast := hshown [] (.main 0) false [] rfl (by simp) 8 hi
  rw [hbit, Marks.paint_notMem hout, bit_uniformSlab] at hlast
  exact absurd hlast (by decide)

end GenericOs.Slab
