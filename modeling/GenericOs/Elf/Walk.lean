import Mathlib.Logic.Function.Iterate
import Mathlib.Order.Bounds.Defs
import GenericOs.Elf.Code

/-!
# Walking over the program headers

The loops of `RetrieveELFInfo` and `LoadELF`: which headers they look at, what the first one
finds and what the second one stores. A file may say anything here.
-/

namespace GenericOs.Elf

open Bytes

/-! ## What a file says -/

def headerAt (m : Memory 64) (elf : BitVec 64) (i : Nat) : BitVec 64 :=
  elf + BitVec.ofNat 64 ((ELFHeader.programHeaderOffset m elf).toNat + i * (ELFHeader.programHeaderSize m elf).toNat)

/-- The `i`th program header exists and has the type `PT_LOAD`. -/
def IsLoad (m : Memory 64) (elf : BitVec 64) (i : Nat) : Prop :=
  i < (ELFHeader.programHeaderCount m elf).toNat ∧ ELFProgramHeader.type m (headerAt m elf i) = ptLoad

/-- The part of a program header that `LoadELF` uses. -/
structure Segment where
  dataOffset : Nat
  vAddr : Nat
  sizeInFile : Nat
  sizeInMemory : Nat
  deriving DecidableEq

def segmentAt (m : Memory 64) (elf : BitVec 64) (i : Nat) : Segment where
  dataOffset := (ELFProgramHeader.dataOffset m (headerAt m elf i)).toNat
  vAddr := (ELFProgramHeader.vAddr m (headerAt m elf i)).toNat
  sizeInFile := (ELFProgramHeader.sizeInFile m (headerAt m elf i)).toNat
  sizeInMemory := (ELFProgramHeader.sizeInMemory m (headerAt m elf i)).toNat

section

variable (m : Memory 64) (elf : BitVec 64) (i : Nat)

theorem segmentAt_dataOffset :
    (segmentAt m elf i).dataOffset = (ELFProgramHeader.dataOffset m (headerAt m elf i)).toNat := rfl
theorem segmentAt_vAddr : (segmentAt m elf i).vAddr = (ELFProgramHeader.vAddr m (headerAt m elf i)).toNat := rfl
theorem segmentAt_sizeInFile :
    (segmentAt m elf i).sizeInFile = (ELFProgramHeader.sizeInFile m (headerAt m elf i)).toNat := rfl

end

/-- The address behind the segment. It may be past the end of the address space. -/
def Segment.memoryEnd (s : Segment) : Nat := s.vAddr + s.sizeInMemory

/-- Where the segment goes when the virtual address `base` is put at `trg`. -/
def Segment.target (s : Segment) (trg base : BitVec 64) : BitVec 64 := trg + (BitVec.ofNat 64 s.vAddr - base)

/-- The bytes of the file header and of the program headers. -/
def Headers (m : Memory 64) (elf : BitVec 64) : Set (BitVec 64) :=
  {x | x ∈ window elf sizeofELFHeader ∨
    ∃ i < (ELFHeader.programHeaderCount m elf).toNat, x ∈ window (headerAt m elf i) sizeofELFProgramHeader}

/-- The bytes that `LoadELF` stores for the `i`th header. -/
def Stores (m : Memory 64) (elf trg base : BitVec 64) (i : Nat) : Set (BitVec 64) :=
  {x | IsLoad m elf i ∧ x ∈ window ((segmentAt m elf i).target trg base)
    (max (segmentAt m elf i).sizeInFile (segmentAt m elf i).sizeInMemory)}

/-! ## The loops -/

section Loop

variable {σ : Type*} {body : σ → σ}

theorem doWhile_eq_iterate (headersLeft : BitVec 32) (s : σ) :
    doWhile body headersLeft s = body^[(headersLeft - 1).toNat + 1] s := by
  induction headersLeft, s using doWhile.induct body with
  | case1 headersLeft s hmore ih =>
    have hcount : (headersLeft - 1).toNat = (headersLeft - 1 - 1).toNat + 1 := by bv_omega
    unfold doWhile
    rw [if_pos hmore, ih, hcount, ← Function.iterate_succ_apply]
  | case2 headersLeft s hlast =>
    have hcount : (headersLeft - 1).toNat = 0 := by bv_omega
    unfold doWhile
    rw [if_neg hlast, hcount]
    rfl

theorem doWhile_rounds {count : BitVec 16} (hpos : 0 < count.toNat) :
    (count.setWidth 32 - 1).toNat + 1 = count.toNat := by
  bv_omega

/-- The counter goes below zero if there is none. -/
theorem doWhile_rounds_zero {count : BitVec 16} (hzero : count.toNat = 0) :
    (count.setWidth 32 - 1).toNat + 1 = 2 ^ 32 := by
  bv_omega

theorem doWhile_count (count : BitVec 16) (hpos : 0 < count.toNat) (s : σ) :
    doWhile body (count.setWidth 32) s = body^[count.toNat] s := by
  rw [doWhile_eq_iterate, doWhile_rounds hpos]

/-- A body that also notes the states it runs in. -/
def logged (body : σ → σ) (s : σ × List σ) : σ × List σ := (body s.1, s.2 ++ [s.1])

theorem logged_iterate (body : σ → σ) (s : σ) (k : Nat) :
    (logged body)^[k] (s, []) = (body^[k] s, (List.range k).map fun i => body^[i] s) := by
  induction k with
  | zero => rfl
  | succ k ih =>
    rw [Function.iterate_succ_apply', ih, Function.iterate_succ_apply', List.range_succ, List.map_append]
    rfl

theorem doWhile_logged (body : σ → σ) (headersLeft : BitVec 32) (s : σ) :
    doWhile (logged body) headersLeft (s, []) =
      (doWhile body headersLeft s, (List.range ((headersLeft - 1).toNat + 1)).map fun i => body^[i] s) := by
  rw [doWhile_eq_iterate, doWhile_eq_iterate, logged_iterate]

end Loop

/-! ## Headers that stay as they are -/

section Headers

variable {m m' : Memory 64} {elf program : BitVec 64} {i j : Nat}

theorem headerAt_zero : headerAt m elf 0 = elf + ELFHeader.programHeaderOffset m elf := by
  unfold headerAt
  rw [Nat.zero_mul, Nat.add_zero, BitVec.ofNat_toNat, BitVec.setWidth_eq]

theorem headerAt_succ :
    headerAt m elf (i + 1) = headerAt m elf i + (ELFHeader.programHeaderSize m elf).setWidth 64 := by
  unfold headerAt
  rw [Nat.succ_mul, ← Nat.add_assoc, BitVec.ofNat_add, ← BitVec.add_assoc, BitVec.ofNat_toNat]

theorem programHeader_congr (h : AgreeOn (window program sizeofELFProgramHeader) m m') :
    ELFProgramHeader.type m' program = ELFProgramHeader.type m program ∧
      ELFProgramHeader.dataOffset m' program = ELFProgramHeader.dataOffset m program ∧
      ELFProgramHeader.vAddr m' program = ELFProgramHeader.vAddr m program ∧
      ELFProgramHeader.sizeInFile m' program = ELFProgramHeader.sizeInFile m program ∧
      ELFProgramHeader.sizeInMemory m' program = ELFProgramHeader.sizeInMemory m program := by
  have h0 : m'.read program 4 = m.read program 4 := read_congr (h.mono (window_mono (by decide)))
  have h8 : m'.read (program + 8) 8 = m.read (program + 8) 8 := read_at_congr h (by decide)
  have h16 : m'.read (program + 16) 8 = m.read (program + 16) 8 := read_at_congr h (by decide)
  have h32 : m'.read (program + 32) 8 = m.read (program + 32) 8 := read_at_congr h (by decide)
  have h40 : m'.read (program + 40) 8 = m.read (program + 40) 8 := read_at_congr h (by decide)
  unfold ELFProgramHeader.type ELFProgramHeader.dataOffset ELFProgramHeader.vAddr
    ELFProgramHeader.sizeInFile ELFProgramHeader.sizeInMemory
  rw [h0, h8, h16, h32, h40]
  exact ⟨rfl, rfl, rfl, rfl, rfl⟩

theorem header_congr (h : AgreeOn (window elf sizeofELFHeader) m m') :
    ELFHeader.entry m' elf = ELFHeader.entry m elf ∧
      ELFHeader.programHeaderSize m' elf = ELFHeader.programHeaderSize m elf := by
  have h24 : m'.read (elf + 24) 8 = m.read (elf + 24) 8 := read_at_congr h (by decide)
  have h54 : m'.read (elf + 54) 2 = m.read (elf + 54) 2 := read_at_congr h (by decide)
  unfold ELFHeader.entry ELFHeader.programHeaderSize
  rw [h24, h54]
  exact ⟨rfl, rfl⟩

theorem header_subset : window elf sizeofELFHeader ⊆ Headers m elf := fun _ hx => Or.inl hx

theorem programHeader_subset (hi : i < (ELFHeader.programHeaderCount m elf).toNat) :
    window (headerAt m elf i) sizeofELFProgramHeader ⊆ Headers m elf := fun _ hx => Or.inr ⟨i, hi, hx⟩

end Headers

/-! ## `RetrieveELFInfo` -/

section Retrieve

variable {m : Memory 64} {elf : BitVec 64} {i j : Nat}

theorem max64_toNat (a b : BitVec 64) : (max64 a b).toNat = max a.toNat b.toNat := by
  unfold max64
  split <;> bv_omega

theorem min64_toNat (a b : BitVec 64) : (min64 a b).toNat = min a.toNat b.toNat := by
  unfold min64
  split <;> bv_omega

theorem max64_choice (a b : BitVec 64) : max64 a b = a ∨ max64 a b = b := by
  unfold max64
  split
  · exact Or.inl rfl
  · exact Or.inr rfl

theorem min64_choice (a b : BitVec 64) : min64 a b = a ∨ min64 a b = b := by
  unfold min64
  split
  · exact Or.inl rfl
  · exact Or.inr rfl

def retrieveStart (m : Memory 64) (elf : BitVec 64) : RetrieveState where
  highestMem := 0
  lowestMem := BitVec.allOnes 64
  program := elf + ELFHeader.programHeaderOffset m elf

theorem retrieveStep_program (m : Memory 64) (elf : BitVec 64) (s : RetrieveState) :
    (retrieveStep m elf s).program = s.program + (ELFHeader.programHeaderSize m elf).setWidth 64 := by
  unfold retrieveStep
  dsimp only
  split <;> rfl

theorem retrieve_program (m : Memory 64) (elf : BitVec 64) (i : Nat) :
    ((retrieveStep m elf)^[i] (retrieveStart m elf)).program = headerAt m elf i := by
  induction i with
  | zero => exact headerAt_zero.symm
  | succ i ih =>
    rw [Function.iterate_succ_apply', retrieveStep_program, ih, headerAt_succ]

/-- The bounds are those of the headers before the `i`th one. -/
structure Extremes (m : Memory 64) (elf : BitVec 64) (i : Nat) (s : RetrieveState) : Prop where
  lowest_le : ∀ j < i, IsLoad m elf j → s.lowestMem.toNat ≤ (segmentAt m elf j).vAddr
  lowest_mem : s.lowestMem = BitVec.allOnes 64 ∨
    ∃ j < i, IsLoad m elf j ∧ (segmentAt m elf j).vAddr = s.lowestMem.toNat
  le_highest : ∀ j < i, IsLoad m elf j → (segmentAt m elf j).memoryEnd % 2 ^ 64 ≤ s.highestMem.toNat
  highest_mem : s.highestMem = 0 ∨
    ∃ j < i, IsLoad m elf j ∧ (segmentAt m elf j).memoryEnd % 2 ^ 64 = s.highestMem.toNat

theorem memoryEnd_toNat (m : Memory 64) (elf : BitVec 64) (i : Nat) :
    (ELFProgramHeader.vAddr m (headerAt m elf i) + ELFProgramHeader.sizeInMemory m (headerAt m elf i)).toNat =
      (segmentAt m elf i).memoryEnd % 2 ^ 64 :=
  BitVec.toNat_add _ _

theorem retrieveStep_extremes (hi : i < (ELFHeader.programHeaderCount m elf).toNat) {s : RetrieveState}
    (hprogram : s.program = headerAt m elf i) (h : Extremes m elf i s) :
    Extremes m elf (i + 1) (retrieveStep m elf s) := by
  unfold retrieveStep
  rw [hprogram]
  dsimp only
  split
  · next htype =>
    have hload : IsLoad m elf i := ⟨hi, htype⟩
    constructor
    · intro j hj hjload
      rw [min64_toNat]
      rcases Nat.lt_succ_iff_lt_or_eq.mp hj with hlt | rfl
      · exact (Nat.min_le_left _ _).trans (h.lowest_le j hlt hjload)
      · exact Nat.min_le_right _ _
    · dsimp only
      rcases min64_choice s.lowestMem (ELFProgramHeader.vAddr m (headerAt m elf i)) with heq | heq
      · rw [heq]
        exact h.lowest_mem.imp_right fun ⟨j, hj, hjload⟩ => ⟨j, by omega, hjload⟩
      · rw [heq]
        exact Or.inr ⟨i, by omega, hload, rfl⟩
    · intro j hj hjload
      rw [max64_toNat, memoryEnd_toNat]
      rcases Nat.lt_succ_iff_lt_or_eq.mp hj with hlt | rfl
      · exact (h.le_highest j hlt hjload).trans (Nat.le_max_left _ _)
      · exact Nat.le_max_right _ _
    · dsimp only
      rcases max64_choice s.highestMem (ELFProgramHeader.vAddr m (headerAt m elf i) +
        ELFProgramHeader.sizeInMemory m (headerAt m elf i)) with heq | heq
      · rw [heq]
        exact h.highest_mem.imp_right fun ⟨j, hj, hjload⟩ => ⟨j, by omega, hjload⟩
      · rw [heq]
        exact Or.inr ⟨i, by omega, hload, (memoryEnd_toNat m elf i).symm⟩
  · next htype =>
    have hskip : ∀ j < i + 1, IsLoad m elf j → j < i := by
      intro j hj hjload
      rcases Nat.lt_succ_iff_lt_or_eq.mp hj with hlt | rfl
      · exact hlt
      · exact absurd hjload.2 htype
    constructor
    · exact fun j hj hjload => h.lowest_le j (hskip j hj hjload) hjload
    · exact h.lowest_mem.imp_right fun ⟨j, hj, hjload⟩ => ⟨j, by omega, hjload⟩
    · exact fun j hj hjload => h.le_highest j (hskip j hj hjload) hjload
    · exact h.highest_mem.imp_right fun ⟨j, hj, hjload⟩ => ⟨j, by omega, hjload⟩

theorem retrieve_extremes (hi : i ≤ (ELFHeader.programHeaderCount m elf).toNat) :
    Extremes m elf i ((retrieveStep m elf)^[i] (retrieveStart m elf)) := by
  induction i with
  | zero =>
    exact ⟨fun j hj => absurd hj (Nat.not_lt_zero j), Or.inl rfl, fun j hj => absurd hj (Nat.not_lt_zero j), Or.inl rfl⟩
  | succ i ih =>
    rw [Function.iterate_succ_apply']
    exact retrieveStep_extremes hi (retrieve_program m elf i) (ih (by omega))

def vAddrs (m : Memory 64) (elf : BitVec 64) : Set Nat := {v | ∃ i, IsLoad m elf i ∧ (segmentAt m elf i).vAddr = v}

def memoryEnds (m : Memory 64) (elf : BitVec 64) : Set Nat :=
  {e | ∃ i, IsLoad m elf i ∧ (segmentAt m elf i).memoryEnd = e}

theorem IsLoad.count_pos (h : IsLoad m elf i) : 0 < (ELFHeader.programHeaderCount m elf).toNat :=
  Nat.lt_of_le_of_lt (Nat.zero_le i) h.1

theorem vAddr_lt (m : Memory 64) (elf : BitVec 64) (i : Nat) : (segmentAt m elf i).vAddr < 2 ^ 64 :=
  (ELFProgramHeader.vAddr m (headerAt m elf i)).isLt

/-- The bounds that `RetrieveELFInfo` computes, where the ends of the segments wrap. -/
theorem retrieveELFInfo_extremes (h : ∃ i, IsLoad m elf i) :
    IsLeast (vAddrs m elf) (retrieveELFInfo m elf).executiveBase.toNat ∧
      ∃ top, IsGreatest ((· % 2 ^ 64) '' memoryEnds m elf) top ∧ (retrieveELFInfo m elf).executiveSize.toNat =
        (2 ^ 64 - (retrieveELFInfo m elf).executiveBase.toNat + top) % 2 ^ 64 := by
  obtain ⟨i, hi⟩ := h
  have hloop := retrieve_extremes (Nat.le_refl (ELFHeader.programHeaderCount m elf).toNat)
  rw [← doWhile_count _ hi.count_pos] at hloop
  have hinfo : retrieveELFInfo m elf =
      let s := doWhile (retrieveStep m elf) ((ELFHeader.programHeaderCount m elf).setWidth 32) (retrieveStart m elf)
      ⟨s.highestMem - s.lowestMem, s.lowestMem⟩ := rfl
  rw [hinfo]
  generalize doWhile (retrieveStep m elf) ((ELFHeader.programHeaderCount m elf).setWidth 32) (retrieveStart m elf) = s
    at hloop
  dsimp only
  refine ⟨⟨?_, ?_⟩, s.highestMem.toNat, ⟨?_, ?_⟩, BitVec.toNat_sub _ _⟩
  · rcases hloop.lowest_mem with hnone | ⟨j, -, hj, heq⟩
    · -- `lowestMem` is still `~0`, so every segment is there.
      have hle := hloop.lowest_le i hi.1 hi
      have hlt := vAddr_lt m elf i
      rw [hnone] at hle ⊢
      exact ⟨i, hi, by simp only [BitVec.toNat_allOnes] at hle ⊢; omega⟩
    · exact ⟨j, hj, heq⟩
  · rintro v ⟨j, hj, rfl⟩
    exact hloop.lowest_le j hj.1 hj
  · rcases hloop.highest_mem with hnone | ⟨j, -, hj, heq⟩
    · have hle := hloop.le_highest i hi.1 hi
      rw [hnone] at hle ⊢
      exact ⟨_, ⟨i, hi, rfl⟩, Nat.le_zero.mp hle⟩
    · exact ⟨_, ⟨j, hj, rfl⟩, heq⟩
  · rintro e ⟨_, ⟨j, hj, rfl⟩, rfl⟩
    exact hloop.le_highest j hj.1 hj

end Retrieve

/-! ## `LoadELF` -/

section Load

variable {m m' : Memory 64} {elf trg base : BitVec 64} {i j : Nat}

/-- The zeros after the data of the segment at `a`. -/
def Segment.zero (s : Segment) (a : BitVec 64) (m : Memory 64) : Memory 64 :=
  if s.sizeInFile < s.sizeInMemory then m.fill (a + BitVec.ofNat 64 s.sizeInFile) 0 (s.sizeInMemory - s.sizeInFile)
  else m

theorem zero_sameOutside (s : Segment) (a : BitVec 64) (m : Memory 64) :
    SameOutside (window (a + BitVec.ofNat 64 s.sizeInFile) (s.sizeInMemory - s.sizeInFile)) m (s.zero a m) := by
  unfold Segment.zero
  split
  · exact put_sameOutside
  · exact SameOutside.refl _ _

theorem zero_written {s : Segment} {a x : BitVec 64}
    (hx : x ∈ window (a + BitVec.ofNat 64 s.sizeInFile) (s.sizeInMemory - s.sizeInFile)) :
    (s.zero a m).written x = true := by
  have hpos : 0 < s.sizeInMemory - s.sizeInFile := Nat.lt_of_le_of_lt (Nat.zero_le _) hx
  unfold Segment.zero
  rw [if_pos (by omega)]
  exact put_written hx

theorem window_max {s : Segment} {a : BitVec 64} :
    window a (max s.sizeInFile s.sizeInMemory) =
      window (a + BitVec.ofNat 64 s.sizeInFile) (s.sizeInMemory - s.sizeInFile) ∪ window a s.sizeInFile := by
  apply Set.Subset.antisymm
  · intro x hx
    obtain ⟨k, hk, rfl⟩ := mem_window_iff.mp hx
    rcases Nat.lt_or_ge k s.sizeInFile with hdata | hzero
    · exact Or.inr (mem_window_add hdata)
    · left
      have hoff : BitVec.ofNat 64 k = BitVec.ofNat 64 s.sizeInFile + BitVec.ofNat 64 (k - s.sizeInFile) := by
        rw [← BitVec.ofNat_add, Nat.add_sub_cancel' hzero]
      rw [hoff, ← BitVec.add_assoc]
      exact mem_window_add (by omega)
  · rintro x (hx | hx)
    · rcases Nat.le_total s.sizeInMemory s.sizeInFile with hle | hle
      · rw [Nat.sub_eq_zero_of_le hle] at hx
        exact absurd hx (Nat.not_lt_zero _)
      · exact window_subset (by omega) hx
    · exact window_mono (Nat.le_max_left _ _) hx

theorem loadProgram_zero (hi : IsLoad m elf i) (hm' : AgreeOn (Headers m elf) m m') :
    let s := segmentAt m elf i
    let a := s.target trg base
    loadProgram elf trg base (headerAt m elf i) m' =
      (s.zero a m').copy a (elf + ELFProgramHeader.dataOffset (s.zero a m') (headerAt m elf i))
        (ELFProgramHeader.sizeInFile (s.zero a m') (headerAt m elf i)).toNat := by
  intro s a
  obtain ⟨htype, -, hvAddr, hsizeInFile, hsizeInMemory⟩ := programHeader_congr (hm'.mono (programHeader_subset hi.1))
  have hloadAddr : trg + ELFProgramHeader.vAddr m (headerAt m elf i) - base = a := by
    unfold a Segment.target
    rw [segmentAt_vAddr, BitVec.ofNat_toNat, BitVec.setWidth_eq, BitVec.sub_eq_add_neg, BitVec.sub_eq_add_neg,
      BitVec.add_assoc]
  have hfile : BitVec.ofNat 64 s.sizeInFile = ELFProgramHeader.sizeInFile m (headerAt m elf i) := by
    unfold s
    rw [segmentAt_sizeInFile, BitVec.ofNat_toNat, BitVec.setWidth_eq]
  have hzero : (if ELFProgramHeader.sizeInMemory m (headerAt m elf i) > ELFProgramHeader.sizeInFile m (headerAt m elf i)
      then m'.fill (a + ELFProgramHeader.sizeInFile m (headerAt m elf i)) 0
        (ELFProgramHeader.sizeInMemory m (headerAt m elf i) - ELFProgramHeader.sizeInFile m (headerAt m elf i)).toNat
      else m') = s.zero a m' := by
    unfold Segment.zero
    rw [hfile]
    split
    · next hlt =>
      have hrest : (ELFProgramHeader.sizeInMemory m (headerAt m elf i) -
          ELFProgramHeader.sizeInFile m (headerAt m elf i)).toNat = s.sizeInMemory - s.sizeInFile :=
        BitVec.toNat_sub_of_le (BitVec.le_of_lt hlt)
      rw [if_pos (show s.sizeInFile < s.sizeInMemory from BitVec.lt_def.mp hlt), hrest]
    · next hge => rw [if_neg (show ¬ s.sizeInFile < s.sizeInMemory from fun hlt => hge (BitVec.lt_def.mpr hlt))]
  unfold loadProgram
  dsimp only
  rw [htype, if_pos hi.2, hvAddr, hsizeInFile, hsizeInMemory, hloadAddr, hzero]

theorem loadProgram_eq (hi : IsLoad m elf i) (hm' : AgreeOn (Headers m elf) m m')
    (hzero : AgreeOn (Headers m elf) m' ((segmentAt m elf i).zero ((segmentAt m elf i).target trg base) m')) :
    let s := segmentAt m elf i
    let a := s.target trg base
    loadProgram elf trg base (headerAt m elf i) m' =
      (s.zero a m').copy a (elf + BitVec.ofNat 64 s.dataOffset) s.sizeInFile := by
  intro s a
  have hoffset : BitVec.ofNat 64 s.dataOffset = ELFProgramHeader.dataOffset m (headerAt m elf i) := by
    unfold s
    rw [segmentAt_dataOffset, BitVec.ofNat_toNat, BitVec.setWidth_eq]
  have hagree : AgreeOn (Headers m elf) m (s.zero a m') := hm'.trans hzero
  obtain ⟨-, hdataOffset, -, hsizeInFile, -⟩ := programHeader_congr (hagree.mono (programHeader_subset hi.1))
  rw [loadProgram_zero hi hm', hdataOffset, hsizeInFile, hoffset]
  rfl

theorem stores_skip (hi : i < (ELFHeader.programHeaderCount m elf).toNat) (hload : ¬ IsLoad m elf i)
    (hm' : AgreeOn (Headers m elf) m m') : loadProgram elf trg base (headerAt m elf i) m' = m' := by
  unfold loadProgram
  rw [(programHeader_congr (hm'.mono (programHeader_subset hi))).1]
  exact if_neg fun htype => hload ⟨hi, htype⟩

theorem target_eq {s : Segment} (h : base.toNat ≤ s.vAddr) :
    s.target trg base = trg + BitVec.ofNat 64 (s.vAddr - base.toNat) := by
  unfold Segment.target
  congr 1
  bv_omega

theorem stores_eq (hi : IsLoad m elf i) :
    Stores m elf trg base i = window ((segmentAt m elf i).target trg base)
      (max (segmentAt m elf i).sizeInFile (segmentAt m elf i).sizeInMemory) := by
  apply Set.Subset.antisymm
  · exact fun x hx => hx.2
  · exact fun x hx => ⟨hi, hx⟩

theorem zero_subset (hi : IsLoad m elf i) :
    window ((segmentAt m elf i).target trg base + BitVec.ofNat 64 (segmentAt m elf i).sizeInFile)
      ((segmentAt m elf i).sizeInMemory - (segmentAt m elf i).sizeInFile) ⊆ Stores m elf trg base i := by
  rw [stores_eq hi, window_max]
  exact Set.subset_union_left

/-- The body of the loop stores what its header says, if that spares the headers. -/
theorem loadProgram_frame (hi : i < (ELFHeader.programHeaderCount m elf).toNat) (hm' : AgreeOn (Headers m elf) m m')
    (hapart : Disjoint (Stores m elf trg base i) (Headers m elf)) :
    SameOutside (Stores m elf trg base i) m' (loadProgram elf trg base (headerAt m elf i) m') := by
  by_cases hload : IsLoad m elf i
  · have hzero := zero_sameOutside (segmentAt m elf i) ((segmentAt m elf i).target trg base) m'
    have hkept := hzero.agreeOn (hapart.mono_left (zero_subset hload))
    rw [loadProgram_eq hload hm' hkept]
    apply (hzero.mono (zero_subset hload)).trans
    apply put_sameOutside.mono
    rw [stores_eq hload]
    exact window_mono (Nat.le_max_left _ _)
  · rw [stores_skip hi hload hm']
    exact SameOutside.refl _ _

/-- The memory after the headers before the `i`th. -/
def loadedUpTo (m : Memory 64) (elf trg base : BitVec 64) (i : Nat) : Memory 64 :=
  (List.range i).foldl (fun m' j => loadProgram elf trg base (headerAt m elf j) m') m

theorem loadedUpTo_succ (m : Memory 64) (elf trg base : BitVec 64) (i : Nat) :
    loadedUpTo m elf trg base (i + 1) =
      loadProgram elf trg base (headerAt m elf i) (loadedUpTo m elf trg base i) := by
  unfold loadedUpTo
  rw [List.range_succ, List.foldl_append]
  rfl

theorem stores_mono (hij : i ≤ j) :
    (⋃ k ∈ List.range i, Stores m elf trg base k) ⊆ ⋃ k ∈ List.range j, Stores m elf trg base k :=
  Set.biUnion_subset_biUnion_left fun _ hk => List.mem_range.mpr ((List.mem_range.mp hk).trans_le hij)

/-- As long as the headers are spared, `program` walks over them. -/
theorem load_run (hapart : ∀ j < i, Disjoint (Stores m elf trg base j) (Headers m elf))
    (hi : i ≤ (ELFHeader.programHeaderCount m elf).toNat) :
    (loadStep elf trg base)^[i] (m, elf + ELFHeader.programHeaderOffset m elf) =
        (loadedUpTo m elf trg base i, headerAt m elf i) ∧
      SameOutside (⋃ j ∈ List.range i, Stores m elf trg base j) m (loadedUpTo m elf trg base i) := by
  induction i with
  | zero =>
    rw [headerAt_zero]
    exact ⟨rfl, SameOutside.refl _ _⟩
  | succ i ih =>
    obtain ⟨hrun, hframe⟩ := ih (fun j hj => hapart j (by omega)) (by omega)
    have hagree := hframe.agreeOn_iUnion fun j hj => hapart j (by have := List.mem_range.mp hj; omega)
    have hnext := loadProgram_frame hi hagree (hapart i (by omega))
    have hlast : i ∈ List.range (i + 1) := List.mem_range.mpr (Nat.lt_succ_self i)
    have hframe' : SameOutside (⋃ j ∈ List.range (i + 1), Stores m elf trg base j) m
        (loadedUpTo m elf trg base (i + 1)) := by
      rw [loadedUpTo_succ]
      exact (hframe.mono (stores_mono (Nat.le_succ i))).trans (hnext.mono (Set.subset_biUnion_of_mem hlast))
    refine ⟨?_, hframe'⟩
    have hagree' := hframe'.agreeOn_iUnion fun j hj => hapart j (List.mem_range.mp hj)
    have hsize := (header_congr (hagree'.mono header_subset)).2
    rw [Function.iterate_succ_apply', hrun]
    unfold loadStep
    dsimp only
    rw [← loadedUpTo_succ, hsize, headerAt_succ]

end Load

/-! ## Which headers are looked at -/

section Visits

variable {m : Memory 64} {elf trg : BitVec 64}

/-- The headers that `RetrieveELFInfo` looks at, in its order. -/
def retrieveVisits (m : Memory 64) (elf : BitVec 64) : List (BitVec 64) :=
  let headersLeft := (ELFHeader.programHeaderCount m elf).setWidth 32
  (doWhile (logged (retrieveStep m elf)) headersLeft (retrieveStart m elf, [])).2.map RetrieveState.program

/-- The headers that `LoadELF` looks at, in its order. -/
def loadVisits (m : Memory 64) (elf trg : BitVec 64) (info : ELFInfo) : List (BitVec 64) :=
  let program := elf + ELFHeader.programHeaderOffset m elf
  let headersLeft := (ELFHeader.programHeaderCount m elf).setWidth 32
  (doWhile (logged (loadStep elf trg info.executiveBase)) headersLeft ((m, program), [])).2.map Prod.snd

/-- Both loops look at the headers that there are, and the bounds are those of the segments. -/
structure Walks (m : Memory 64) (elf trg : BitVec 64) : Prop where
  retrieve : retrieveVisits m elf = (List.range (ELFHeader.programHeaderCount m elf).toNat).map (headerAt m elf)
  load : loadVisits m elf trg (retrieveELFInfo m elf) =
    (List.range (ELFHeader.programHeaderCount m elf).toNat).map (headerAt m elf)
  bounds : (∃ i, IsLoad m elf i) → (∀ i, IsLoad m elf i → (segmentAt m elf i).memoryEnd < 2 ^ 64) →
    IsLeast (vAddrs m elf) (retrieveELFInfo m elf).executiveBase.toNat ∧
      ∃ top, IsGreatest (memoryEnds m elf) top ∧
        (retrieveELFInfo m elf).executiveSize.toNat = top - (retrieveELFInfo m elf).executiveBase.toNat

/-- `LoadELF` has not stored another `programHeaderSize` when it goes on to the next header. -/
def KeepsStride (m : Memory 64) (elf trg : BitVec 64) : Prop :=
  ∀ i, i + 1 < (ELFHeader.programHeaderCount m elf).toNat →
    ELFHeader.programHeaderSize ((loadStep elf trg (retrieveELFInfo m elf).executiveBase)^[i + 1]
      (m, elf + ELFHeader.programHeaderOffset m elf)).1 elf = ELFHeader.programHeaderSize m elf

theorem retrieveVisits_eq (m : Memory 64) (elf : BitVec 64) :
    retrieveVisits m elf =
      (List.range (((ELFHeader.programHeaderCount m elf).setWidth 32 - 1).toNat + 1)).map (headerAt m elf) := by
  unfold retrieveVisits
  dsimp only
  rw [doWhile_logged, List.map_map]
  exact List.map_congr_left fun i _ => retrieve_program m elf i

theorem loadVisits_eq (hpos : 0 < (ELFHeader.programHeaderCount m elf).toNat) (info : ELFInfo) :
    loadVisits m elf trg info = (List.range (ELFHeader.programHeaderCount m elf).toNat).map fun i =>
      ((loadStep elf trg info.executiveBase)^[i] (m, elf + ELFHeader.programHeaderOffset m elf)).2 := by
  unfold loadVisits
  dsimp only
  rw [doWhile_logged, doWhile_rounds hpos, List.map_map]
  rfl

theorem setWidth_inj {a b : BitVec 16} (h : a.setWidth 64 = b.setWidth 64) : a = b := by bv_omega

theorem load_program_iff {base : BitVec 64} {n : Nat} :
    (∀ i < n, ((loadStep elf trg base)^[i] (m, elf + ELFHeader.programHeaderOffset m elf)).2 = headerAt m elf i) ↔
      ∀ i, i + 1 < n → ELFHeader.programHeaderSize ((loadStep elf trg base)^[i + 1]
        (m, elf + ELFHeader.programHeaderOffset m elf)).1 elf = ELFHeader.programHeaderSize m elf := by
  have hnext : ∀ i, ((loadStep elf trg base)^[i + 1] (m, elf + ELFHeader.programHeaderOffset m elf)).2 =
      ((loadStep elf trg base)^[i] (m, elf + ELFHeader.programHeaderOffset m elf)).2 +
        (ELFHeader.programHeaderSize ((loadStep elf trg base)^[i + 1]
          (m, elf + ELFHeader.programHeaderOffset m elf)).1 elf).setWidth 64 := by
    intro i
    rw [Function.iterate_succ_apply']
    rfl
  constructor
  · intro h i hi
    have hstep := hnext i
    rw [h (i + 1) hi, h i (by omega), headerAt_succ, BitVec.add_right_inj] at hstep
    exact (setWidth_inj hstep).symm
  · intro h i hi
    induction i with
    | zero => exact headerAt_zero.symm
    | succ i ih => rw [hnext, ih (by omega), h i hi, headerAt_succ]

theorem retrieveELFInfo_bounds (h : ∃ i, IsLoad m elf i)
    (hwrap : ∀ i, IsLoad m elf i → (segmentAt m elf i).memoryEnd < 2 ^ 64) :
    IsLeast (vAddrs m elf) (retrieveELFInfo m elf).executiveBase.toNat ∧
      ∃ top, IsGreatest (memoryEnds m elf) top ∧
        (retrieveELFInfo m elf).executiveSize.toNat = top - (retrieveELFInfo m elf).executiveBase.toNat := by
  obtain ⟨hbase, top, htop, hsize⟩ := retrieveELFInfo_extremes h
  have hmod : (· % 2 ^ 64) '' memoryEnds m elf = memoryEnds m elf := by
    apply Set.Subset.antisymm
    · rintro e ⟨_, ⟨i, hi, rfl⟩, rfl⟩
      exact ⟨i, hi, (Nat.mod_eq_of_lt (hwrap i hi)).symm⟩
    · rintro e ⟨i, hi, rfl⟩
      exact ⟨_, ⟨i, hi, rfl⟩, Nat.mod_eq_of_lt (hwrap i hi)⟩
  rw [hmod] at htop
  obtain ⟨⟨i, hi, heq⟩, -⟩ := id htop
  have hle : (retrieveELFInfo m elf).executiveBase.toNat ≤ (segmentAt m elf i).vAddr := hbase.2 ⟨i, hi, rfl⟩
  have hlt := hwrap i hi
  refine ⟨hbase, top, htop, ?_⟩
  unfold Segment.memoryEnd at heq hlt
  omega

theorem keepsStride_of_spared (h : ∀ i < (ELFHeader.programHeaderCount m elf).toNat,
    Disjoint (Stores m elf trg (retrieveELFInfo m elf).executiveBase i) (Headers m elf)) :
    KeepsStride m elf trg := by
  intro i hi
  obtain ⟨hrun, hframe⟩ := load_run (i := i + 1) (fun j hj => h j (by omega)) (by omega)
  have hagree := hframe.agreeOn_iUnion fun j hj => h j (by have := List.mem_range.mp hj; omega)
  rw [hrun]
  exact (header_congr (hagree.mono header_subset)).2

theorem Walks.count_ne_zero (h : Walks m elf trg) : (ELFHeader.programHeaderCount m elf).toNat ≠ 0 := by
  intro hzero
  have hlength := congrArg List.length h.retrieve
  rw [retrieveVisits_eq, List.length_map, List.length_map, List.length_range, List.length_range,
    doWhile_rounds_zero hzero, hzero] at hlength
  exact absurd hlength (by decide)

/-- The walks are right exactly if there is a program header and `LoadELF` does not change the distance
between the headers under its feet, as it cannot do where its segments spare the headers. -/
theorem walks_iff (m : Memory 64) (elf trg : BitVec 64) :
    (Walks m elf trg ↔ (ELFHeader.programHeaderCount m elf).toNat ≠ 0 ∧ KeepsStride m elf trg) ∧
      ((∀ i < (ELFHeader.programHeaderCount m elf).toNat,
        Disjoint (Stores m elf trg (retrieveELFInfo m elf).executiveBase i) (Headers m elf)) →
      KeepsStride m elf trg) := by
  refine ⟨⟨?_, ?_⟩, keepsStride_of_spared⟩
  · intro h
    have hload := h.load
    rw [loadVisits_eq (Nat.pos_of_ne_zero h.count_ne_zero), List.map_inj_left] at hload
    exact ⟨h.count_ne_zero, load_program_iff.mp fun i hi => hload i (List.mem_range.mpr hi)⟩
  · rintro ⟨hcount, hstride⟩
    constructor
    · rw [retrieveVisits_eq, doWhile_rounds (Nat.pos_of_ne_zero hcount)]
    · rw [loadVisits_eq (Nat.pos_of_ne_zero hcount), List.map_inj_left]
      exact fun i hi => load_program_iff.mpr hstride i (List.mem_range.mp hi)
    · exact retrieveELFInfo_bounds

end Visits

/-- A memory with an ELF header at 4096 that has no program headers. -/
def bareMemory : Memory 64 where
  byte x := [0x7F, 0x45, 0x4C, 0x46, 2, 1, 1, 0, 0, 0, 0, 0, 0, 0, 0, 0, 3].getD (x - 4096).toNat 0
  written _ := false

theorem walks_fails :
    validateELF bareMemory 4096 = true ∧ (ELFHeader.programHeaderCount bareMemory 4096).toNat = 0 ∧
      (retrieveVisits bareMemory 4096).length = 2 ^ 32 ∧ ¬ Walks bareMemory 4096 65536 := by
  have hcount : (ELFHeader.programHeaderCount bareMemory 4096).toNat = 0 := by decide +kernel
  refine ⟨by decide +kernel, hcount, ?_, fun h => h.count_ne_zero hcount⟩
  rw [retrieveVisits_eq, List.length_map, List.length_range, doWhile_rounds_zero hcount]

end GenericOs.Elf
