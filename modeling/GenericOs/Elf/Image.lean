import GenericOs.Elf.Walk

/-!
# A loaded image

`RetrieveELFInfo` and `LoadELF` walk over the program headers of the file. `Loadable` is
what the caller has to check, and `Image` is what the two walks then achieve together:
every segment is in the buffer and nothing else has changed.
-/

namespace GenericOs.Elf

open Bytes

/-! ## What a file has to say -/

def Segment.range (s : Segment) : Set Nat := Set.Ico s.vAddr (s.vAddr + s.sizeInMemory)

/-- The file at `elf` has `fileSize` bytes and is fit for loading. -/
structure Loadable (m : Memory 64) (elf : BitVec 64) (fileSize : Nat) : Prop where
  valid : validateELF m elf = true
  header_inside : sizeofELFHeader ≤ fileSize
  headers_inside : ∀ i < (ELFHeader.programHeaderCount m elf).toNat,
    (ELFHeader.programHeaderOffset m elf).toNat + i * (ELFHeader.programHeaderSize m elf).toNat
      + sizeofELFProgramHeader ≤ fileSize
  data_inside : ∀ i, IsLoad m elf i → (segmentAt m elf i).dataOffset + (segmentAt m elf i).sizeInFile ≤ fileSize
  some_load : ∃ i, IsLoad m elf i
  file_le_memory : ∀ i, IsLoad m elf i → (segmentAt m elf i).sizeInFile ≤ (segmentAt m elf i).sizeInMemory
  no_wrap : ∀ i, IsLoad m elf i → (segmentAt m elf i).vAddr + (segmentAt m elf i).sizeInMemory < 2 ^ 64
  apart : ∀ i j, IsLoad m elf i → IsLoad m elf j → i ≠ j →
    Disjoint (segmentAt m elf i).range (segmentAt m elf j).range

/-- From `m`, the memory `m'` and the result `entry` are those of a faithful load. -/
structure Image (m : Memory 64) (elf trg : BitVec 64) (info : ELFInfo) (m' : Memory 64) (entry : BitVec 64) :
    Prop where
  data : ∀ i, IsLoad m elf i → ∀ k < (segmentAt m elf i).sizeInFile,
    m'.byte ((segmentAt m elf i).target trg info.executiveBase + BitVec.ofNat 64 k) =
      m.byte (elf + BitVec.ofNat 64 ((segmentAt m elf i).dataOffset + k))
  zeros : ∀ i, IsLoad m elf i → ∀ k, (segmentAt m elf i).sizeInFile ≤ k → k < (segmentAt m elf i).sizeInMemory →
    m'.byte ((segmentAt m elf i).target trg info.executiveBase + BitVec.ofNat 64 k) = 0
  frame : SameOutside
    (⋃ i, ⋃ (_ : IsLoad m elf i),
      window ((segmentAt m elf i).target trg info.executiveBase) (segmentAt m elf i).sizeInMemory) m m'
  inside : SameOutside (window trg info.executiveSize.toNat) m m'
  entry : entry = trg + ELFHeader.entry m elf - info.executiveBase

/-! ## `RetrieveELFInfo` -/

section Retrieve

variable {m : Memory 64} {elf : BitVec 64} {i j fileSize : Nat}

theorem headerAt_inside (h : Loadable m elf fileSize)
    (hi : i < (ELFHeader.programHeaderCount m elf).toNat) :
    window (headerAt m elf i) sizeofELFProgramHeader ⊆ window elf fileSize :=
  window_subset (h.headers_inside i hi)

/-- After `i` rounds `program` is at the `i`th header and the bounds hold for the headers before it. -/
structure Retrieved (m : Memory 64) (elf : BitVec 64) (i : Nat) (s : RetrieveState) : Prop where
  program : s.program = headerAt m elf i
  lowest : ∀ j < i, IsLoad m elf j → s.lowestMem.toNat ≤ (segmentAt m elf j).vAddr
  highest : ∀ j < i, IsLoad m elf j →
    (segmentAt m elf j).vAddr + (segmentAt m elf j).sizeInMemory ≤ s.highestMem.toNat

theorem retrieve_run (hload : Loadable m elf fileSize) (hi : i ≤ (ELFHeader.programHeaderCount m elf).toNat) :
    Retrieved m elf i ((retrieveStep m elf)^[i] (retrieveStart m elf)) := by
  have h := retrieve_extremes hi
  refine ⟨retrieve_program m elf i, h.lowest_le, fun j hj hjload => ?_⟩
  have hle := h.le_highest j hj hjload
  unfold Segment.memoryEnd at hle
  rwa [Nat.mod_eq_of_lt (hload.no_wrap j hjload)] at hle

/-- Every segment lies between the base and the end of the buffer. -/
theorem retrieveELFInfo_spec (hload : Loadable m elf fileSize) (hj : IsLoad m elf j) :
    (retrieveELFInfo m elf).executiveBase.toNat ≤ (segmentAt m elf j).vAddr ∧
      (segmentAt m elf j).vAddr - (retrieveELFInfo m elf).executiveBase.toNat + (segmentAt m elf j).sizeInMemory ≤
        (retrieveELFInfo m elf).executiveSize.toNat := by
  have hrun := retrieve_run hload (Nat.le_refl (ELFHeader.programHeaderCount m elf).toNat)
  rw [← doWhile_count _ hj.count_pos] at hrun
  have hlow := hrun.lowest j hj.1 hj
  have hhigh := hrun.highest j hj.1 hj
  unfold retrieveELFInfo
  change _ ∧ _ ≤ (RetrieveState.highestMem _ - RetrieveState.lowestMem _).toNat
  rw [BitVec.toNat_sub_of_le (BitVec.le_def.mpr (by unfold retrieveStart at *; omega))]
  unfold retrieveStart at hlow hhigh
  exact ⟨hlow, by simp only; omega⟩

end Retrieve

/-! ## `LoadELF` -/

section Load

variable {m m' : Memory 64} {elf trg base : BitVec 64} {i j fileSize : Nat}

/-- The bytes that the `i`th header is to fill. -/
def Filled (m : Memory 64) (elf trg base : BitVec 64) (i : Nat) : Set (BitVec 64) :=
  {x | IsLoad m elf i ∧ x ∈ window ((segmentAt m elf i).target trg base) (segmentAt m elf i).sizeInMemory}

def content (m : Memory 64) (elf trg base : BitVec 64) (i : Nat) (x : BitVec 64) : BitVec 8 :=
  let s := segmentAt m elf i
  let k := (x - s.target trg base).toNat
  if k < s.sizeInFile then m.byte (elf + BitVec.ofNat 64 (s.dataOffset + k)) else 0

theorem content_add {k : Nat} (hk : k < 2 ^ 64) :
    content m elf trg base i ((segmentAt m elf i).target trg base + BitVec.ofNat 64 k) =
      if k < (segmentAt m elf i).sizeInFile then
        m.byte (elf + BitVec.ofNat 64 (segmentAt m elf i).dataOffset + BitVec.ofNat 64 k)
      else 0 := by
  unfold content
  dsimp only
  rw [offset_toNat, Nat.mod_eq_of_lt hk, BitVec.ofNat_add, ← BitVec.add_assoc]

theorem filled_subset (hi : IsLoad m elf i) :
    window ((segmentAt m elf i).target trg base) (segmentAt m elf i).sizeInMemory ⊆ Filled m elf trg base i :=
  fun _ hx => ⟨hi, hx⟩

theorem filled_inside (hload : Loadable m elf fileSize) :
    Filled m elf trg (retrieveELFInfo m elf).executiveBase i ⊆
      window trg (retrieveELFInfo m elf).executiveSize.toNat := by
  rintro x ⟨hi, hx⟩
  obtain ⟨hbase, hend⟩ := retrieveELFInfo_spec hload hi
  rw [target_eq hbase] at hx
  exact window_subset hend hx

theorem filled_apart (hload : Loadable m elf fileSize) (hij : i ≠ j) :
    Disjoint (Filled m elf trg (retrieveELFInfo m elf).executiveBase i)
      (Filled m elf trg (retrieveELFInfo m elf).executiveBase j) := by
  rw [Set.disjoint_left]
  rintro x ⟨hi, hxi⟩ ⟨hj, hxj⟩
  have hbi := (retrieveELFInfo_spec hload hi).1
  have hbj := (retrieveELFInfo_spec hload hj).1
  have hwi := hload.no_wrap i hi
  have hwj := hload.no_wrap j hj
  rw [target_eq hbi] at hxi
  rw [target_eq hbj] at hxj
  apply Set.disjoint_left.mp (window_disjoint _ _ _) hxi hxj
  · omega
  · omega
  · -- The offsets are the virtual addresses less the base.
    have hranges := hload.apart i j hi hj hij
    unfold Segment.range at hranges
    rw [Set.disjoint_left] at hranges ⊢
    intro d hdi hdj
    rw [Set.mem_Ico] at hdi hdj
    apply @hranges (d + (retrieveELFInfo m elf).executiveBase.toNat)
    · rw [Set.mem_Ico]
      omega
    · rw [Set.mem_Ico]
      omega

/-- Zeros after the data, and the data before them. -/
theorem zero_copy_spec {s : Segment} {a src : BitVec 64} (hle : s.sizeInFile ≤ s.sizeInMemory)
    (hlt : s.sizeInMemory < 2 ^ 64) (hsrc : Disjoint (window a s.sizeInMemory) (window src s.sizeInFile))
    (hm' : AgreeOn (window src s.sizeInFile) m m') :
    SameOutside (window a s.sizeInMemory) m' ((s.zero a m').copy a src s.sizeInFile) ∧
      ∀ k < s.sizeInMemory, ((s.zero a m').copy a src s.sizeInFile).written (a + BitVec.ofNat 64 k) = true ∧
        ((s.zero a m').copy a src s.sizeInFile).byte (a + BitVec.ofNat 64 k) =
          if k < s.sizeInFile then m.byte (src + BitVec.ofNat 64 k) else 0 := by
  have hzero : SameOutside (window a s.sizeInMemory) m' (s.zero a m') :=
    (zero_sameOutside s a m').mono (window_subset (by omega))
  have hcopy : SameOutside (window a s.sizeInFile) (s.zero a m') ((s.zero a m').copy a src s.sizeInFile) :=
    put_sameOutside
  refine ⟨hzero.trans (hcopy.mono (window_mono hle)), ?_⟩
  intro k hk
  split
  · next hdata =>
    have hbyte : ((s.zero a m').copy a src s.sizeInFile).byte (a + BitVec.ofNat 64 k) =
        (s.zero a m').byte (src + BitVec.ofNat 64 k) := put_byte hdata (by omega)
    have hin : src + BitVec.ofNat 64 k ∈ window src s.sizeInFile := mem_window_add hdata
    refine ⟨put_written (mem_window_add hdata), ?_⟩
    rw [hbyte, hzero.agreeOn hsrc _ hin, hm' _ hin]
  · next hrest =>
    have hout : a + BitVec.ofNat 64 k ∉ window a s.sizeInFile := by
      unfold window
      rw [Set.mem_ofPred_eq, offset_toNat, Nat.mod_eq_of_lt (by omega)]
      exact hrest
    have hoff : a + BitVec.ofNat 64 k = a + BitVec.ofNat 64 s.sizeInFile + BitVec.ofNat 64 (k - s.sizeInFile) := by
      rw [BitVec.add_assoc, ← BitVec.ofNat_add, Nat.add_sub_cancel' (by omega)]
    rw [hcopy.byte _ hout, hcopy.written _ hout, hoff]
    refine ⟨zero_written (mem_window_add (by omega)), ?_⟩
    unfold Segment.zero
    rw [if_pos (by omega)]
    exact put_byte (by omega) (by omega)

theorem headers_subset (hload : Loadable m elf fileSize) : Headers m elf ⊆ window elf fileSize := by
  rintro x (hx | ⟨i, hi, hx⟩)
  · exact window_mono hload.header_inside hx
  · exact headerAt_inside hload hi hx

theorem stores_subset (hload : Loadable m elf fileSize) : Stores m elf trg base i ⊆ Filled m elf trg base i := by
  rintro x ⟨hi, hx⟩
  rw [Nat.max_eq_right (hload.file_le_memory i hi)] at hx
  exact ⟨hi, hx⟩

theorem data_subset (hload : Loadable m elf fileSize) (hi : IsLoad m elf i) :
    window (elf + BitVec.ofNat 64 (segmentAt m elf i).dataOffset) (segmentAt m elf i).sizeInFile ⊆ window elf fileSize :=
  window_subset (hload.data_inside i hi)

/-- The body of the loop fills the segment of its header. -/
theorem loadProgram_puts (hload : Loadable m elf fileSize) (hi : i < (ELFHeader.programHeaderCount m elf).toNat)
    (hapart : Disjoint (Filled m elf trg base i) (window elf fileSize)) :
    Puts (window elf fileSize) m (loadProgram elf trg base (headerAt m elf i)) (Filled m elf trg base i)
      (content m elf trg base i) := by
  by_cases hisLoad : IsLoad m elf i
  · have hle := hload.file_le_memory i hisLoad
    have hwrap := hload.no_wrap i hisLoad
    have heq : ∀ m', AgreeOn (window elf fileSize) m m' → loadProgram elf trg base (headerAt m elf i) m' =
        ((segmentAt m elf i).zero ((segmentAt m elf i).target trg base) m').copy ((segmentAt m elf i).target trg base)
          (elf + BitVec.ofNat 64 (segmentAt m elf i).dataOffset) (segmentAt m elf i).sizeInFile := by
      intro m' hm'
      apply loadProgram_eq hisLoad (hm'.mono (headers_subset hload))
      apply (zero_sameOutside _ _ m').agreeOn
      exact hapart.mono ((zero_subset hisLoad).trans (stores_subset hload)) (headers_subset hload)
    have hspec : ∀ m', AgreeOn (window elf fileSize) m m' → _ := fun m' hm' =>
      zero_copy_spec hle (Nat.lt_of_le_of_lt (Nat.le_add_left _ _) hwrap)
        (hapart.mono (filled_subset hisLoad) (data_subset hload hisLoad)) (hm'.mono (data_subset hload hisLoad))
    constructor
    · rintro m' hm' x ⟨-, hx⟩
      obtain ⟨k, hk, rfl⟩ := mem_window_iff.mp hx
      rw [heq m' hm', ((hspec m' hm').2 k hk).2, content_add (by omega)]
    · rintro m' hm' x ⟨-, hx⟩
      obtain ⟨k, hk, rfl⟩ := mem_window_iff.mp hx
      rw [heq m' hm']
      exact ((hspec m' hm').2 k hk).1
    · intro m' hm'
      rw [heq m' hm']
      exact (hspec m' hm').1.mono (filled_subset hisLoad)
  · constructor
    · rintro m' hm' x ⟨h, -⟩
      exact absurd h hisLoad
    · rintro m' hm' x ⟨h, -⟩
      exact absurd h hisLoad
    · intro m' hm'
      rw [stores_skip hi hisLoad (hm'.mono (headers_subset hload))]
      exact SameOutside.refl _ _

theorem filled_apart_file (hload : Loadable m elf fileSize)
    (hsep : Disjoint (window trg (retrieveELFInfo m elf).executiveSize.toNat) (window elf fileSize)) :
    Disjoint (Filled m elf trg (retrieveELFInfo m elf).executiveBase i) (window elf fileSize) :=
  hsep.mono_left (filled_inside hload)

theorem loadedUpTo_spec (hload : Loadable m elf fileSize)
    (hsep : Disjoint (window trg (retrieveELFInfo m elf).executiveSize.toNat) (window elf fileSize))
    (hi : i ≤ (ELFHeader.programHeaderCount m elf).toNat) :
    let base := (retrieveELFInfo m elf).executiveBase
    SameOutside (⋃ j ∈ List.range i, Filled m elf trg base j) m (loadedUpTo m elf trg base i) ∧
      ∀ j ∈ List.range i, ∀ x ∈ Filled m elf trg base j,
        (loadedUpTo m elf trg base i).byte x = content m elf trg base j x ∧
          (loadedUpTo m elf trg base i).written x = true := by
  apply Puts.run (K := window elf fileSize)
  · intro j hj
    exact loadProgram_puts hload (Nat.lt_of_lt_of_le (List.mem_range.mp hj) hi) (filled_apart_file hload hsep)
  · intro j hj
    exact filled_apart_file hload hsep
  · exact List.nodup_range.imp fun hne => filled_apart hload hne

theorem loadedUpTo_agree (hload : Loadable m elf fileSize)
    (hsep : Disjoint (window trg (retrieveELFInfo m elf).executiveSize.toNat) (window elf fileSize))
    (hi : i ≤ (ELFHeader.programHeaderCount m elf).toNat) :
    AgreeOn (window elf fileSize) m (loadedUpTo m elf trg (retrieveELFInfo m elf).executiveBase i) :=
  (loadedUpTo_spec hload hsep hi).1.agreeOn_iUnion fun _ _ => filled_apart_file hload hsep

theorem iUnion_filled_inside (hload : Loadable m elf fileSize) :
    (⋃ i, Filled m elf trg (retrieveELFInfo m elf).executiveBase i) ⊆
      window trg (retrieveELFInfo m elf).executiveSize.toNat :=
  Set.iUnion_subset fun _ => filled_inside hload

/-- `LoadELF` fills the segments with their contents, changes nothing else and returns the entry point. -/
theorem loadELF_spec (hload : Loadable m elf fileSize)
    (hsep : Disjoint (window trg (retrieveELFInfo m elf).executiveSize.toNat) (window elf fileSize)) :
    let base := (retrieveELFInfo m elf).executiveBase
    let r := loadELF m elf trg (retrieveELFInfo m elf)
    SameOutside (⋃ i, Filled m elf trg base i) m r.1 ∧
      (∀ i, IsLoad m elf i → ∀ x ∈ window ((segmentAt m elf i).target trg base) (segmentAt m elf i).sizeInMemory,
        r.1.byte x = content m elf trg base i x) ∧
      r.2 = trg + ELFHeader.entry m elf - base := by
  intro base r
  let count := (ELFHeader.programHeaderCount m elf).toNat
  obtain ⟨i₀, hi₀⟩ := hload.some_load
  have hspared : ∀ j < count, Disjoint (Stores m elf trg base j) (Headers m elf) := fun j _ =>
    (filled_apart_file hload hsep).mono (stores_subset hload) (headers_subset hload)
  have hr : r = (loadedUpTo m elf trg base count, trg + ELFHeader.entry (loadedUpTo m elf trg base count) elf - base) := by
    unfold r loadELF
    dsimp only
    rw [doWhile_count _ hi₀.count_pos, (load_run hspared (Nat.le_refl _)).1]
  obtain ⟨hframe, hshows⟩ := loadedUpTo_spec hload hsep (Nat.le_refl count)
  have hagree := loadedUpTo_agree hload hsep (Nat.le_refl count)
  rw [hr]
  refine ⟨hframe.mono ?_, fun i hi x hx => ?_, ?_⟩
  · exact Set.iUnion₂_subset fun i _ => Set.subset_iUnion_of_subset i subset_rfl
  · exact (hshows i (List.mem_range.mpr hi.1) x (filled_subset hi hx)).1
  · rw [(header_congr (hagree.mono (window_mono hload.header_inside))).1]

/-- Every file that passes the checks is loaded faithfully. -/
theorem loadELF_image (hload : Loadable m elf fileSize)
    (hsep : Disjoint (window trg (retrieveELFInfo m elf).executiveSize.toNat) (window elf fileSize)) :
    let r := loadELF m elf trg (retrieveELFInfo m elf)
    Image m elf trg (retrieveELFInfo m elf) r.1 r.2 := by
  obtain ⟨hframe, hbytes, hentry⟩ := loadELF_spec hload hsep
  constructor
  · intro i hi k hk
    have hle := hload.file_le_memory i hi
    have hwrap := hload.no_wrap i hi
    rw [hbytes i hi _ (mem_window_add (by omega)), content_add (by omega), if_pos hk, BitVec.ofNat_add,
      ← BitVec.add_assoc]
  · intro i hi k hge hk
    have hwrap := hload.no_wrap i hi
    rw [hbytes i hi _ (mem_window_add hk), content_add (by omega), if_neg (by omega)]
  · apply hframe.mono
    intro x hx
    simp only [Set.mem_iUnion] at hx ⊢
    obtain ⟨i, hi, hx⟩ := hx
    exact ⟨i, hi, hx⟩
  · exact hframe.mono (iUnion_filled_inside hload)
  · exact hentry

end Load

/-- A file with two segments, the second one below the first one, and three bytes of data. -/
def tinyFile : List (BitVec 8) :=
  [0x7F, 0x45, 0x4C, 0x46, 2, 1, 1, 0, 0, 0, 0, 0, 0, 0, 0, 0, 3, 0, 0, 0, 0, 0, 0, 0,
    16, 0, 0, 0, 0, 0, 0, 0, 64, 0, 0, 0, 0, 0, 0, 0, 0, 0, 0, 0, 0, 0, 0, 0,
    0, 0, 0, 0, 64, 0, 56, 0, 2, 0, 0, 0, 0, 0, 0, 0,
    1, 0, 0, 0, 0, 0, 0, 0, 176, 0, 0, 0, 0, 0, 0, 0, 16, 0, 0, 0, 0, 0, 0, 0,
    0, 0, 0, 0, 0, 0, 0, 0, 2, 0, 0, 0, 0, 0, 0, 0, 4, 0, 0, 0, 0, 0, 0, 0, 0, 0, 0, 0, 0, 0, 0, 0,
    1, 0, 0, 0, 0, 0, 0, 0, 178, 0, 0, 0, 0, 0, 0, 0, 8, 0, 0, 0, 0, 0, 0, 0,
    0, 0, 0, 0, 0, 0, 0, 0, 1, 0, 0, 0, 0, 0, 0, 0, 1, 0, 0, 0, 0, 0, 0, 0, 0, 0, 0, 0, 0, 0, 0, 0,
    0xAA, 0xBB, 0xCC]

/-- The file at address 4096. -/
def tinyMemory : Memory 64 where
  byte x := tinyFile.getD (x - 4096).toNat 0xFF
  written _ := false

theorem tiny_segments : segmentAt tinyMemory 4096 0 = ⟨176, 16, 2, 4⟩ ∧ segmentAt tinyMemory 4096 1 = ⟨178, 8, 1, 1⟩ := by
  decide +kernel

theorem tiny_count {i : Nat} (h : IsLoad tinyMemory 4096 i) : i = 0 ∨ i = 1 := by
  have hcount : (ELFHeader.programHeaderCount tinyMemory 4096).toNat = 2 := by decide +kernel
  have := h.1
  omega

theorem tiny_loadable : Loadable tinyMemory 4096 179 where
  valid := by decide +kernel
  header_inside := by decide
  headers_inside := by decide +kernel
  data_inside i hi := by
    rcases tiny_count hi with rfl | rfl <;> decide +kernel
  some_load := ⟨0, by unfold IsLoad; decide +kernel⟩
  file_le_memory i hi := by
    rcases tiny_count hi with rfl | rfl <;> decide +kernel
  no_wrap i hi := by
    rcases tiny_count hi with rfl | rfl <;> decide +kernel
  apart i j hi hj hij := by
    rcases tiny_count hi with rfl | rfl <;> rcases tiny_count hj with rfl | rfl
    · exact absurd rfl hij
    · rw [Set.disjoint_left]; simp only [tiny_segments, Segment.range, Set.mem_Ico]; omega
    · rw [Set.disjoint_left]; simp only [tiny_segments, Segment.range, Set.mem_Ico]; omega
    · exact absurd rfl hij

theorem tiny_size : (retrieveELFInfo tinyMemory 4096).executiveSize = 12 := by
  unfold retrieveELFInfo
  dsimp only
  rw [doWhile_count _ (by decide +kernel)]
  decide +kernel

theorem loadELF_image_tiny :
    Image tinyMemory 4096 65536 (retrieveELFInfo tinyMemory 4096)
      (loadELF tinyMemory 4096 65536 (retrieveELFInfo tinyMemory 4096)).1
      (loadELF tinyMemory 4096 65536 (retrieveELFInfo tinyMemory 4096)).2 := by
  apply loadELF_image tiny_loadable
  rw [tiny_size, Set.disjoint_left]
  unfold window
  intro x hx hy
  rw [Set.mem_ofPred_eq] at hx hy
  bv_omega

end GenericOs.Elf
