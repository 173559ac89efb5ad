import GenericOs.Elf.Image

/-!
# The same file elsewhere

What a file says and what is loaded from it depend on the bytes of the file alone: not on
where the file and the buffer are, nor on the rest of the memory.
-/

namespace GenericOs.Elf

open Bytes

variable {m m' : Memory 64} {elf elf' trg trg' : BitVec 64} {i n : Nat}

/-! ## What the file says -/

/-- The fields of the file header that the loader uses. -/
structure SameHeader (m : Memory 64) (elf : BitVec 64) (m' : Memory 64) (elf' : BitVec 64) : Prop where
  type : ELFHeader.type m' elf' = ELFHeader.type m elf
  entry : ELFHeader.entry m' elf' = ELFHeader.entry m elf
  offset : ELFHeader.programHeaderOffset m' elf' = ELFHeader.programHeaderOffset m elf
  size : ELFHeader.programHeaderSize m' elf' = ELFHeader.programHeaderSize m elf
  count : ELFHeader.programHeaderCount m' elf' = ELFHeader.programHeaderCount m elf

theorem header_moved (h : Copied n m elf m' elf') (hn : sizeofELFHeader ≤ n) : SameHeader m elf m' elf' := by
  unfold sizeofELFHeader at hn
  have hread : ∀ d l, d + l ≤ 64 → m'.read (elf' + BitVec.ofNat 64 d) l = m.read (elf + BitVec.ofNat 64 d) l :=
    fun d l hdl => h.read (by omega)
  constructor
  · exact hread 16 2 (by decide)
  · exact congrArg (BitVec.ofNat 64) (hread 24 8 (by decide))
  · exact congrArg (BitVec.ofNat 64) (hread 32 8 (by decide))
  · exact congrArg (BitVec.ofNat 16) (hread 54 2 (by decide))
  · exact congrArg (BitVec.ofNat 16) (hread 56 2 (by decide))

theorem validateELF_moved (h : Copied n m elf m' elf') (hn : sizeofELFHeader ≤ n) :
    validateELF m' elf' = validateELF m elf := by
  have htype := (header_moved h hn).type
  have hident : (List.range validElfIdent.length).map (fun i => m'.byte (elf' + BitVec.ofNat 64 i)) =
      (List.range validElfIdent.length).map (fun i => m.byte (elf + BitVec.ofNat 64 i)) := by
    apply List.map_congr_left
    intro i hi
    have hlt := List.mem_range.mp hi
    unfold sizeofELFHeader at hn
    exact h i (by change i < 9 at hlt; omega)
  unfold validateELF isValidELF isDYNELF
  rw [hident, htype]

theorem programHeader_moved (h : Copied n m elf m' elf') (hload : Loadable m elf n)
    (hi : i < (ELFHeader.programHeaderCount m elf).toNat) :
    segmentAt m' elf' i = segmentAt m elf i ∧ (IsLoad m' elf' i ↔ IsLoad m elf i) := by
  have hheader := header_moved h hload.header_inside
  have hinside := hload.headers_inside i hi
  unfold sizeofELFProgramHeader at hinside
  have hread : ∀ d l, d + l ≤ 56 → m'.read (headerAt m' elf' i + BitVec.ofNat 64 d) l =
      m.read (headerAt m elf i + BitVec.ofNat 64 d) l := by
    intro d l hdl
    unfold headerAt
    rw [hheader.offset, hheader.size, BitVec.add_assoc, BitVec.add_assoc, ← BitVec.ofNat_add]
    exact h.read (by omega)
  have htype : ELFProgramHeader.type m' (headerAt m' elf' i) = ELFProgramHeader.type m (headerAt m elf i) := by
    have := hread 0 4 (by decide)
    rwa [BitVec.add_zero, BitVec.add_zero] at this
  constructor
  · have h8 : m'.read (headerAt m' elf' i + 8) 8 = m.read (headerAt m elf i + 8) 8 := hread 8 8 (by decide)
    have h16 : m'.read (headerAt m' elf' i + 16) 8 = m.read (headerAt m elf i + 16) 8 := hread 16 8 (by decide)
    have h32 : m'.read (headerAt m' elf' i + 32) 8 = m.read (headerAt m elf i + 32) 8 := hread 32 8 (by decide)
    have h40 : m'.read (headerAt m' elf' i + 40) 8 = m.read (headerAt m elf i + 40) 8 := hread 40 8 (by decide)
    unfold segmentAt ELFProgramHeader.dataOffset ELFProgramHeader.vAddr ELFProgramHeader.sizeInFile
      ELFProgramHeader.sizeInMemory
    rw [h8, h16, h32, h40]
  · unfold IsLoad
    rw [htype, hheader.count]

theorem isLoad_moved (h : Copied n m elf m' elf') (hload : Loadable m elf n) : IsLoad m' elf' i ↔ IsLoad m elf i := by
  constructor
  · intro hi
    have hlt := hi.1
    rw [(header_moved h hload.header_inside).count] at hlt
    exact (programHeader_moved h hload hlt).2.mp hi
  · exact fun hi => (programHeader_moved h hload hi.1).2.mpr hi

theorem segmentAt_moved (h : Copied n m elf m' elf') (hload : Loadable m elf n) (hi : IsLoad m elf i) :
    segmentAt m' elf' i = segmentAt m elf i := (programHeader_moved h hload hi.1).1

theorem loadable_moved (h : Copied n m elf m' elf') (hload : Loadable m elf n) : Loadable m' elf' n where
  valid := (validateELF_moved h hload.header_inside).trans hload.valid
  header_inside := hload.header_inside
  headers_inside i hi := by
    have hheader := header_moved h hload.header_inside
    rw [hheader.count] at hi
    rw [hheader.offset, hheader.size]
    exact hload.headers_inside i hi
  data_inside i hi := by
    rw [isLoad_moved h hload] at hi
    rw [segmentAt_moved h hload hi]
    exact hload.data_inside i hi
  some_load := by
    obtain ⟨i, hi⟩ := hload.some_load
    exact ⟨i, (isLoad_moved h hload).mpr hi⟩
  file_le_memory i hi := by
    rw [isLoad_moved h hload] at hi
    rw [segmentAt_moved h hload hi]
    exact hload.file_le_memory i hi
  no_wrap i hi := by
    rw [isLoad_moved h hload] at hi
    rw [segmentAt_moved h hload hi]
    exact hload.no_wrap i hi
  apart i j hi hj hij := by
    rw [isLoad_moved h hload] at hi hj
    rw [segmentAt_moved h hload hi, segmentAt_moved h hload hj]
    exact hload.apart i j hi hj hij

/-- The bounds are those of the segments. -/
theorem retrieveELFInfo_moved (h : Copied n m elf m' elf') (hload : Loadable m elf n) :
    retrieveELFInfo m' elf' = retrieveELFInfo m elf := by
  have hvAddrs : vAddrs m' elf' = vAddrs m elf := by
    ext v
    apply exists_congr
    intro i
    rw [isLoad_moved h hload, and_congr_right_iff]
    intro hi
    rw [segmentAt_moved h hload hi]
  have hends : memoryEnds m' elf' = memoryEnds m elf := by
    ext v
    apply exists_congr
    intro i
    rw [isLoad_moved h hload, and_congr_right_iff]
    intro hi
    rw [segmentAt_moved h hload hi]
  obtain ⟨hleast, top, htop, hsize⟩ := retrieveELFInfo_extremes hload.some_load
  obtain ⟨hleast', top', htop', hsize'⟩ := retrieveELFInfo_extremes (loadable_moved h hload).some_load
  rw [hvAddrs] at hleast'
  rw [hends] at htop'
  obtain rfl := htop.unique htop'
  have hbase := hleast.unique hleast'
  rw [← hbase, ← hsize] at hsize'
  generalize retrieveELFInfo m elf = info at hbase hsize'
  generalize retrieveELFInfo m' elf' = info' at hbase hsize'
  obtain ⟨size, base⟩ := info
  obtain ⟨size', base'⟩ := info'
  rw [ELFInfo.mk.injEq]
  exact ⟨BitVec.eq_of_toNat_eq hsize', BitVec.eq_of_toNat_eq hbase.symm⟩

/-! ## What is loaded -/

theorem content_moved (h : Copied n m elf m' elf') (hload : Loadable m elf n) (hi : IsLoad m elf i)
    (trg trg' base : BitVec 64) {k : Nat} (hk : k < (segmentAt m elf i).sizeInMemory) :
    content m' elf' trg' base i ((segmentAt m elf i).target trg' base + BitVec.ofNat 64 k) =
      content m elf trg base i ((segmentAt m elf i).target trg base + BitVec.ofNat 64 k) := by
  have hwrap := hload.no_wrap i hi
  have hinside := hload.data_inside i hi
  have hk64 : k < 2 ^ 64 := by omega
  have hsegment := segmentAt_moved h hload hi
  have hmoved := @content_add m' elf' trg' base i k hk64
  rw [hsegment, BitVec.add_assoc, ← BitVec.ofNat_add] at hmoved
  rw [content_add hk64, hmoved, BitVec.add_assoc, ← BitVec.ofNat_add]
  split
  · next hdata => exact h _ (by omega)
  · rfl

theorem entry_sub (trg entry base : BitVec 64) : trg + entry - base - trg = entry - base := by bv_omega

/-- A file is loaded alike from any place to any place. -/
theorem loadELF_moved (h : Copied n m elf m' elf') (hload : Loadable m elf n)
    (hsep : Disjoint (window trg (retrieveELFInfo m elf).executiveSize.toNat) (window elf n))
    (hsep' : Disjoint (window trg' (retrieveELFInfo m elf).executiveSize.toNat) (window elf' n)) :
    let info := retrieveELFInfo m elf
    retrieveELFInfo m' elf' = info ∧
      (∀ i, IsLoad m elf i → ∀ k < (segmentAt m elf i).sizeInMemory,
        (loadELF m' elf' trg' info).1.byte ((segmentAt m elf i).target trg' info.executiveBase + BitVec.ofNat 64 k) =
          (loadELF m elf trg info).1.byte ((segmentAt m elf i).target trg info.executiveBase + BitVec.ofNat 64 k)) ∧
      (loadELF m' elf' trg' info).2 - trg' = (loadELF m elf trg info).2 - trg := by
  have hinfo := retrieveELFInfo_moved h hload
  rw [← hinfo] at hsep'
  obtain ⟨-, hbytes, hentry⟩ := loadELF_spec hload hsep
  obtain ⟨-, hbytes', hentry'⟩ := loadELF_spec (loadable_moved h hload) hsep'
  rw [hinfo] at hbytes' hentry'
  refine ⟨hinfo, fun i hi k hk => ?_, ?_⟩
  · have hi' := (isLoad_moved h hload).mpr hi
    have hsegment := segmentAt_moved h hload hi
    rw [hbytes i hi _ (mem_window_add hk), ← content_moved h hload hi trg trg' _ hk]
    apply hbytes' i hi'
    rw [hsegment]
    exact mem_window_add hk
  · rw [hentry, hentry', (header_moved h hload.header_inside).entry, entry_sub, entry_sub]

/-- The file of `tinyMemory` at address 8192, and zeros around it. -/
def elsewhere : Memory 64 where
  byte x := tinyFile.getD (x - 8192).toNat 0
  written _ := false

theorem elsewhere_copied : Copied 179 tinyMemory 4096 elsewhere 8192 := by
  have hbytes : ∀ i < 179, elsewhere.byte (8192 + BitVec.ofNat 64 i) = tinyMemory.byte (4096 + BitVec.ofNat 64 i) := by
    decide +kernel
  exact hbytes

theorem loadELF_moved_tiny :
    retrieveELFInfo elsewhere 8192 = retrieveELFInfo tinyMemory 4096 ∧
      (loadELF elsewhere 8192 131072 (retrieveELFInfo tinyMemory 4096)).2 - 131072 =
        (loadELF tinyMemory 4096 65536 (retrieveELFInfo tinyMemory 4096)).2 - 65536 := by
  have hsep : Disjoint (window (65536 : BitVec 64) (retrieveELFInfo tinyMemory 4096).executiveSize.toNat)
      (window 4096 179) := by
    rw [tiny_size, Set.disjoint_left]
    unfold window
    intro x hx hy
    rw [Set.mem_ofPred_eq] at hx hy
    bv_omega
  have hsep' : Disjoint (window (131072 : BitVec 64) (retrieveELFInfo tinyMemory 4096).executiveSize.toNat)
      (window 8192 179) := by
    rw [tiny_size, Set.disjoint_left]
    unfold window
    intro x hx hy
    rw [Set.mem_ofPred_eq] at hx hy
    bv_omega
  obtain ⟨hinfo, -, hentry⟩ := loadELF_moved elsewhere_copied tiny_loadable hsep hsep'
  exact ⟨hinfo, hentry⟩

end GenericOs.Elf
