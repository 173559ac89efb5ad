import GenericOs.Elf.Walk

/-!
# The buffer that `RetrieveELFInfo` sizes

`main` allocates `executiveSize` bytes for whatever `ValidateELF` lets pass, and `LoadELF`
stores what the program headers say. `Contained` is what they have to say.
-/

namespace GenericOs.Elf

open Bytes

/-- The segments end on the same side of the end of the address space. -/
def SameSide (m : Memory 64) (elf : BitVec 64) : Prop :=
  (∀ i, IsLoad m elf i → (segmentAt m elf i).memoryEnd < 2 ^ 64) ∨
    ∀ i j, IsLoad m elf i → IsLoad m elf j → 2 ^ 64 ≤ (segmentAt m elf i).memoryEnd ∧
      (segmentAt m elf i).memoryEnd < (segmentAt m elf j).vAddr + 2 ^ 64

/-- The data of every segment end where the memory of some segment ends or before. -/
structure Contained (m : Memory 64) (elf : BitVec 64) : Prop where
  sameSide : SameSide m elf
  data : ∀ i, IsLoad m elf i → (segmentAt m elf i).sizeInFile = 0 ∨
    ∃ j, IsLoad m elf j ∧ (segmentAt m elf i).vAddr + (segmentAt m elf i).sizeInFile ≤ (segmentAt m elf j).memoryEnd

section

variable {m m' : Memory 64} {elf trg base : BitVec 64} {i j : Nat}

/-! ## Sizes -/

/-- What the `i`th header says fits into the buffer. -/
def Fits (m : Memory 64) (elf : BitVec 64) (i : Nat) : Prop :=
  let s := segmentAt m elf i
  max s.sizeInFile s.sizeInMemory = 0 ∨
    s.vAddr - (retrieveELFInfo m elf).executiveBase.toNat + max s.sizeInFile s.sizeInMemory ≤
      (retrieveELFInfo m elf).executiveSize.toNat

theorem segmentAt_lt (m : Memory 64) (elf : BitVec 64) (i : Nat) :
    (segmentAt m elf i).vAddr < 2 ^ 64 ∧ (segmentAt m elf i).sizeInFile < 2 ^ 64 ∧
      (segmentAt m elf i).sizeInMemory < 2 ^ 64 :=
  ⟨BitVec.isLt _, BitVec.isLt _, BitVec.isLt _⟩

theorem base_le (hi : IsLoad m elf i) :
    (retrieveELFInfo m elf).executiveBase.toNat ≤ (segmentAt m elf i).vAddr :=
  (retrieveELFInfo_extremes ⟨i, hi⟩).1.2 ⟨i, hi, rfl⟩

theorem stores_subset_iff (hi : IsLoad m elf i) :
    Stores m elf trg (retrieveELFInfo m elf).executiveBase i ⊆ window trg (retrieveELFInfo m elf).executiveSize.toNat ↔
      Fits m elf i := by
  have hbase := base_le hi
  have hlt := segmentAt_lt m elf i
  rw [stores_eq hi, target_eq hbase, window_subset_iff (by omega) (BitVec.isLt _) (by omega)]
  rfl

theorem wrapped_size {b e : Nat} (hb : b < 2 ^ 64) (hbe : b ≤ e) (he : e < b + 2 ^ 64) :
    (2 ^ 64 - b + e % 2 ^ 64) % 2 ^ 64 = e - b := by
  have hsum : 2 ^ 64 - b + e = e - b + 2 ^ 64 := by omega
  rw [Nat.add_mod_mod, hsum, Nat.add_mod_right, Nat.mod_eq_of_lt (by omega)]

/-- If all ends wrap or none does, the buffer reaches to the greatest one. -/
theorem SameSide.size_eq (h : SameSide m elf) (hi : IsLoad m elf i) :
    ∃ k, IsLoad m elf k ∧ (∀ j, IsLoad m elf j → (segmentAt m elf j).memoryEnd ≤ (segmentAt m elf k).memoryEnd) ∧
      (retrieveELFInfo m elf).executiveSize.toNat =
        (segmentAt m elf k).memoryEnd - (retrieveELFInfo m elf).executiveBase.toNat := by
  obtain ⟨hbase, top, ⟨⟨_, ⟨k, hk, rfl⟩, rfl⟩, htop⟩, hsize⟩ := retrieveELFInfo_extremes ⟨i, hi⟩
  have hge : ∀ j, IsLoad m elf j → (segmentAt m elf j).memoryEnd % 2 ^ 64 ≤ (segmentAt m elf k).memoryEnd % 2 ^ 64 :=
    fun j hj => htop ⟨_, ⟨j, hj, rfl⟩, rfl⟩
  have hk_base : (retrieveELFInfo m elf).executiveBase.toNat ≤ (segmentAt m elf k).memoryEnd :=
    (hbase.2 ⟨k, hk, rfl⟩).trans (Nat.le_add_right _ _)
  obtain ⟨b, hb, hb_eq⟩ := hbase.1
  refine ⟨k, hk, ?_, ?_⟩
  · intro j hj
    have hj_le := hge j hj
    rcases h with hbelow | habove
    · rwa [Nat.mod_eq_of_lt (hbelow j hj), Nat.mod_eq_of_lt (hbelow k hk)] at hj_le
    · have hj_above := (habove j b hj hb).1
      have hj_lt := segmentAt_lt m elf j
      have hk_above := (habove k b hk hb).1
      have hk_lt := segmentAt_lt m elf k
      unfold Segment.memoryEnd at *
      omega
  · rw [hsize]
    apply wrapped_size (BitVec.isLt _) hk_base
    rcases h with hbelow | habove
    · have hk_lt := hbelow k hk
      omega
    · rw [← hb_eq]
      exact (habove k b hk hb).2

theorem Contained.fits (h : Contained m elf) (hi : IsLoad m elf i) : Fits m elf i := by
  obtain ⟨k, hk, hgreatest, hsize⟩ := h.sameSide.size_eq hi
  have hbase := base_le hi
  have hmemory : (segmentAt m elf i).vAddr + (segmentAt m elf i).sizeInMemory ≤ (segmentAt m elf k).memoryEnd :=
    hgreatest i hi
  unfold Fits
  rw [hsize]
  dsimp only
  rcases h.data i hi with hnone | ⟨j, hj, hdata⟩
  · omega
  · have hj_end := hgreatest j hj
    omega

/-- Where some ends wrap and others do not, the greatest of the wrapped ends is above the base, and the segments
that wrap do not fit. -/
theorem sameSide_of_fits (h : ∀ i, IsLoad m elf i → Fits m elf i) : SameSide m elf := by
  by_cases hload : ∃ i, IsLoad m elf i
  swap
  · exact Or.inl fun i hi => absurd ⟨i, hi⟩ hload
  obtain ⟨-, top, ⟨⟨e, -, rfl⟩, htop⟩, hsize⟩ := retrieveELFInfo_extremes hload
  have hge : ∀ j, IsLoad m elf j → (segmentAt m elf j).memoryEnd % 2 ^ 64 ≤ e % 2 ^ 64 := fun j hj =>
    htop ⟨_, ⟨j, hj, rfl⟩, rfl⟩
  have hbase_lt := (retrieveELFInfo m elf).executiveBase.isLt
  have htop_lt := Nat.mod_lt e (show 0 < 2 ^ 64 by decide)
  dsimp only at hsize
  generalize e % 2 ^ 64 = t at hge hsize htop_lt
  rcases Nat.lt_or_ge t (retrieveELFInfo m elf).executiveBase.toNat with hlt | hle
  · right
    intro i j hi hj
    have hi_end := hge i hi
    have hi_lt := segmentAt_lt m elf i
    have hi_le := base_le hi
    have hj_le := base_le hj
    unfold Segment.memoryEnd at *
    omega
  · left
    intro i hi
    by_contra hwrap
    have hround := wrapped_size hbase_lt hle (by omega)
    rw [Nat.mod_eq_of_lt htop_lt, ← hsize] at hround
    have hfits := h i hi
    have hi_lt := segmentAt_lt m elf i
    have hi_le := base_le hi
    unfold Fits at hfits
    unfold Segment.memoryEnd at hwrap
    dsimp only at hfits
    omega

theorem contained_of_fits (h : ∀ i, IsLoad m elf i → Fits m elf i) : Contained m elf := by
  refine ⟨sameSide_of_fits h, fun i hi => ?_⟩
  obtain ⟨k, hk, -, hsize⟩ := (sameSide_of_fits h).size_eq hi
  have hfits := h i hi
  have hi_le := base_le hi
  have hk_le : (retrieveELFInfo m elf).executiveBase.toNat ≤ (segmentAt m elf k).memoryEnd :=
    (base_le hk).trans (Nat.le_add_right _ _)
  unfold Fits at hfits
  rw [hsize] at hfits
  dsimp only at hfits
  rcases hfits with hzero | hfits
  · left
    omega
  · exact Or.inr ⟨k, hk, by omega⟩

/-! ## Stores -/

section Marks

variable {B : Set (BitVec 64)} {x : BitVec 64}

theorem loadProgram_written {program : BitVec 64} (hx : m.written x = true) :
    (loadProgram elf trg base program m).written x = true := by
  unfold loadProgram
  dsimp only
  split
  · apply put_written_mono
    split
    · exact put_written_mono hx
    · exact hx
  · exact hx

/-- Nothing is marked but what the header says, if no mark is on a header. -/
theorem stores_subset_of_written (hm' : AgreeOn (Headers m elf) m m') (hspared : Disjoint B (Headers m elf))
    (hB : ∀ x, (loadProgram elf trg base (headerAt m elf i) m').written x = true → x ∈ B) :
    Stores m elf trg base i ⊆ B := by
  by_cases hload : IsLoad m elf i
  swap
  · exact fun x hx => absurd hx.1 hload
  have hzero : window ((segmentAt m elf i).target trg base + BitVec.ofNat 64 (segmentAt m elf i).sizeInFile)
      ((segmentAt m elf i).sizeInMemory - (segmentAt m elf i).sizeInFile) ⊆ B := by
    intro x hx
    apply hB
    rw [loadProgram_zero hload hm']
    exact put_written_mono (zero_written hx)
  -- So the header is still there when the data are copied.
  have hkept := (zero_sameOutside (segmentAt m elf i) ((segmentAt m elf i).target trg base) m').agreeOn
    (hspared.mono_left hzero)
  rw [stores_eq hload, window_max]
  apply Set.union_subset hzero
  intro x hx
  apply hB
  rw [loadProgram_eq hload hm' hkept]
  exact put_written hx

theorem stores_subset_of_loaded {n : Nat} (hn : n ≤ (ELFHeader.programHeaderCount m elf).toNat)
    (hspared : Disjoint B (Headers m elf))
    (hB : ∀ x, ((loadStep elf trg base)^[n] (m, elf + ELFHeader.programHeaderOffset m elf)).1.written x = true →
      x ∈ B) :
    ∀ i < n, Stores m elf trg base i ⊆ B := by
  induction n with
  | zero => exact fun i hi => absurd hi (Nat.not_lt_zero i)
  | succ n ih =>
    rw [Function.iterate_succ_apply'] at hB
    have hbefore := ih (by omega) fun x hx => hB x (loadProgram_written hx)
    have hapart : ∀ j < n, Disjoint (Stores m elf trg base j) (Headers m elf) := fun j hj =>
      hspared.mono_left (hbefore j hj)
    obtain ⟨hrun, hframe⟩ := load_run hapart (show n ≤ _ by omega)
    have hagree := hframe.agreeOn_iUnion fun j hj => hapart j (List.mem_range.mp hj)
    rw [hrun] at hB
    intro i hi
    rcases Nat.lt_succ_iff_lt_or_eq.mp hi with hlt | rfl
    · exact hbefore i hlt
    · exact stores_subset_of_written hagree hspared hB

end Marks

/-! ## The result -/

/-- A memory that nothing has been stored to. -/
def unwritten (byte : BitVec 64 → BitVec 8) : Memory 64 where
  byte := byte
  written _ := false

/-- In a buffer of the size that `RetrieveELFInfo` returns, apart from the headers, `LoadELF` stays inside
exactly if the file is contained. -/
theorem loadELF_inside_iff {byte : BitVec 64 → BitVec 8} (hload : ∃ i, IsLoad (unwritten byte) elf i)
    (hbuffer : Disjoint (window trg (retrieveELFInfo (unwritten byte) elf).executiveSize.toNat)
      (Headers (unwritten byte) elf)) :
    (∀ x, (loadELF (unwritten byte) elf trg (retrieveELFInfo (unwritten byte) elf)).1.written x = true →
      x ∈ window trg (retrieveELFInfo (unwritten byte) elf).executiveSize.toNat) ↔ Contained (unwritten byte) elf := by
  generalize hm : unwritten byte = m at *
  have hnone : ∀ x, m.written x = false := by
    rw [← hm]
    exact fun _ => rfl
  obtain ⟨i₀, hi₀⟩ := hload
  have hloop : (loadELF m elf trg (retrieveELFInfo m elf)).1 =
      ((loadStep elf trg (retrieveELFInfo m elf).executiveBase)^[(ELFHeader.programHeaderCount m elf).toNat]
        (m, elf + ELFHeader.programHeaderOffset m elf)).1 := by
    unfold loadELF
    dsimp only
    rw [doWhile_count _ hi₀.count_pos]
  rw [hloop]
  constructor
  · intro hinside
    apply contained_of_fits
    intro i hi
    exact (stores_subset_iff hi).mp (stores_subset_of_loaded (Nat.le_refl _) hbuffer hinside i hi.1)
  · intro hcontained
    have hstores : ∀ i, Stores m elf trg (retrieveELFInfo m elf).executiveBase i ⊆
        window trg (retrieveELFInfo m elf).executiveSize.toNat := by
      intro i
      by_cases hi : IsLoad m elf i
      · exact (stores_subset_iff hi).mpr (hcontained.fits hi)
      · exact fun x hx => absurd hx.1 hi
    obtain ⟨hrun, hframe⟩ := load_run (fun j _ => hbuffer.mono_left (hstores j)) (Nat.le_refl _)
    rw [hrun]
    intro x hx
    by_contra hout
    rw [(hframe.mono (Set.iUnion₂_subset fun i _ => hstores i)).written x hout, hnone] at hx
    exact Bool.noConfusion hx

end

/-- A file with one segment of one byte in memory. -/
def oneSegment (sizeInFile : BitVec 8) : List (BitVec 8) :=
  [0x7F, 0x45, 0x4C, 0x46, 2, 1, 1, 0, 0, 0, 0, 0, 0, 0, 0, 0, 3, 0, 0, 0, 0, 0, 0, 0,
    0, 0, 0, 0, 0, 0, 0, 0, 64, 0, 0, 0, 0, 0, 0, 0, 0, 0, 0, 0, 0, 0, 0, 0,
    0, 0, 0, 0, 0, 0, 56, 0, 1, 0, 0, 0, 0, 0, 0, 0,
    1, 0, 0, 0, 0, 0, 0, 0, 120, 0, 0, 0, 0, 0, 0, 0, 0, 0, 0, 0, 0, 0, 0, 0,
    0, 0, 0, 0, 0, 0, 0, 0, sizeInFile, 0, 0, 0, 0, 0, 0, 0, 1]

/-- The file at address 4096. -/
def oneSegmentMemory (sizeInFile : BitVec 8) : Memory 64 :=
  unwritten fun x => (oneSegment sizeInFile).getD (x - 4096).toNat 0

theorem oneSegment_facts : ∀ sizeInFile ∈ [(1 : BitVec 8), 2],
    IsLoad (oneSegmentMemory sizeInFile) 4096 0 ∧
      segmentAt (oneSegmentMemory sizeInFile) 4096 0 = ⟨120, 0, sizeInFile.toNat, 1⟩ ∧
      headerAt (oneSegmentMemory sizeInFile) 4096 0 = 4160 ∧
      (ELFHeader.programHeaderCount (oneSegmentMemory sizeInFile) 4096).toNat = 1 := by
  unfold IsLoad
  decide +kernel

section

variable {sizeInFile : BitVec 8} {i : Nat}

theorem oneSegment_only (h : sizeInFile ∈ [(1 : BitVec 8), 2]) (hi : IsLoad (oneSegmentMemory sizeInFile) 4096 i) :
    segmentAt (oneSegmentMemory sizeInFile) 4096 i = ⟨120, 0, sizeInFile.toNat, 1⟩ := by
  obtain ⟨-, hsegment, -, hcount⟩ := oneSegment_facts sizeInFile h
  have hlt := hi.1
  obtain rfl : i = 0 := by omega
  exact hsegment

theorem oneSegment_sameSide (h : sizeInFile ∈ [(1 : BitVec 8), 2]) : SameSide (oneSegmentMemory sizeInFile) 4096 := by
  left
  intro i hi
  rw [oneSegment_only h hi]
  exact show 0 + 1 < 2 ^ 64 by decide

theorem oneSegment_size (h : sizeInFile ∈ [(1 : BitVec 8), 2]) :
    (retrieveELFInfo (oneSegmentMemory sizeInFile) 4096).executiveSize.toNat = 1 := by
  obtain ⟨hload, hsegment, -, -⟩ := oneSegment_facts sizeInFile h
  obtain ⟨k, hk, -, hsize⟩ := (oneSegment_sameSide h).size_eq hload
  have hbase := base_le hload
  rw [hsegment] at hbase
  rw [hsize, oneSegment_only h hk, Nat.le_zero.mp hbase]
  rfl

theorem oneSegment_apart (h : sizeInFile ∈ [(1 : BitVec 8), 2]) :
    Disjoint (window 65536 (retrieveELFInfo (oneSegmentMemory sizeInFile) 4096).executiveSize.toNat)
      (Headers (oneSegmentMemory sizeInFile) 4096) := by
  obtain ⟨-, -, hheader, hcount⟩ := oneSegment_facts sizeInFile h
  rw [oneSegment_size h, Set.disjoint_left]
  rintro x hx (hheaders | ⟨i, hi, hheaders⟩)
  · unfold window sizeofELFHeader at *
    rw [Set.mem_ofPred_eq] at hx hheaders
    bv_omega
  · obtain rfl : i = 0 := by omega
    rw [hheader] at hheaders
    unfold window sizeofELFProgramHeader at *
    rw [Set.mem_ofPred_eq] at hx hheaders
    bv_omega

end

theorem loadELF_inside_iff_oneSegment :
    {x | (loadELF (oneSegmentMemory 1) 4096 65536 (retrieveELFInfo (oneSegmentMemory 1) 4096)).1.written x = true} ⊆
      window 65536 (retrieveELFInfo (oneSegmentMemory 1) 4096).executiveSize.toNat := by
  have h : (1 : BitVec 8) ∈ [(1 : BitVec 8), 2] := by decide
  apply (loadELF_inside_iff ⟨0, (oneSegment_facts 1 h).1⟩ (oneSegment_apart h)).mpr
  refine ⟨oneSegment_sameSide h, fun i hi => Or.inr ⟨i, hi, ?_⟩⟩
  rw [← oneSegmentMemory, oneSegment_only h hi]
  exact show 0 + 1 ≤ 0 + 1 by decide

theorem loadELF_inside_fails :
    validateELF (oneSegmentMemory 2) 4096 = true ∧ IsLoad (oneSegmentMemory 2) 4096 0 ∧
      Disjoint (window 65536 (retrieveELFInfo (oneSegmentMemory 2) 4096).executiveSize.toNat)
        (Headers (oneSegmentMemory 2) 4096) ∧
      (loadELF (oneSegmentMemory 2) 4096 65536 (retrieveELFInfo (oneSegmentMemory 2) 4096)).1.written 65537 = true ∧
      (65537 : BitVec 64) ∉ window 65536 (retrieveELFInfo (oneSegmentMemory 2) 4096).executiveSize.toNat := by
  have h : (2 : BitVec 8) ∈ [(1 : BitVec 8), 2] := by decide
  obtain ⟨hload, -⟩ := oneSegment_facts 2 h
  refine ⟨by decide +kernel, hload, oneSegment_apart h, ?_, ?_⟩
  · unfold loadELF retrieveELFInfo
    dsimp only
    rw [doWhile_count _ hload.count_pos, doWhile_count _ hload.count_pos]
    decide +kernel
  · rw [oneSegment_size h]
    exact show ¬ ((65537 : BitVec 64) - 65536).toNat < 1 by decide

end GenericOs.Elf
