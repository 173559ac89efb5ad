import Mathlib.Data.List.Forall2
import GenericOs.Loader.Code

/-!
# The memory map that the kernel gets

`FormRootTable` publishes a number of entries and `RecoverMemoryMap` writes them. What the
firmware answers in between decides whether the two agree.
-/

namespace GenericOs.Loader

open Bytes

variable {F : Type}

/-! ## What the loader relies on -/

/-- `GetMemoryMap` reports the size of the map and leaves it as it is. -/
structure Reports (map : F → List Descriptor) (own : F → Set (BitVec 64)) (descriptorSize : Nat) (f : F)
    (r : MapAnswer F) : Prop where
  size : r.memoryMapSize.toNat = (map f).length * descriptorSize
  stride : r.descriptorSize.toNat = descriptorSize
  map : map r.firmware = map f
  own : own r.firmware = own f

def descriptorAt (m : Memory 64) (buffer : BitVec 64) (descriptorSize i : Nat) : Descriptor :=
  Descriptor.load m (buffer + BitVec.ofNat 64 (i * descriptorSize))

/-- `map` is the firmware's memory map and `own` the bytes of the pages that the loader holds. The
firmware leaves these bytes alone, but for the buffer of the call. -/
structure Conforms (bs : BootServices F) (map : F → List Descriptor) (own : F → Set (BitVec 64))
    (descriptorSize : Nat) : Prop where
  /-- At least `sizeof(efi_memory_descriptor_t)`. -/
  stride : 40 ≤ descriptorSize
  /-- There is a number for the size of the map, also with three more descriptors. -/
  size : ∀ f, ((map f).length + 3) * descriptorSize < 2 ^ 64
  query : ∀ f bytes, Reports map own descriptorSize f (bs.getMemoryMap f bytes 0 0) ∧
    ∀ x ∈ own f, (bs.getMemoryMap f bytes 0 0).bytes x = bytes x
  /-- A buffer with enough room gets the map. -/
  fill : ∀ f bytes memoryMapSize buffer, buffer ≠ 0 → (map f).length * descriptorSize ≤ memoryMapSize.toNat →
    window buffer memoryMapSize.toNat ⊆ own f →
    Reports map own descriptorSize f (bs.getMemoryMap f bytes memoryMapSize buffer) ∧
      (∀ x ∈ own f, x ∉ window buffer memoryMapSize.toNat →
        (bs.getMemoryMap f bytes memoryMapSize buffer).bytes x = bytes x) ∧
      ∀ marks, (List.range (map f).length).map (descriptorAt
        ⟨(bs.getMemoryMap f bytes memoryMapSize buffer).bytes, marks⟩ buffer descriptorSize) = map f
  /-- Free pages become the loader's, and the map grows by at most three descriptors. -/
  allocate : ∀ f bytes memoryType pages,
    own f ⊆ own (bs.allocatePages f bytes memoryType pages).firmware ∧
      (∀ x ∈ own f, (bs.allocatePages f bytes memoryType pages).bytes x = bytes x) ∧
      (map (bs.allocatePages f bytes memoryType pages).firmware).length ≤ (map f).length + 3 ∧
      ∀ buffer, (bs.allocatePages f bytes memoryType pages).buffer = some buffer →
        window buffer (pages.toNat * pageSize) ⊆ own (bs.allocatePages f bytes memoryType pages).firmware ∧
          Disjoint (own f) (window buffer (pages.toNat * pageSize))
  free : ∀ f bytes buffer pages, ∀ x ∈ own f, x ∉ window buffer (pages.toNat * pageSize) →
    (bs.freePages f bytes buffer pages).bytes x = bytes x

/-- The firmware as it is when `RecoverMemoryMap` asks for the map itself. -/
def atFill (bs : BootServices F) (s : Machine F) : F :=
  let q := bs.getMemoryMap s.firmware s.memory.byte 0 0
  (allocateLoaderBytes bs (s.after q.bytes q.firmware) (q.memoryMapSize + q.descriptorSize * 3)).2.firmware

/-! ## What the kernel sees -/

def entryAt (m : Memory 64) (root : BitVec 64) (i : Nat) : BitVec 64 :=
  memoryMap m root + BitVec.ofNat 64 (i * sizeofMemoryEntry)

/-- The entries that the kernel goes through. -/
def kernelEntries (m : Memory 64) (root : BitVec 64) : List MemoryEntry :=
  (List.range (memoryMapEntryCount m root).toNat).map fun i => MemoryEntry.load m (entryAt m root i)

/-- The entry tells what the descriptor says. -/
structure Describes (d : Descriptor) (e : MemoryEntry) : Prop where
  begin : e.begin = d.physicalStart
  pages : d.numberOfPages.toNat < 2 ^ 56 → e.pages.toNat = d.numberOfPages.toNat
  type : e.type = if isAvailableMemoryType d.type.toNat then 1 else 0

/-- With `m` before `RecoverMemoryMap` and `m'` after it, the kernel sees exactly the map `ds`. -/
structure SeesMap (ds : List Descriptor) (root : BitVec 64) (m m' : Memory 64) : Prop where
  inBounds : ∀ x ∉ window (memoryMap m root) ((memoryMapEntryCount m root).toNat * sizeofMemoryEntry),
    m'.written x = m.written x
  entries : List.Forall₂ Describes ds (kernelEntries m' root)
  complete : ∀ i < (memoryMapEntryCount m' root).toNat, ∀ x ∈ window (entryAt m' root i) sizeofMemoryEntry,
    m'.written x = true

/-! ## Entries -/

theorem recoverEntry_describes (d : Descriptor) : Describes d (recoverEntry d) := by
  constructor
  · rfl
  · intro h
    unfold recoverEntry
    rw [BitVec.toNat_setWidth, Nat.mod_eq_of_lt h]
  · rfl

theorem load_store (m : Memory 64) (a : BitVec 64) (e : MemoryEntry) : MemoryEntry.load (e.store m a) a = e := by
  have hb := e.begin.isLt
  have hp := e.pages.isLt
  have ht := e.type.isLt
  have h0 : (e.store m a).read a 8 = e.encode % 256 ^ 8 := by
    have := read_write (m := m) (a := a) (k := sizeofMemoryEntry) (v := e.encode) (d := 0) (l := 8)
      (by decide) (by decide)
    rwa [BitVec.add_zero, Nat.pow_zero, Nat.div_one] at this
  have h8 : (e.store m a).read (a + 8) 7 = e.encode / 256 ^ 8 % 256 ^ 7 :=
    read_write (by decide) (by decide)
  have h15 : (e.store m a).read (a + 15) 1 = e.encode / 256 ^ 15 % 256 ^ 1 :=
    read_write (by decide) (by decide)
  unfold MemoryEntry.load
  rw [h0, h8, h15]
  unfold MemoryEntry.encode
  obtain ⟨b, p, t⟩ := e
  rw [MemoryEntry.mk.injEq]
  refine ⟨?_, ?_, ?_⟩
  · bv_omega
  · bv_omega
  · bv_omega

theorem load_congr {m m' : Memory 64} {a : BitVec 64} (h : AgreeOn (window a sizeofMemoryEntry) m m') :
    MemoryEntry.load m' a = MemoryEntry.load m a := by
  have h0 : m'.read a 8 = m.read a 8 := read_congr (h.mono (window_mono (by decide)))
  have h8 : m'.read (a + 8) 7 = m.read (a + 8) 7 := read_at_congr h (by decide)
  have h15 : m'.read (a + 15) 1 = m.read (a + 15) 1 := read_at_congr h (by decide)
  unfold MemoryEntry.load
  rw [h0, h8, h15]

/-! ## `AllocateBytes` -/

section Allocate

variable {bs : BootServices F} {map : F → List Descriptor} {own : F → Set (BitVec 64)} {descriptorSize : Nat}

theorem allocate_pages (bs : BootServices F) (memoryType : Nat) (s : Machine F) (bytes : BitVec 64) :
    bytes.toNat ≤ (allocate bs memoryType s bytes).1.pages.toNat * pageSize := by
  unfold allocate
  dsimp only
  have h4096 : (BitVec.ofNat 64 pageSize).toNat = 4096 := rfl
  have hdiv : (bytes / BitVec.ofNat 64 pageSize).toNat = bytes.toNat / 4096 := by
    rw [BitVec.toNat_udiv, h4096]
  have hmod : (bytes % BitVec.ofNat 64 pageSize).toNat = bytes.toNat % 4096 := by
    rw [BitVec.toNat_umod, h4096]
  have hlt := bytes.isLt
  rw [BitVec.toNat_add, hdiv, pageSize_val]
  split
  · rw [Nat.mod_eq_of_lt (by change _ + 1 < _; omega)]
    change _ ≤ (_ + 1) * 4096
    omega
  · next hzero =>
    have hzero : bytes.toNat % 4096 = 0 := by
      rw [← hmod]
      exact congrArg BitVec.toNat (not_not.mp hzero)
    change _ ≤ (_ + 0) % _ * 4096
    omega

structure Allocated (map : F → List Descriptor) (own : F → Set (BitVec 64)) (s : Machine F) (bytes : Nat)
    (space : AllocatedSpace) (s' : Machine F) : Prop where
  room : bytes ≤ space.pages.toNat * pageSize
  keeps : own s.firmware ⊆ own s'.firmware
  same : AgreeOn (own s.firmware) s.memory s'.memory
  written : s'.memory.written = s.memory.written
  grows : (map s'.firmware).length ≤ (map s.firmware).length + 3
  new : space.begin ≠ 0 → window space.begin (space.pages.toNat * pageSize) ⊆ own s'.firmware
  apart : space.begin ≠ 0 → Disjoint (own s.firmware) (window space.begin (space.pages.toNat * pageSize))

theorem allocate_spec (hbs : Conforms bs map own descriptorSize) (memoryType : Nat) (s : Machine F)
    (bytes : BitVec 64) :
    Allocated map own s bytes.toNat (allocate bs memoryType s bytes).1 (allocate bs memoryType s bytes).2 := by
  have hroom := allocate_pages bs memoryType s bytes
  unfold allocate at hroom ⊢
  dsimp only at hroom ⊢
  obtain ⟨hown, hsame, hmap, hbuffer⟩ := hbs.allocate s.firmware s.memory.byte memoryType
    (bytes / BitVec.ofNat 64 pageSize + if bytes % BitVec.ofNat 64 pageSize ≠ 0 then 1 else 0)
  cases hr : (bs.allocatePages s.firmware s.memory.byte memoryType
      (bytes / BitVec.ofNat 64 pageSize + if bytes % BitVec.ofNat 64 pageSize ≠ 0 then 1 else 0)).buffer with
  | none => exact ⟨hroom, hown, hsame, rfl, hmap, fun h => absurd rfl h, fun h => absurd rfl h⟩
  | some buffer => exact ⟨hroom, hown, hsame, rfl, hmap, fun _ => (hbuffer buffer hr).1, fun _ => (hbuffer buffer hr).2⟩

end Allocate

/-! ## `FormRootTable` -/

section Form

variable {bs : BootServices F} {map : F → List Descriptor} {own : F → Set (BitVec 64)} {descriptorSize n : Nat}
  {s s' : Machine F} {root : BitVec 64}

/-- The root table is set up for `n` entries, and the map has had no chance to grow by more than three
descriptors since `n` was chosen. -/
structure Formed (map : F → List Descriptor) (own : F → Set (BitVec 64)) (root : BitVec 64) (n : Nat)
    (s : Machine F) : Prop where
  size : sizeofRootTable + n * sizeofMemoryEntry < 2 ^ 64
  table : window root (sizeofRootTable + n * sizeofMemoryEntry) ⊆ own s.firmware
  count : (memoryMapEntryCount s.memory root).toNat = n
  array : memoryMap s.memory root = root + BitVec.ofNat 64 sizeofRootTable
  map : (map s.firmware).length + 3 ≤ n

theorem Reports.count {f : F} {r : MapAnswer F} (h : Reports map own descriptorSize f r) (hpos : 0 < descriptorSize) :
    (r.memoryMapSize / r.descriptorSize).toNat = (map f).length := by
  rw [BitVec.toNat_udiv, h.size, h.stride, Nat.mul_div_cancel _ hpos]

theorem Reports.stride_ne_zero {f : F} {r : MapAnswer F} (h : Reports map own descriptorSize f r)
    (hpos : 0 < descriptorSize) : r.descriptorSize ≠ 0 := by
  intro hzero
  have hstride := h.stride
  rw [hzero] at hstride
  exact absurd hstride (by change ¬ 0 = _; omega)

/-- There are fewer than `2 ^ 59` descriptors, so nothing wraps. -/
theorem rootTableSize_eq (hbs : Conforms bs map own descriptorSize) {f : F} {q : MapAnswer F}
    (hquery : Reports map own descriptorSize f q) :
    (q.memoryMapSize / q.descriptorSize + 6).toNat = (map f).length + 6 ∧
      (BitVec.ofNat 64 sizeofRootTable + (q.memoryMapSize / q.descriptorSize + 6) *
        BitVec.ofNat 64 sizeofMemoryEntry).toNat = sizeofRootTable + ((map f).length + 6) * sizeofMemoryEntry := by
  have hstride := hbs.stride
  have hsize := hbs.size f
  have hpos : 0 < descriptorSize := by omega
  have hlength : (map f).length * 40 ≤ (map f).length * descriptorSize := Nat.mul_le_mul_left _ hstride
  have hmore : ((map f).length + 3) * descriptorSize = (map f).length * descriptorSize + 3 * descriptorSize :=
    Nat.add_mul ..
  have hcount : (q.memoryMapSize / q.descriptorSize + 6).toNat = (map f).length + 6 := by
    rw [BitVec.toNat_add, hquery.count hpos]
    exact Nat.mod_eq_of_lt (by change _ + 6 < _; omega)
  refine ⟨hcount, ?_⟩
  generalize q.memoryMapSize / q.descriptorSize + 6 = count at hcount
  simp only [sizeofRootTable_val, sizeofMemoryEntry_val]
  bv_omega

theorem formRootTable_spec (hbs : Conforms bs map own descriptorSize) (h : formRootTable bs s = some (root, s')) :
    Formed map own root ((map s.firmware).length + 6) s' := by
  obtain ⟨hquery, -⟩ := hbs.query s.firmware s.memory.byte
  have hstride := hbs.stride
  have hsize := hbs.size s.firmware
  have hlength : (map s.firmware).length * 40 ≤ (map s.firmware).length * descriptorSize :=
    Nat.mul_le_mul_left _ hstride
  have hmore : ((map s.firmware).length + 3) * descriptorSize = (map s.firmware).length * descriptorSize + 3 * descriptorSize :=
    Nat.add_mul ..
  unfold formRootTable allocateBytes at h
  dsimp only at h
  rw [if_neg (hquery.stride_ne_zero (by omega))] at h
  generalize bs.getMemoryMap s.firmware s.memory.byte 0 0 = q at h hquery
  obtain ⟨hcount, hbytes⟩ := rootTableSize_eq hbs hquery
  generalize q.memoryMapSize / q.descriptorSize + 6 = count at h hcount hbytes
  generalize BitVec.ofNat 64 sizeofRootTable + count * BitVec.ofNat 64 sizeofMemoryEntry = bytes at h hbytes
  have halloc := allocate_spec hbs efiLoaderData (s.after q.bytes q.firmware) bytes
  generalize allocate bs efiLoaderData (s.after q.bytes q.firmware) bytes = r at h halloc
  split at h
  · exact absurd h (by simp)
  · next hroot =>
    obtain ⟨rfl, rfl⟩ := Prod.mk.inj (Option.some.inj h)
    constructor
    · rw [sizeofRootTable_val, sizeofMemoryEntry_val]
      omega
    · rw [← hbytes]
      exact (window_mono halloc.room).trans (halloc.new hroot)
    · unfold memoryMapEntryCount
      dsimp only
      rw [read_write_apart (by decide) (by decide) (by decide), read_write_apart (by decide) (by decide) (by decide),
        read_write_self (by decide)]
      bv_omega
    · unfold memoryMap
      dsimp only
      rw [read_write_apart (by decide) (by decide) (by decide), read_write_self (by decide)]
      bv_omega
    · have hgrows := halloc.grows
      change _ ≤ (map q.firmware).length + 3 at hgrows
      rw [hquery.map] at hgrows
      change (map r.2.firmware).length + 3 ≤ _
      omega

end Form

/-! ## `RecoverMemoryMap` -/

section Recover

variable {m m' : Memory 64} {root buffer stride : BitVec 64} {size n i j : Nat} {ds : List Descriptor}

theorem descriptor_congr {d : BitVec 64} (h : AgreeOn (window d 40) m m') :
    Descriptor.load m' d = Descriptor.load m d := by
  have h0 : m'.read d 4 = m.read d 4 := read_congr (h.mono (window_mono (by decide)))
  have h8 : m'.read (d + 8) 8 = m.read (d + 8) 8 := read_at_congr h (by decide)
  have h24 : m'.read (d + 24) 8 = m.read (d + 24) 8 := read_at_congr h (by decide)
  unfold Descriptor.load
  rw [h0, h8, h24]

/-- The loop starts with the table set up for `n` entries and with the map `ds` in the buffer. -/
structure Ready (m : Memory 64) (root buffer stride : BitVec 64) (size n : Nat) (ds : List Descriptor) : Prop where
  bound : sizeofRootTable + n * sizeofMemoryEntry < 2 ^ 64
  length : ds.length ≤ n
  array : memoryMap m root = root + BitVec.ofNat 64 sizeofRootTable
  wide : 40 ≤ stride.toNat
  fits : ds.length * stride.toNat ≤ size
  descriptors : (List.range ds.length).map (descriptorAt m buffer stride.toNat) = ds
  apart : Disjoint (window root (sizeofRootTable + n * sizeofMemoryEntry)) (window buffer size)

def entryWindow (root : BitVec 64) (i : Nat) : Set (BitVec 64) :=
  window (root + BitVec.ofNat 64 (sizeofRootTable + i * sizeofMemoryEntry)) sizeofMemoryEntry

/-- What a round of the loop reads. -/
def sourceBytes (root buffer : BitVec 64) (size : Nat) : Set (BitVec 64) :=
  window root sizeofRootTable ∪ window buffer size

theorem entryWindow_subset (hi : i < n) :
    entryWindow root i ⊆ window (root + BitVec.ofNat 64 sizeofRootTable) (n * sizeofMemoryEntry) := by
  unfold entryWindow
  rw [BitVec.ofNat_add, ← BitVec.add_assoc]
  apply window_subset
  rw [sizeofMemoryEntry_val]
  omega

theorem array_apart_head (hbound : sizeofRootTable + n * sizeofMemoryEntry < 2 ^ 64) :
    Disjoint (window (root + BitVec.ofNat 64 sizeofRootTable) (n * sizeofMemoryEntry)) (window root sizeofRootTable) := by
  have hroot : window root sizeofRootTable = window (root + BitVec.ofNat 64 0) sizeofRootTable := by
    rw [BitVec.add_zero]
  rw [hroot]
  exact window_apart (by omega) (by decide) (Or.inr (by omega))

theorem entryWindow_apart_source (h : Ready m root buffer stride size n ds) (hi : i < n) :
    Disjoint (entryWindow root i) (sourceBytes root buffer size) := by
  have hbound := h.bound
  rw [sizeofRootTable_val, sizeofMemoryEntry_val] at hbound
  unfold sourceBytes
  rw [Set.disjoint_union_right]
  constructor
  · exact (array_apart_head h.bound).mono_left (entryWindow_subset hi)
  · apply h.apart.mono_left
    apply window_subset
    rw [sizeofMemoryEntry_val]
    omega

theorem entryWindow_apart (h : Ready m root buffer stride size n ds) (hi : i < n) (hj : j < n) (hij : i ≠ j) :
    Disjoint (entryWindow root i) (entryWindow root j) := by
  have hbound := h.bound
  rw [sizeofRootTable_val, sizeofMemoryEntry_val] at hbound
  unfold entryWindow
  rw [sizeofRootTable_val, sizeofMemoryEntry_val]
  exact window_apart (by omega) (by omega) (by omega)

/-- Whatever was stored before, a round makes the entry of its descriptor. -/
theorem recoverStep_eq (h : Ready m root buffer stride size n ds) (hi : i < ds.length)
    (hm' : AgreeOn (sourceBytes root buffer size) m m') :
    recoverStep root buffer stride i m' =
      (recoverEntry (descriptorAt m buffer stride.toNat i)).store m'
        (root + BitVec.ofNat 64 (sizeofRootTable + i * sizeofMemoryEntry)) := by
  have harray : memoryMap m' root = root + BitVec.ofNat 64 sizeofRootTable := by
    have hread := read_at_congr (d := offsetMemoryMap) (l := 8) (hm'.mono Set.subset_union_left) (by decide)
    rw [← h.array]
    unfold memoryMap
    rw [hread]
  have hdescriptor : Descriptor.load m' (buffer + BitVec.ofNat 64 (i * stride.toNat)) =
      descriptorAt m buffer stride.toNat i := by
    apply descriptor_congr
    apply hm'.mono
    apply (window_subset _).trans Set.subset_union_right
    have hfits := h.fits
    have hwide := h.wide
    have hnext : (i + 1) * stride.toNat ≤ ds.length * stride.toNat := Nat.mul_le_mul_right _ hi
    rw [Nat.succ_mul] at hnext
    omega
  unfold recoverStep
  have hoffset : BitVec.ofNat 64 i * stride = BitVec.ofNat 64 (i * stride.toNat) := by
    rw [BitVec.ofNat_mul, BitVec.ofNat_toNat, BitVec.setWidth_eq]
  rw [hoffset, hdescriptor, harray, ← BitVec.ofNat_mul, BitVec.add_assoc, ← BitVec.ofNat_add]

theorem recoverStep_puts (h : Ready m root buffer stride size n ds) (hi : i < ds.length) :
    Puts (sourceBytes root buffer size) m (recoverStep root buffer stride i) (entryWindow root i)
      ((recoverEntry (descriptorAt m buffer stride.toNat i)).store m
        (root + BitVec.ofNat 64 (sizeofRootTable + i * sizeofMemoryEntry))).byte := by
  constructor
  · intro m' hm' x hx
    rw [recoverStep_eq h hi hm']
    obtain ⟨k, hk, rfl⟩ := mem_window_iff.mp hx
    unfold MemoryEntry.store Memory.write
    rw [put_byte hk (by decide), put_byte hk (by decide)]
  · intro m' hm' x hx
    rw [recoverStep_eq h hi hm']
    exact write_written hx
  · intro m' hm'
    rw [recoverStep_eq h hi hm']
    exact write_sameOutside

theorem recoverLoop_spec (h : Ready m root buffer stride size n ds) :
    let m' := (List.range ds.length).foldl (fun m i => recoverStep root buffer stride i m) m
    SameOutside (window (root + BitVec.ofNat 64 sizeofRootTable) (n * sizeofMemoryEntry)) m m' ∧
      ∀ i < ds.length,
        MemoryEntry.load m' (root + BitVec.ofNat 64 (sizeofRootTable + i * sizeofMemoryEntry)) =
          recoverEntry (descriptorAt m buffer stride.toNat i) ∧
        ∀ x ∈ entryWindow root i, m'.written x = true := by
  have hlt : ∀ i ∈ List.range ds.length, i < ds.length := fun i hi => List.mem_range.mp hi
  have hn : ∀ i ∈ List.range ds.length, i < n := fun i hi => Nat.lt_of_lt_of_le (hlt i hi) h.length
  have hrun := Puts.run (f := fun i m => recoverStep root buffer stride i m)
    (fun i hi => recoverStep_puts h (hlt i hi)) (fun i hi => entryWindow_apart_source h (hn i hi))
    (List.nodup_range.imp_of_mem fun hi hj hij => entryWindow_apart h (hn _ hi) (hn _ hj) hij)
  intro m'
  refine ⟨?_, ?_⟩
  · apply hrun.1.mono
    exact Set.iUnion₂_subset fun i hi => entryWindow_subset (hn i hi)
  · intro i hi
    have hshows := hrun.2 i (List.mem_range.mpr hi)
    refine ⟨?_, fun x hx => (hshows x hx).2⟩
    rw [load_congr fun x hx => (hshows x hx).1, load_store]

end Recover

section Result

variable {bs : BootServices F} {map : F → List Descriptor} {own : F → Set (BitVec 64)} {descriptorSize n : Nat}
  {s s₁ s₂ : Machine F} {root : BitVec 64}

/-- What a successful `RecoverMemoryMap` leaves behind, for the map `ds` that it was given. -/
structure Recovered (root : BitVec 64) (n : Nat) (ds : List Descriptor) (m m' : Memory 64) : Prop where
  length : ds.length ≤ n
  table : AgreeOn (window root sizeofRootTable) m m'
  inBounds : ∀ x ∉ window (root + BitVec.ofNat 64 sizeofRootTable) (n * sizeofMemoryEntry),
    m'.written x = m.written x
  entries : (List.range ds.length).map
    (fun i => MemoryEntry.load m' (root + BitVec.ofNat 64 (sizeofRootTable + i * sizeofMemoryEntry))) =
      ds.map recoverEntry
  written : ∀ i < ds.length, ∀ x ∈ entryWindow root i, m'.written x = true

theorem recoverMemoryMap_spec (hbs : Conforms bs map own descriptorSize) (hformed : Formed map own root n s₁)
    (h : recoverMemoryMap bs s₁ root = some (true, s₂)) :
    Recovered root n (map (atFill bs s₁)) s₁.memory s₂.memory := by
  obtain ⟨hquery, hsame⟩ := hbs.query s₁.firmware s₁.memory.byte
  have hstride := hbs.stride
  have hsize := hbs.size s₁.firmware
  have hpos : 0 < descriptorSize := by omega
  unfold recoverMemoryMap allocateLoaderBytes at h
  unfold atFill allocateLoaderBytes
  dsimp only at h ⊢
  generalize bs.getMemoryMap s₁.firmware s₁.memory.byte 0 0 = q at h hquery hsame ⊢
  have hbytes : (q.memoryMapSize + q.descriptorSize * 3).toNat = ((map s₁.firmware).length + 3) * descriptorSize := by
    have hq := hquery.size
    have hd := hquery.stride
    rw [Nat.add_mul] at hsize ⊢
    bv_omega
  generalize q.memoryMapSize + q.descriptorSize * 3 = bytes at h hbytes ⊢
  have halloc := allocate_spec hbs efiBootServicesData (s₁.after q.bytes q.firmware) bytes
  generalize allocate bs efiBootServicesData (s₁.after q.bytes q.firmware) bytes = r at h halloc ⊢
  split at h
  · exact absurd h (by simp)
  split at h
  · exact absurd h (by simp)
  next hbuffer =>
  have hgrows : (map r.2.firmware).length ≤ (map s₁.firmware).length + 3 := by
    rw [← hquery.map]
    exact halloc.grows
  have hfits : (map r.2.firmware).length * descriptorSize ≤ bytes.toNat := by
    rw [hbytes]
    exact Nat.mul_le_mul_right _ hgrows
  have hroom : window r.1.begin bytes.toNat ⊆ own r.2.firmware :=
    (window_mono halloc.room).trans (halloc.new hbuffer)
  obtain ⟨hfill, hkept, hdescriptors⟩ := hbs.fill r.2.firmware r.2.memory.byte bytes r.1.begin hbuffer hfits hroom
  generalize bs.getMemoryMap r.2.firmware r.2.memory.byte bytes r.1.begin = a at h hfill hkept hdescriptors
  rw [if_neg (hfill.stride_ne_zero hpos), hfill.count hpos] at h
  obtain ⟨-, rfl⟩ := Prod.mk.inj (Option.some.inj h)
  -- The root table is in pages that the loader holds already, so the firmware leaves it alone.
  let table := window root (sizeofRootTable + n * sizeofMemoryEntry)
  have howned : table ⊆ own q.firmware := by
    rw [hquery.own]
    exact hformed.table
  have hapart : Disjoint table (window r.1.begin (r.1.pages.toNat * pageSize)) :=
    (halloc.apart hbuffer).mono_left howned
  have hbefore : AgreeOn table s₁.memory (r.2.after a.bytes a.firmware).memory := by
    intro x hx
    have hnot : x ∉ window r.1.begin bytes.toNat := fun hxb =>
      Set.disjoint_left.mp hapart hx (window_mono halloc.room hxb)
    have h₁ := hkept x (halloc.keeps (howned hx)) hnot
    have h₂ := halloc.same x (howned hx)
    have h₃ := hsame x (hformed.table hx)
    exact h₁.trans (h₂.trans h₃)
  have hhead : window root sizeofRootTable ⊆ table := window_mono (Nat.le_add_right _ _)
  have hready : Ready (r.2.after a.bytes a.firmware).memory root r.1.begin a.descriptorSize bytes.toNat n
      (map r.2.firmware) := by
    constructor
    · exact hformed.size
    · exact hgrows.trans hformed.map
    · have hread := read_at_congr (d := offsetMemoryMap) (l := 8) (hbefore.mono hhead) (by decide)
      rw [← hformed.array]
      unfold memoryMap
      rw [hread]
    · rw [hfill.stride]
      exact hstride
    · rw [hfill.stride]
      exact hfits
    · rw [hfill.stride]
      exact hdescriptors _
    · exact hapart.mono_right (window_mono halloc.room)
  obtain ⟨hframe, hentries⟩ := recoverLoop_spec hready
  generalize (List.range (map r.2.firmware).length).foldl
    (fun m i => recoverStep root r.1.begin a.descriptorSize i m) (r.2.after a.bytes a.firmware).memory = m
    at hframe hentries ⊢
  have hafter : AgreeOn table m
      (({ r.2.after a.bytes a.firmware with memory := m } : Machine F).after
        (bs.freePages (r.2.after a.bytes a.firmware).firmware m.byte r.1.begin r.1.pages).bytes
        (bs.freePages (r.2.after a.bytes a.firmware).firmware m.byte r.1.begin r.1.pages).firmware).memory := by
    intro x hx
    apply hbs.free
    · change x ∈ own a.firmware
      rw [hfill.own]
      exact halloc.keeps (howned hx)
    · exact Set.disjoint_left.mp hapart hx
  constructor
  · exact hgrows.trans hformed.map
  · intro x hx
    have hnot : x ∉ window (root + BitVec.ofNat 64 sizeofRootTable) (n * sizeofMemoryEntry) := fun hxa =>
      Set.disjoint_left.mp (array_apart_head hformed.size) hxa hx
    rw [hafter x (hhead hx), hframe.byte x hnot, hbefore x (hhead hx)]
  · intro x hx
    have hm := hframe.written x hx
    have hr := congrFun halloc.written x
    exact hm.trans hr
  · have hds : (map r.2.firmware).map recoverEntry = (List.range (map r.2.firmware).length).map
        (fun i => recoverEntry (descriptorAt (r.2.after a.bytes a.firmware).memory r.1.begin a.descriptorSize.toNat i)) := by
      conv_lhs => rw [← hready.descriptors]
      rw [List.map_map]
      rfl
    rw [hds]
    apply List.map_congr_left
    intro i hi
    have hlt := List.mem_range.mp hi
    rw [← (hentries i hlt).1]
    apply load_congr
    apply hafter.mono
    apply window_subset
    have hn := hready.length
    rw [sizeofMemoryEntry_val]
    omega
  · intro i hi x hx
    exact (hentries i hi).2 x hx

theorem Recovered.count {ds : List Descriptor} {m m' : Memory 64} (h : Recovered root n ds m m') :
    memoryMapEntryCount m' root = memoryMapEntryCount m root ∧ memoryMap m' root = memoryMap m root := by
  have hcount := read_at_congr (d := offsetMemoryMapEntryCount) (l := 8) h.table (by decide)
  have harray := read_at_congr (d := offsetMemoryMap) (l := 8) h.table (by decide)
  unfold memoryMapEntryCount memoryMap
  rw [hcount, harray]
  exact ⟨rfl, rfl⟩

/-- The published number of entries has to be the number of descriptors. -/
theorem seesMap_iff_length {ds : List Descriptor} (hformed : Formed map own root n s₁)
    (h : Recovered root n ds s₁.memory s₂.memory) :
    SeesMap ds root s₁.memory s₂.memory ↔ ds.length = n := by
  obtain ⟨hcount, harray⟩ := h.count
  have hn := hformed.count
  constructor
  · intro hsees
    have hlength := hsees.entries.length_eq
    unfold kernelEntries at hlength
    rwa [List.length_map, List.length_range, hcount, hn] at hlength
  · intro hlength
    have hentry : ∀ i, entryAt s₂.memory root i =
        root + BitVec.ofNat 64 (sizeofRootTable + i * sizeofMemoryEntry) := by
      intro i
      unfold entryAt
      rw [harray, hformed.array, BitVec.add_assoc, ← BitVec.ofNat_add]
    constructor
    · rw [hformed.array, hn]
      exact h.inBounds
    · have hentries : kernelEntries s₂.memory root = ds.map recoverEntry := by
        rw [← h.entries, hlength]
        unfold kernelEntries
        rw [hcount, hn]
        exact List.map_congr_left fun i _ => by rw [hentry]
      rw [hentries, List.forall₂_map_right_iff, List.forall₂_same]
      exact fun d _ => recoverEntry_describes d
    · intro i hi x hx
      rw [hcount, hn] at hi
      rw [hentry] at hx
      exact h.written i (by omega) x hx

/-- The kernel sees exactly the firmware's map if the two allocations of the loader have added six
descriptors to it, as `FormRootTable` takes for granted. -/
theorem seesMap_iff (hbs : Conforms bs map own descriptorSize) (hform : formRootTable bs s = some (root, s₁))
    (hrecover : recoverMemoryMap bs s₁ root = some (true, s₂)) :
    SeesMap (map (atFill bs s₁)) root s₁.memory s₂.memory ↔
      (map (atFill bs s₁)).length = (map s.firmware).length + 6 :=
  seesMap_iff_length (formRootTable_spec hbs hform)
    (recoverMemoryMap_spec hbs (formRootTable_spec hbs hform) hrecover)

end Result

/-! ## A firmware -/

/-- Two free pages at 4096. -/
def plainDescriptor : Descriptor where
  type := 7
  physicalStart := 4096
  numberOfPages := 2

def plainBytes : Nat := 7 + 2 ^ 64 * 4096 + 2 ^ 192 * 2

/-- The map after `t` allocations that add `k` descriptors each. -/
def plainMap (k t : Nat) : List Descriptor := List.replicate (1 + k * min t 2) plainDescriptor

/-- The buffers of the two allocations are 256 pages each. -/
def plainOwn (t : Nat) : Set (BitVec 64) :=
  {x | (0 < t ∧ x ∈ window (0x100000 : BitVec 64) 0x100000) ∨ (1 < t ∧ x ∈ window (0x200000 : BitVec 64) 0x100000)}

/-- A firmware whose state is the number of allocations made. Each one of the first two adds `k` descriptors. -/
def plainFirmware (k : Nat) : BootServices Nat where
  getMemoryMap t bytes memoryMapSize buffer :=
    let length := (plainMap k t).length
    let fits := buffer ≠ 0 ∧ length * 48 ≤ memoryMapSize.toNat
    { status := if fits then 0 else efiBufferTooSmall
      memoryMapSize := BitVec.ofNat 64 (length * 48)
      descriptorSize := 48
      bytes := fun x =>
        if fits ∧ (x - buffer).toNat < length * 48 then BitVec.ofNat 8 (plainBytes / 256 ^ ((x - buffer).toNat % 48))
        else bytes x
      firmware := t }
  allocatePages t bytes _ pages :=
    { buffer := if pages.toNat ≤ 256 ∧ t = 0 then some 0x100000
        else if pages.toNat ≤ 256 ∧ t = 1 then some 0x200000 else none
      bytes := bytes
      firmware := t + 1 }
  freePages t bytes _ _ := { bytes := bytes, firmware := t }

theorem plainMap_length (k t : Nat) : (plainMap k t).length = 1 + k * min t 2 := List.length_replicate

theorem plainFirmware_fill {k t i : Nat} {bytes : BitVec 64 → BitVec 8} {memoryMapSize buffer : BitVec 64} (hk : k ≤ 3)
    (hbuffer : buffer ≠ 0) (hfits : (plainMap k t).length * 48 ≤ memoryMapSize.toNat) (hi : i < (plainMap k t).length)
    (marks : BitVec 64 → Bool) :
    descriptorAt ⟨((plainFirmware k).getMemoryMap t bytes memoryMapSize buffer).bytes, marks⟩ buffer 48 i =
      plainDescriptor := by
  let a := buffer + BitVec.ofNat 64 (i * 48)
  let m : Memory 64 := ⟨bytes, marks⟩
  have hlength : (plainMap k t).length ≤ 7 := by
    rw [plainMap_length]
    have : k * min t 2 ≤ 3 * 2 := Nat.mul_le_mul hk (Nat.min_le_right t 2)
    omega
  have hagree : AgreeOn (window a 40) (m.write a 48 plainBytes)
      ⟨((plainFirmware k).getMemoryMap t bytes memoryMapSize buffer).bytes, marks⟩ := by
    intro x hx
    obtain ⟨j, hj, rfl⟩ := mem_window_iff.mp hx
    have hoff : (a + BitVec.ofNat 64 j - buffer).toNat = i * 48 + j := by
      unfold a
      rw [BitVec.add_assoc, ← BitVec.ofNat_add, offset_toNat]
      exact Nat.mod_eq_of_lt (by omega)
    have hbyte : (m.write a 48 plainBytes).byte (a + BitVec.ofNat 64 j) = BitVec.ofNat 8 (plainBytes / 256 ^ j) :=
      put_byte (by omega) (by decide)
    unfold plainFirmware
    dsimp only
    rw [hbyte, hoff, if_pos ⟨⟨hbuffer, hfits⟩, by omega⟩, Nat.mul_add_mod', Nat.mod_eq_of_lt (by omega)]
  have h0 : (m.write a 48 plainBytes).read a 4 = 7 := by
    have := read_write (m := m) (a := a) (k := 48) (v := plainBytes) (d := 0) (l := 4) (by decide) (by decide)
    rwa [BitVec.add_zero] at this
  have h8 : (m.write a 48 plainBytes).read (a + 8) 8 = 4096 := read_write (d := 8) (by decide) (by decide)
  have h24 : (m.write a 48 plainBytes).read (a + 24) 8 = 2 := read_write (d := 24) (by decide) (by decide)
  unfold descriptorAt
  rw [descriptor_congr hagree]
  unfold Descriptor.load
  rw [h0, h8, h24]
  rfl

theorem plainFirmware_reports {k : Nat} (hk : k ≤ 3) (t : Nat) (bytes : BitVec 64 → BitVec 8)
    (memoryMapSize buffer : BitVec 64) :
    Reports (plainMap k) plainOwn 48 t ((plainFirmware k).getMemoryMap t bytes memoryMapSize buffer) := by
  constructor
  · have hlength := plainMap_length k t
    have : k * min t 2 ≤ 3 * 2 := Nat.mul_le_mul hk (Nat.min_le_right t 2)
    unfold plainFirmware
    dsimp only
    rw [BitVec.toNat_ofNat]
    exact Nat.mod_eq_of_lt (by omega)
  · rfl
  · rfl
  · rfl

theorem plainOwn_mono (t : Nat) : plainOwn t ⊆ plainOwn (t + 1) := by
  rintro x (⟨ht, hx⟩ | ⟨ht, hx⟩)
  · exact Or.inl ⟨by omega, hx⟩
  · exact Or.inr ⟨by omega, hx⟩

theorem plainFirmware_buffer {k t : Nat} {bytes : BitVec 64 → BitVec 8} {memoryType : Nat} {pages buffer : BitVec 64}
    (h : ((plainFirmware k).allocatePages t bytes memoryType pages).buffer = some buffer) :
    window buffer (pages.toNat * pageSize) ⊆ plainOwn (t + 1) ∧
      Disjoint (plainOwn t) (window buffer (pages.toNat * pageSize)) := by
  unfold plainFirmware at h
  dsimp only at h
  split at h
  · next hfirst =>
    obtain ⟨hpages, rfl⟩ := hfirst
    obtain rfl := Option.some.inj h
    constructor
    · intro x hx
      exact Or.inl ⟨by decide, window_mono (by rw [pageSize_val]; omega) hx⟩
    · rw [Set.disjoint_left]
      rintro x (⟨ht, -⟩ | ⟨ht, -⟩)
      · exact absurd ht (by decide)
      · exact absurd ht (by decide)
  · split at h
    · next hsecond =>
      obtain ⟨hpages, rfl⟩ := hsecond
      obtain rfl := Option.some.inj h
      constructor
      · intro x hx
        exact Or.inr ⟨by decide, window_mono (by rw [pageSize_val]; omega) hx⟩
      · rw [Set.disjoint_left]
        rintro x (⟨-, hx⟩ | ⟨ht, -⟩) hbuffer
        · unfold window at hx hbuffer
          rw [Set.mem_ofPred_eq] at hx hbuffer
          rw [pageSize_val] at hbuffer
          bv_omega
        · exact absurd ht (by decide)
    · exact absurd h (by simp)

theorem plainFirmware_conforms {k : Nat} (hk : k ≤ 3) : Conforms (plainFirmware k) (plainMap k) plainOwn 48 where
  stride := by decide
  size t := by
    have : k * min t 2 ≤ 3 * 2 := Nat.mul_le_mul hk (Nat.min_le_right t 2)
    rw [plainMap_length]
    omega
  query t bytes := by
    refine ⟨plainFirmware_reports hk t bytes 0 0, fun x _ => ?_⟩
    unfold plainFirmware
    dsimp only
    apply if_neg
    rintro ⟨⟨hbuffer, -⟩, -⟩
    exact hbuffer rfl
  fill t bytes memoryMapSize buffer hbuffer hfits _ := by
    refine ⟨plainFirmware_reports hk t bytes memoryMapSize buffer, ?_, ?_⟩
    · intro x _ hx
      unfold plainFirmware
      dsimp only
      apply if_neg
      rintro ⟨-, hlt⟩
      exact hx (Nat.lt_of_lt_of_le hlt hfits)
    · intro marks
      apply List.eq_replicate_iff.mpr
      refine ⟨by rw [List.length_map, List.length_range, plainMap_length], ?_⟩
      intro d hd
      obtain ⟨i, hi, rfl⟩ := List.mem_map.mp hd
      exact plainFirmware_fill hk hbuffer hfits (List.mem_range.mp hi) marks
  allocate t bytes memoryType pages := by
    refine ⟨plainOwn_mono t, fun _ _ => rfl, ?_, fun buffer h => plainFirmware_buffer h⟩
    change (plainMap k (t + 1)).length ≤ (plainMap k t).length + 3
    rw [plainMap_length, plainMap_length]
    have : min (t + 1) 2 ≤ min t 2 + 1 := by omega
    have := Nat.mul_le_mul_left k this
    rw [Nat.mul_add] at this
    omega
  free t bytes buffer pages := fun _ _ _ => rfl

def plainStart : Machine Nat where
  firmware := 0
  memory := { byte := fun _ => 0xA5, written := fun _ => false }

def plainFormed (k : Nat) : BitVec 64 × Machine Nat :=
  (formRootTable (plainFirmware k) plainStart).getD (0, plainStart)

def plainRecovered (k : Nat) : Bool × Machine Nat :=
  (recoverMemoryMap (plainFirmware k) (plainFormed k).2 (plainFormed k).1).getD (false, plainStart)

theorem plainForm_zero : formRootTable (plainFirmware 0) plainStart = some ((plainFormed 0).1, (plainFormed 0).2) := rfl

theorem plainForm_three : formRootTable (plainFirmware 3) plainStart = some ((plainFormed 3).1, (plainFormed 3).2) := rfl

theorem plainRecover_zero :
    recoverMemoryMap (plainFirmware 0) (plainFormed 0).2 (plainFormed 0).1 = some (true, (plainRecovered 0).2) := rfl

theorem plainRecover_three :
    recoverMemoryMap (plainFirmware 3) (plainFormed 3).2 (plainFormed 3).1 = some (true, (plainRecovered 3).2) := rfl

theorem seesMap_iff_grown :
    SeesMap (plainMap 3 (atFill (plainFirmware 3) (plainFormed 3).2)) (plainFormed 3).1 (plainFormed 3).2.memory
      (plainRecovered 3).2.memory :=
  (seesMap_iff (plainFirmware_conforms (by decide)) plainForm_three plainRecover_three).mpr (by decide)

/-- A map that does not grow: the kernel goes through seven entries, and one is written. -/
theorem seesMap_fails :
    Conforms (plainFirmware 0) (plainMap 0) plainOwn 48 ∧
      formRootTable (plainFirmware 0) plainStart = some ((plainFormed 0).1, (plainFormed 0).2) ∧
      recoverMemoryMap (plainFirmware 0) (plainFormed 0).2 (plainFormed 0).1 = some (true, (plainRecovered 0).2) ∧
      ¬ SeesMap (plainMap 0 (atFill (plainFirmware 0) (plainFormed 0).2)) (plainFormed 0).1 (plainFormed 0).2.memory
        (plainRecovered 0).2.memory := by
  have hbs : Conforms (plainFirmware 0) (plainMap 0) plainOwn 48 := plainFirmware_conforms (by decide)
  have hformed := formRootTable_spec hbs plainForm_zero
  refine ⟨hbs, plainForm_zero, plainRecover_zero, ?_⟩
  rw [seesMap_iff_length hformed (recoverMemoryMap_spec hbs hformed plainRecover_zero)]
  decide

end GenericOs.Loader
