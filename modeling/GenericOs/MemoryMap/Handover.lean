import GenericOs.Loader.MemoryMap
import GenericOs.MemoryMap.Iterate

/-!
# From the firmware's map to the kernel's loop

The loader stores entries for the descriptors, and the kernel goes through the published
number of entries. Entries behind the last descriptor hold anything, and change nothing in front.
-/

namespace GenericOs.MemoryMap

open Bytes Cursor Loader

variable {F : Type}

/-- The descriptor is for memory that the kernel may use, and shares a byte with the window. -/
structure Offers (begin length : BitVec 64) (d : Descriptor) : Prop where
  available : isAvailableMemoryType d.type.toNat = true
  shares : ∃ x, d.physicalStart.toNat ≤ x ∧ x < d.physicalStart.toNat + d.numberOfPages.toNat * pageSize.toNat ∧
    begin.toNat ≤ x ∧ x < begin.toNat + length.toNat

/-- The pages of the descriptor are addresses. -/
structure Addressable (d : Descriptor) : Prop where
  pos : 0 < d.numberOfPages.toNat
  last : d.physicalStart.toNat + d.numberOfPages.toNat * pageSize.toNat < 2 ^ 64

section

variable {begin length : BitVec 64} {d : Descriptor} {map : F → List Descriptor} {own : F → Set (BitVec 64)}
  {descriptorSize n i : Nat} {bs : BootServices F} {s s₁ s₂ : Machine F} {root : BitVec 64} {ds : List Descriptor}
  {m : Memory 64}

theorem Addressable.pages (h : Addressable d) : (recoverEntry d).pages.toNat = d.numberOfPages.toNat := by
  apply (recoverEntry_describes d).pages
  have hlast := h.last
  change _ + _ * 4096 < _ at hlast
  omega

theorem taken_recoverEntry (hd : Addressable d) (hlength : 0 < length.toNat)
    (hstop : begin.toNat + length.toNat < 2 ^ 64) :
    taken begin (begin + length) (recoverEntry d) = true ↔ Offers begin length d := by
  have hpages := hd.pages
  have hpos := hd.pos
  have hlast := hd.last
  have hbit : ∀ b : Bool, (if b then (1 : BitVec 8) else 0).getLsbD 0 = b := by decide
  have htype : (recoverEntry d).type.getLsbD 0 = isAvailableMemoryType d.type.toNat := hbit _
  rw [taken_iff hlength hstop (by omega) (by rw [hpages]; exact hlast)]
  constructor
  · rintro ⟨havailable, x, ⟨hlow, hhigh⟩, hin⟩
    rw [hpages] at hhigh
    exact ⟨htype.symm.trans havailable, x, hlow, hhigh, hin⟩
  · rintro ⟨havailable, x, hlow, hhigh, hin⟩
    rw [← hpages] at hhigh
    exact ⟨htype.trans havailable, x, ⟨hlow, hhigh⟩, hin⟩

/-- In front there is one entry for each descriptor, in their order. -/
theorem kernelEntries_front (hformed : Formed map own root n s₁) (h : Recovered root n ds s₁.memory s₂.memory)
    (hi : i < ds.length) : (kernelEntries s₂.memory root)[i]? = ds[i]?.map recoverEntry := by
  obtain ⟨hcount, harray⟩ := h.count
  have hentry : entryAt s₂.memory root i = root + BitVec.ofNat 64 (sizeofRootTable + i * sizeofMemoryEntry) := by
    unfold entryAt
    rw [harray, hformed.array, BitVec.ofNat_add, ← BitVec.add_assoc]
  have hloaded := congrArg (·[i]?) h.entries
  simp only [List.getElem?_map, List.getElem?_range hi, Option.map_some] at hloaded
  have hn : i < n := Nat.lt_of_lt_of_le hi h.length
  unfold kernelEntries
  rw [hcount, hformed.count, List.getElem?_map, List.getElem?_range hn, Option.map_some, hentry, hloaded]

/-- Whatever the firmware answers in between, the kernel's loop over the published table goes through exactly the
available descriptors of the window, in the order of the map, before it gets to the entries behind them. -/
theorem nextMemoryEntryWithin_offers (hbs : Conforms bs map own descriptorSize)
    (hform : formRootTable bs s = some (root, s₁)) (hrecover : recoverMemoryMap bs s₁ root = some (true, s₂))
    (hmap : ∀ d ∈ map (atFill bs s₁), Addressable d) (hlength : 0 < length.toNat)
    (hstop : begin.toNat + length.toNat < 2 ^ 64) :
    ∃ is : List Nat, is.Pairwise (· < ·) ∧
      Enumerates (nextMemoryEntryWithin begin length (kernelEntries s₂.memory root)) none (is.map some) ∧
      ∀ i < (map (atFill bs s₁)).length, i ∈ is ↔ ∃ d, (map (atFill bs s₁))[i]? = some d ∧ Offers begin length d := by
  have hformed := formRootTable_spec hbs hform
  have hfront := fun i hi => kernelEntries_front (i := i) hformed (recoverMemoryMap_spec hbs hformed hrecover) hi
  generalize kernelEntries s₂.memory root = entries at hfront
  refine ⟨indices begin (begin + length) 0 entries, indices_sorted,
    enumerates_of_follows (follows_indices (fun _ => rfl) (@List.drop_zero _ entries).symm rfl), fun i hi => ?_⟩
  rw [mem_indices, Nat.sub_zero, hfront i hi]
  constructor
  · rintro ⟨e, he, -, htaken⟩
    obtain ⟨d, hd, rfl⟩ := Option.map_eq_some_iff.mp he
    exact ⟨d, hd, (taken_recoverEntry (hmap d (List.mem_of_getElem? hd)) hlength hstop).mp htaken⟩
  · rintro ⟨d, hd, hoffers⟩
    refine ⟨recoverEntry d, by rw [hd]; rfl, Nat.zero_le i, ?_⟩
    exact (taken_recoverEntry (hmap d (List.mem_of_getElem? hd)) hlength hstop).mpr hoffers

end

/-- The map of one descriptor, and six entries behind it that nobody has written. -/
theorem nextMemoryEntryWithin_offers_plain :
    ∃ is : List Nat, Enumerates (nextMemoryEntryWithin 8192 1 (kernelEntries (plainRecovered 0).2.memory (plainFormed 0).1))
      none (is.map some) ∧ 0 ∈ is := by
  have hmap : ∀ d ∈ plainMap 0 (atFill (plainFirmware 0) (plainFormed 0).2), Addressable d := by
    intro d hd
    obtain rfl := List.eq_of_mem_replicate hd
    exact ⟨by decide, by decide⟩
  obtain ⟨is, -, henum, hfront⟩ := nextMemoryEntryWithin_offers (plainFirmware_conforms (by decide)) plainForm_zero
    plainRecover_zero hmap (by decide : 0 < (1 : BitVec 64).toNat) (by decide : (8192 : BitVec 64).toNat + 1 < 2 ^ 64)
  refine ⟨is, henum, (hfront 0 (by decide)).mpr ⟨plainDescriptor, rfl, by decide, 8192, ?_⟩⟩
  decide

end GenericOs.MemoryMap
