import Mathlib.Tactic.IntervalCases
import GenericOs.Acpi.Srat

/-!
# The entries of an SRAT

What a firmware lays out in the table is what the loop with `NextSRATEntry` and
`LAPICProximityDomain` reads, and the other way round.
-/

namespace GenericOs.Acpi

open Bytes Cursor

/-- An entry: its type, and the bytes behind `Length`. -/
structure Affinity where
  type : BitVec 8
  body : List (BitVec 8)
  short : body.length < 254

namespace Affinity

def size (e : Affinity) : Nat := e.body.length + 2

/-- The entry as `SDT.h` lays it out. -/
def bytes (e : Affinity) : List (BitVec 8) := e.type :: BitVec.ofNat 8 e.size :: e.body

/-- The entry at an address. -/
def load (m : Memory 64) (a : BitVec 64) : Affinity where
  type := m.byte a
  body := m.bytes (a + 2) ((affinityLength m a).toNat - 2)
  short := by
    have hlt : (affinityLength m a).toNat < 256 := (affinityLength m a).isLt
    rw [bytes_length]
    omega

end Affinity

/-- The four bytes of a word, the low byte first. -/
def wordBytes (v : BitVec 32) : List (BitVec 8) :=
  [v.setWidth 8, (v >>> 8).setWidth 8, (v >>> 16).setWidth 8, (v >>> 24).setWidth 8]

structure LAPICAffinity where
  proximityDomain : BitVec 32
  lapicID : BitVec 8
  flags : BitVec 32
  lsapicEID : BitVec 8
  clockDomain : BitVec 32

/-- The low byte of the domain is apart from the other three. -/
def LAPICAffinity.affinity (l : LAPICAffinity) : Affinity where
  type := 0
  body := (wordBytes l.proximityDomain).take 1 ++ [l.lapicID] ++ wordBytes l.flags ++ [l.lsapicEID] ++
    (wordBytes l.proximityDomain).drop 1 ++ wordBytes l.clockDomain
  short := by simp [wordBytes]

/-- The entries lie one behind another, and fill the table. -/
structure Serialized (m : Memory 64) (srat : BitVec 64) (es : List Affinity) : Prop where
  length : (length m srat).toNat = offsetSRATEntries + (es.flatMap Affinity.bytes).length
  bytes : m.bytes (entryAddress srat offsetSRATEntries) (es.flatMap Affinity.bytes).length = es.flatMap Affinity.bytes

/-! ## One entry -/

section

variable {m : Memory 64} {srat a : BitVec 64} {o n k : Nat} {e : Affinity} {es : List Affinity} {ls : List Nat}

theorem Affinity.bytes_length (e : Affinity) : e.bytes.length = e.size := rfl

theorem Affinity.size_lt (e : Affinity) : e.size < 256 := by
  have hshort := e.short
  unfold size
  omega

/-- The bytes of an entry are at `a` exactly if it is what is loaded from there, and as long as it says. -/
theorem bytes_eq_iff : m.bytes a e.size = e.bytes ↔ Affinity.load m a = e ∧ (affinityLength m a).toNat = e.size := by
  have hlt := e.size_lt
  have hsize : e.size = 2 + e.body.length := Nat.add_comm _ _
  have htwo : m.bytes a 2 = [m.byte a, affinityLength m a] := by
    unfold Memory.bytes
    rw [show List.range 2 = [0, 1] from rfl]
    simp only [List.map_cons, List.map_nil, BitVec.add_zero]
    rfl
  rw [hsize, bytes_add, htwo, ← hsize]
  unfold Affinity.bytes
  simp only [List.cons_append, List.nil_append, List.cons.injEq]
  constructor
  · rintro ⟨htype, hlength, hbody⟩
    have hnat : (affinityLength m a).toNat = e.size := by
      rw [hlength, BitVec.toNat_ofNat, Nat.mod_eq_of_lt hlt]
    refine ⟨?_, hnat⟩
    cases e with
    | mk type body short =>
      unfold Affinity.load
      simp only [Affinity.mk.injEq]
      refine ⟨htype, ?_⟩
      rw [hnat]
      exact hbody
  · rintro ⟨rfl, hnat⟩
    refine ⟨rfl, ?_, ?_⟩
    · rw [← hnat, BitVec.ofNat_toNat, BitVec.setWidth_eq]
    · exact congrArg (m.bytes (a + 2)) bytes_length

/-! ## The whole table -/

/-- From an offset on: the bytes are those of the entries exactly if the entries tile them. -/
theorem bytes_eq_iff_tiled : (o + (es.flatMap Affinity.bytes).length = (length m srat).toNat ∧
      m.bytes (entryAddress srat o) (es.flatMap Affinity.bytes).length = es.flatMap Affinity.bytes) ↔
    Tiled m srat o (es.map Affinity.size) ∧
      (offsets o (es.map Affinity.size)).map (fun o => Affinity.load m (entryAddress srat o)) = es := by
  induction es generalizing o with
  | nil => simp [Tiled, offsets, Memory.bytes]
  | cons e es ih =>
    have hnext : entryAddress srat o + BitVec.ofNat 64 e.size = entryAddress srat (o + e.size) := by
      unfold entryAddress
      rw [BitVec.ofNat_add, BitVec.add_assoc]
    have hsize : 2 ≤ e.size := Nat.le_add_left 2 _
    have hsplit : m.bytes (entryAddress srat o) e.size ++ m.bytes (entryAddress srat (o + e.size))
          (es.flatMap Affinity.bytes).length = e.bytes ++ es.flatMap Affinity.bytes ↔
        m.bytes (entryAddress srat o) e.size = e.bytes ∧ m.bytes (entryAddress srat (o + e.size))
          (es.flatMap Affinity.bytes).length = es.flatMap Affinity.bytes := by
      constructor
      · intro h
        exact List.append_inj h (by rw [bytes_length, e.bytes_length])
      · rintro ⟨hfirst, hrest⟩
        rw [hfirst, hrest]
    rw [List.flatMap_cons, List.length_append, e.bytes_length, bytes_add, hnext, ← Nat.add_assoc, hsplit, bytes_eq_iff]
    simp only [List.map_cons, Tiled, offsets, List.cons.injEq]
    constructor
    · rintro ⟨hlength, ⟨hload, hfirst⟩, hrest⟩
      obtain ⟨htiled, hloads⟩ := ih.mp ⟨hlength, hrest⟩
      exact ⟨⟨hsize, hfirst, htiled⟩, hload, hloads⟩
    · rintro ⟨⟨-, hfirst, htiled⟩, hload, hloads⟩
      obtain ⟨hlength, hrest⟩ := ih.mpr ⟨htiled, hloads⟩
      exact ⟨hlength, ⟨hload, hfirst⟩, hrest⟩

theorem serialized_iff : Serialized m srat es ↔ Tiled m srat offsetSRATEntries (es.map Affinity.size) ∧
    (offsets offsetSRATEntries (es.map Affinity.size)).map (fun o => Affinity.load m (entryAddress srat o)) = es := by
  rw [← bytes_eq_iff_tiled]
  exact ⟨fun h => ⟨h.length.symm, h.bytes⟩, fun h => ⟨h.1.symm, h.2⟩⟩

theorem size_load (h : 2 ≤ entryLength m srat o) :
    (Affinity.load m (entryAddress srat o)).size = entryLength m srat o := by
  unfold Affinity.size Affinity.load
  rw [bytes_length]
  exact Nat.sub_add_cancel h

theorem Tiled.sizes (h : Tiled m srat o ls) :
    ((offsets o ls).map fun o => Affinity.load m (entryAddress srat o)).map Affinity.size = ls := by
  induction ls generalizing o with
  | nil => rfl
  | cons l ls ih =>
    obtain ⟨hl, hlength, hrest⟩ := h
    unfold offsets
    rw [List.map_cons, List.map_cons, ih hrest, size_load (by omega), hlength]

theorem Tiled.serialized (h : Tiled m srat offsetSRATEntries ls) :
    Serialized m srat ((offsets offsetSRATEntries ls).map fun o => Affinity.load m (entryAddress srat o)) := by
  rw [serialized_iff, h.sizes]
  exact ⟨h, rfl⟩

/-! ## Domains -/

theorem wordBytes_join (v : BitVec 32) :
    (v.setWidth 8).setWidth 32 ||| ((v >>> 8).setWidth 8).setWidth 32 <<< 8 |||
      ((v >>> 16).setWidth 8).setWidth 32 <<< 16 ||| ((v >>> 24).setWidth 8).setWidth 32 <<< 24 = v := by
  ext i hi
  interval_cases i <;> simp

theorem lapicProximityDomain_load {l : LAPICAffinity} (h : Affinity.load m a = l.affinity) :
    lapicProximityDomain m a = l.proximityDomain := by
  have hbody : m.bytes (a + 2) ((affinityLength m a).toNat - 2) = l.affinity.body := congrArg Affinity.body h
  have hlength : (affinityLength m a).toNat - 2 = 14 := by
    have hlist := congrArg List.length hbody
    rwa [bytes_length] at hlist
  have hat : ∀ k < 14, l.affinity.body[k]? = some (m.byte (a + BitVec.ofNat 64 (2 + k))) := by
    intro k hk
    rw [← hbody, bytes_getElem? (by omega), BitVec.ofNat_add, ← BitVec.add_assoc]
    rfl
  have hlow : l.proximityDomain.setWidth 8 = proximityDomainLow m a := Option.some.inj (hat 0 (by decide))
  have hhigh₀ : (l.proximityDomain >>> 8).setWidth 8 = proximityDomainHigh m a 0 := Option.some.inj (hat 7 (by decide))
  have hhigh₁ : (l.proximityDomain >>> 16).setWidth 8 = proximityDomainHigh m a 1 := Option.some.inj (hat 8 (by decide))
  have hhigh₂ : (l.proximityDomain >>> 24).setWidth 8 = proximityDomainHigh m a 2 := Option.some.inj (hat 9 (by decide))
  unfold lapicProximityDomain
  rw [← hlow, ← hhigh₀, ← hhigh₁, ← hhigh₂, wordBytes_join]

theorem enumerates_offsets (hfits : Fits m srat) (h : Tiled m srat offsetSRATEntries ls) (hne : ls ≠ []) :
    Enumerates (nextSRATEntry m srat) 0 ((offsets offsetSRATEntries ls).map (entryAddress srat)) := by
  apply enumerates_of_follows
  cases ls with
  | nil => exact absurd rfl hne
  | cons l ls =>
    obtain ⟨-, hlength, hrest⟩ := h
    rw [← hlength] at hrest ⊢
    exact ⟨nextSRATEntry_first, follows_offsets hfits (by decide) hrest⟩

/-- Whatever entries are laid out, the loop returns them in their order, and each domain of a local APIC. Whatever
table the entries tile, what the loop returns is laid out in it. -/
theorem srat_roundtrip (hfits : Fits m srat) :
    (∀ es ≠ [], Serialized m srat es → ∃ entries, Enumerates (nextSRATEntry m srat) 0 entries ∧
      entries.map (Affinity.load m) = es ∧
      ∀ (i : Nat) (l : LAPICAffinity), es[i]? = some l.affinity →
        entries[i]?.map (lapicProximityDomain m) = some l.proximityDomain) ∧
    ∀ ls ≠ [], Tiled m srat offsetSRATEntries ls → ∃ entries, Enumerates (nextSRATEntry m srat) 0 entries ∧
      Serialized m srat (entries.map (Affinity.load m)) := by
  constructor
  · intro es hne h
    obtain ⟨htiled, hloads⟩ := serialized_iff.mp h
    have hentries : ((offsets offsetSRATEntries (es.map Affinity.size)).map (entryAddress srat)).map
        (Affinity.load m) = es := (List.map_map ..).trans hloads
    refine ⟨_, enumerates_offsets hfits htiled (by simpa using hne), hentries, fun i l hl => ?_⟩
    rw [← hentries, List.getElem?_map] at hl
    obtain ⟨e, he, hload⟩ := Option.map_eq_some_iff.mp hl
    rw [he, Option.map_some, lapicProximityDomain_load hload]
  · intro ls hne htiled
    refine ⟨_, enumerates_offsets hfits htiled hne, ?_⟩
    rw [List.map_map]
    exact htiled.serialized

end

/-- A local APIC of a domain above 255, and memory. -/
def farEntries : List Affinity :=
  [LAPICAffinity.affinity ⟨0x01020304, 5, 1, 0, 0⟩, ⟨1, List.replicate 36 0, by decide⟩]

def farDomain : Memory 64 := oneTableMemory (sratBytes 102 25 (farEntries.flatMap Affinity.bytes))

theorem srat_roundtrip_far : ∃ entries, Enumerates (nextSRATEntry farDomain 8192) 0 entries ∧
    entries[0]?.map (lapicProximityDomain farDomain) = some 0x01020304 := by
  have hfits : Fits farDomain 8192 := by constructor <;> decide +kernel
  have hserialized : Serialized farDomain 8192 farEntries := by constructor <;> decide +kernel
  obtain ⟨entries, henum, -, hdomain⟩ := (srat_roundtrip hfits).1 farEntries (List.cons_ne_nil _ _) hserialized
  exact ⟨entries, henum, hdomain 0 _ rfl⟩

end GenericOs.Acpi
