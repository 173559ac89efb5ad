import GenericOs.Library.Cursor
import GenericOs.Acpi.Find

/-!
# Going through an SRAT

`NextSRATEntry` looks for the end of the table only behind an entry, so it returns a first
entry even where there is none, and its steps are as long as the bytes of the table say.
-/

namespace GenericOs.Acpi

open Bytes Cursor

/-- The entry at an offset in the SRAT, and its `Generic.Length`. -/
def entryAddress (srat : BitVec 64) (o : Nat) : BitVec 64 := srat + BitVec.ofNat 64 o
def entryLength (m : Memory 64) (srat : BitVec 64) (o : Nat) : Nat := (affinityLength m (entryAddress srat o)).toNat

/-- Entries of these lengths tile the bytes from the offset `o` up to the end of the SRAT. -/
def Tiled (m : Memory 64) (srat : BitVec 64) : Nat → List Nat → Prop
  | o, [] => o = (length m srat).toNat
  | o, l :: ls => 2 ≤ l ∧ entryLength m srat o = l ∧ Tiled m srat (o + l) ls

/-- The offsets of entries of these lengths from the offset `o` on. -/
def offsets : Nat → List Nat → List Nat
  | _, [] => []
  | o, l :: ls => o :: offsets (o + l) ls

/-- `NextSRATEntry` goes through these entries, round after round, and returns nothing at or behind the end. -/
structure GoesThrough (m : Memory 64) (srat : BitVec 64) (entries : List (BitVec 64)) : Prop where
  enumerates : Enumerates (nextSRATEntry m srat) 0 entries
  inside : ∀ k, (nextSRATEntry m srat)^[k] 0 ≠ 0 →
    ((nextSRATEntry m srat)^[k] 0).toNat < srat.toNat + (length m srat).toNat

/-- The offsets that the lengths of the entries lead to. -/
inductive EntryAt (m : Memory 64) (srat : BitVec 64) : Nat → Prop
  | first : EntryAt m srat offsetSRATEntries
  | next {o : Nat} : EntryAt m srat o → o + entryLength m srat o < (length m srat).toNat →
      EntryAt m srat (o + entryLength m srat o)

/-- The SRAT is an object: the addresses behind its last byte and behind its fixed part do not wrap. -/
structure Fits (m : Memory 64) (srat : BitVec 64) : Prop where
  table : srat.toNat + (length m srat).toNat < 2 ^ 64
  entries : srat.toNat + offsetSRATEntries < 2 ^ 64

/-! ## One call -/

section

variable {m : Memory 64} {srat : BitVec 64} {o l n : Nat} {ls : List Nat}

theorem entryAddress_toNat (h : srat.toNat + o < 2 ^ 64) : (entryAddress srat o).toNat = srat.toNat + o := by
  unfold entryAddress
  rw [BitVec.toNat_add, BitVec.toNat_ofNat, Nat.add_mod_mod, Nat.mod_eq_of_lt h]

theorem entryAddress_ne_zero (h : srat.toNat + o < 2 ^ 64) (ho : 0 < o) : entryAddress srat o ≠ 0 := by
  intro heq
  have hzero := entryAddress_toNat h
  rw [heq] at hzero
  exact absurd hzero (by change ¬ 0 = _; omega)

theorem entryLength_lt (m : Memory 64) (srat : BitVec 64) (o : Nat) : entryLength m srat o < 256 :=
  (affinityLength m (entryAddress srat o)).isLt

theorem EntryAt.range (h : EntryAt m srat o) :
    offsetSRATEntries ≤ o ∧ (o = offsetSRATEntries ∨ o < (length m srat).toNat) := by
  induction h with
  | first => exact ⟨Nat.le_refl _, Or.inl rfl⟩
  | next _ hlt ih => exact ⟨ih.1.trans (Nat.le_add_right _ _), Or.inr hlt⟩

theorem EntryAt.pos (h : EntryAt m srat o) : 0 < o := Nat.lt_of_lt_of_le (by decide) h.range.1

theorem EntryAt.lt (h : EntryAt m srat o) (hfits : Fits m srat) : srat.toNat + o < 2 ^ 64 := by
  have htable := hfits.table
  rcases h.range.2 with rfl | hlt
  · exact hfits.entries
  · omega

theorem nextSRATEntry_first : nextSRATEntry m srat 0 = entryAddress srat offsetSRATEntries := if_pos rfl

theorem nextSRATEntry_eq {e : BitVec 64} (he : e ≠ 0) (hfits : Fits m srat) :
    nextSRATEntry m srat e = if (e + (affinityLength m e).setWidth 64).toNat < srat.toNat + (length m srat).toNat
      then e + (affinityLength m e).setWidth 64 else 0 := by
  have hstop : (srat + (length m srat).setWidth 64).toNat = srat.toNat + (length m srat).toNat := by
    have hlt : (length m srat).toNat < 2 ^ 32 := (length m srat).isLt
    rw [BitVec.toNat_add, BitVec.toNat_setWidth, Nat.add_mod_mod, Nat.mod_eq_of_lt hfits.table]
  unfold nextSRATEntry
  rw [if_neg he, ← hstop]
  dsimp only
  split
  · next hge => rw [if_neg (Nat.not_lt.mpr hge)]
  · next hlt => rw [if_pos (Nat.lt_of_not_le hlt)]

theorem entryAddress_add : entryAddress srat o + (affinityLength m (entryAddress srat o)).setWidth 64 =
    entryAddress srat (o + entryLength m srat o) := by
  unfold entryLength
  conv_rhs => rw [entryAddress, BitVec.ofNat_add, ← BitVec.add_assoc, BitVec.ofNat_toNat]
  rfl

theorem nextSRATEntry_entry (hfits : Fits m srat) (ho : 0 < o) (hend : srat.toNat + o + entryLength m srat o ≤ 2 ^ 64)
    (hlt : srat.toNat + o < 2 ^ 64) : nextSRATEntry m srat (entryAddress srat o) =
      if o + entryLength m srat o < (length m srat).toNat then entryAddress srat (o + entryLength m srat o) else 0 := by
  have htable := hfits.table
  rw [nextSRATEntry_eq (entryAddress_ne_zero hlt ho) hfits, entryAddress_add]
  rcases Nat.lt_or_eq_of_le hend with hin | hout
  · rw [entryAddress_toNat (by omega)]
    exact if_congr (by omega) rfl rfl
  · -- Behind the last byte of the address space there is `NULL`.
    have hnull : entryAddress srat (o + entryLength m srat o) = 0 := by
      apply BitVec.eq_of_toNat_eq
      unfold entryAddress
      rw [BitVec.toNat_add, BitVec.toNat_ofNat, Nat.add_mod_mod, ← Nat.add_assoc, hout]
      rfl
    rw [hnull, ite_self, ite_self]

/-! ## A tiled SRAT -/

theorem Tiled.le (h : Tiled m srat o ls) : o ≤ (length m srat).toNat := by
  induction ls generalizing o with
  | nil => exact Nat.le_of_eq h
  | cons l ls ih => exact (Nat.le_add_right o l).trans (ih h.2.2)

theorem offsets_lt (h : Tiled m srat o ls) : ∀ x ∈ offsets o ls, x < (length m srat).toNat := by
  induction ls generalizing o with
  | nil => exact fun x hx => absurd hx List.not_mem_nil
  | cons l ls ih =>
    obtain ⟨hl, -, hrest⟩ := h
    intro x hx
    rcases List.mem_cons.mp hx with rfl | hx
    · have := hrest.le
      omega
    · exact ih hrest x hx

theorem follows_offsets (hfits : Fits m srat) (ho : 0 < o) (h : Tiled m srat (o + entryLength m srat o) ls) :
    Follows (nextSRATEntry m srat) 0 (entryAddress srat o)
      ((offsets (o + entryLength m srat o) ls).map (entryAddress srat)) := by
  have hstep := nextSRATEntry_entry hfits ho (by have := h.le; have := hfits.table; omega)
    (by have := h.le; have := hfits.table; omega)
  induction ls generalizing o with
  | nil =>
    unfold Tiled at h
    rw [if_neg (by omega)] at hstep
    exact hstep
  | cons l ls ih =>
    obtain ⟨hl, hlength, hrest⟩ := h
    have hle := hrest.le
    have htable := hfits.table
    rw [if_pos (by omega)] at hstep
    refine ⟨hstep, ?_⟩
    rw [← hlength] at hrest hle ⊢
    apply ih (by omega) hrest
    exact nextSRATEntry_entry hfits (by omega) (by omega) (by omega)

/-- `NextSRATEntry` goes through the entries of a tiled SRAT exactly if there is one. -/
theorem nextSRATEntry_goesThrough_iff (hfits : Fits m srat) (htiled : Tiled m srat offsetSRATEntries ls) :
    GoesThrough m srat ((offsets offsetSRATEntries ls).map (entryAddress srat)) ↔ ls ≠ [] := by
  constructor
  · rintro ⟨henum, -⟩ rfl
    have hfirst : some 0 = some (nextSRATEntry m srat 0) := henum 0
    rw [nextSRATEntry_first] at hfirst
    exact entryAddress_ne_zero hfits.entries (by decide) (Option.some.inj hfirst).symm
  · intro hne
    have henum : Enumerates (nextSRATEntry m srat) 0 ((offsets offsetSRATEntries ls).map (entryAddress srat)) := by
      apply enumerates_of_follows
      cases ls with
      | nil => exact absurd rfl hne
      | cons l ls =>
        obtain ⟨-, hlength, hrest⟩ := htiled
        rw [← hlength] at hrest ⊢
        exact ⟨nextSRATEntry_first, follows_offsets hfits (by decide) hrest⟩
    refine ⟨henum, fun k hk => ?_⟩
    obtain ⟨o, ho, heq⟩ := List.mem_map.mp ((henum.mem k).resolve_right hk)
    have hlt := offsets_lt htiled o ho
    have htable := hfits.table
    rw [← heq, entryAddress_toNat (by omega)]
    omega

end

/-- An SRAT of revision 0. -/
def sratBytes (length checksum : BitVec 8) (entries : List (BitVec 8)) : List (BitVec 8) :=
  [0x53, 0x52, 0x41, 0x54, length, 0, 0, 0, 0, checksum] ++ List.replicate 38 0 ++ entries

/-- `"SRAT"`. -/
def sratSignature (i : Nat) : BitVec 8 := [0x53, 0x52, 0x41, 0x54].getD i 0

/-- A local APIC and a range of memory. -/
def twoEntries : Memory 64 :=
  oneTableMemory (sratBytes 104 37 ([0, 16] ++ List.replicate 14 0 ++ [1, 40]))

theorem twoEntries_fits : Fits twoEntries 8192 := by constructor <;> decide +kernel

theorem nextSRATEntry_goesThrough_two :
    GoesThrough twoEntries 8192 ((offsets 48 [16, 40]).map (entryAddress 8192)) := by
  have htiled : Tiled twoEntries 8192 offsetSRATEntries [16, 40] :=
    ⟨by decide, by decide +kernel, by decide, by decide +kernel, show _ = _ by decide +kernel⟩
  exact (nextSRATEntry_goesThrough_iff twoEntries_fits htiled).mpr (by decide)

/-- A table that ends behind its fixed part. -/
def noEntries : Memory 64 := oneTableMemory (sratBytes 48 150 [])

theorem nextSRATEntry_goesThrough_fails :
    findACPITable noEntries 4096 sratSignature = some 8192 ∧ Fits noEntries 8192 ∧
      Tiled noEntries 8192 offsetSRATEntries [] ∧ ¬ GoesThrough noEntries 8192 [] := by
  refine ⟨by decide +kernel, by constructor <;> decide +kernel, show _ = _ by decide +kernel, fun h => ?_⟩
  have hfirst : some 0 = some (nextSRATEntry noEntries 8192 0) := h.enumerates 0
  revert hfirst
  decide +kernel

/-! ## An SRAT with any bytes -/

section

variable {m : Memory 64} {srat : BitVec 64} {o n : Nat}

theorem visits_entryAddress (hfits : Fits m srat) (h : EntryAt m srat o) :
    Visits (nextSRATEntry m srat) 0 (entryAddress srat o) := by
  induction h with
  | first =>
    rw [← nextSRATEntry_first (m := m)]
    apply Visits.first
    rw [nextSRATEntry_first]
    exact entryAddress_ne_zero hfits.entries (by decide)
  | @next o h hlt ih =>
    have htable := hfits.table
    have hpos := h.pos
    have hstep := nextSRATEntry_entry hfits hpos (by omega) (h.lt hfits)
    rw [if_pos hlt] at hstep
    rw [← hstep]
    apply Visits.step ih
    rw [hstep]
    exact entryAddress_ne_zero (by omega) (by omega)

/-- The entry at `o` has a length if anything follows it, and does not go over the end of the address space. -/
def Passable (m : Memory 64) (srat : BitVec 64) (o : Nat) : Prop :=
  (o < (length m srat).toNat → 0 < entryLength m srat o) ∧ srat.toNat + o + entryLength m srat o ≤ 2 ^ 64

theorem visits_entryAt (hfits : Fits m srat) (hpass : ∀ o, EntryAt m srat o → Passable m srat o) {e : BitVec 64}
    (h : Visits (nextSRATEntry m srat) 0 e) : ∃ o, EntryAt m srat o ∧ e = entryAddress srat o := by
  induction h with
  | first _ => exact ⟨offsetSRATEntries, EntryAt.first, nextSRATEntry_first⟩
  | step _ hnext ih =>
    obtain ⟨o, ho, rfl⟩ := ih
    rw [nextSRATEntry_entry hfits ho.pos (hpass o ho).2 (ho.lt hfits)] at hnext ⊢
    split at hnext
    · next hlt =>
      rw [if_pos hlt]
      exact ⟨_, EntryAt.next ho hlt, rfl⟩
    · exact absurd rfl hnext

/-- No step is longer than 255 bytes, and far from the end of the table none is to `NULL`. -/
theorem nextSRATEntry_low (hfits : Fits m srat) (hfar : 2 ^ 63 ≤ srat.toNat + (length m srat).toNat) {e : BitVec 64}
    (he : e ≠ 0) (hsmall : e.toNat < 2 ^ 62) :
    nextSRATEntry m srat e ≠ 0 ∧ (nextSRATEntry m srat e).toNat ≤ e.toNat + 255 := by
  have hbyte := (affinityLength m e).isLt
  have hadd : (e + (affinityLength m e).setWidth 64).toNat = e.toNat + (affinityLength m e).toNat := by
    rw [BitVec.toNat_add, BitVec.toNat_setWidth, Nat.add_mod_mod, Nat.mod_eq_of_lt (by omega)]
  have hpos : e.toNat ≠ 0 := fun hzero => he (BitVec.eq_of_toNat_eq hzero)
  rw [nextSRATEntry_eq he hfits, if_pos (by omega)]
  refine ⟨fun hzero => ?_, by omega⟩
  rw [hzero] at hadd
  exact hpos (Nat.eq_zero_of_add_eq_zero_right hadd.symm)

/-- Over the end of the address space the loop gets to the low addresses, far from the end of the table. -/
theorem not_endsWithin_of_wrap (hfits : Fits m srat) (ho : EntryAt m srat o)
    (hwrap : 2 ^ 64 < srat.toNat + o + entryLength m srat o) (hn : n ≤ 2 ^ 32) :
    ¬ EndsWithin (nextSRATEntry m srat) 0 n := by
  have htable := hfits.table
  have hlength := entryLength_lt m srat o
  have hlt := ho.lt hfits
  have hrange := ho.range
  have hfar : 2 ^ 63 ≤ srat.toNat + (length m srat).toNat := by
    unfold offsetSRATEntries at hrange
    omega
  have hlow : nextSRATEntry m srat (entryAddress srat o) ≠ 0 ∧
      (nextSRATEntry m srat (entryAddress srat o)).toNat ≤ 255 := by
    have hwrapped : (entryAddress srat (o + entryLength m srat o)).toNat =
        srat.toNat + o + entryLength m srat o - 2 ^ 64 := by
      unfold entryAddress
      rw [BitVec.toNat_add, BitVec.toNat_ofNat, Nat.add_mod_mod, ← Nat.add_assoc]
      omega
    rw [nextSRATEntry_eq (entryAddress_ne_zero hlt ho.pos) hfits, entryAddress_add,
      hwrapped, if_pos (by omega)]
    refine ⟨fun hzero => ?_, by omega⟩
    rw [hzero] at hwrapped
    exact absurd hwrapped (by change 0 ≠ _; omega)
  apply not_endsWithin_of_steps (P := fun j e => e ≠ 0 ∧ e.toNat ≤ 255 + 255 * j)
    (Visits.step (visits_entryAddress hfits ho) hlow.1) ⟨hlow.1, hlow.2⟩
  · rintro j hj e ⟨he, hle⟩
    obtain ⟨hne, hnext⟩ := nextSRATEntry_low hfits hfar he (by omega)
    refine ⟨hne, hnext.trans ?_⟩
    rw [Nat.mul_succ, ← Nat.add_assoc]
    exact Nat.add_le_add_right hle 255
  · exact fun _ _ h => h.1

/-- The loop over an SRAT ends in time exactly if the table has a length and none of the entries that their lengths
lead to has the length 0 or goes over the end of the address space. -/
theorem nextSRATEntry_ends_iff (hfits : Fits m srat) :
    EndsWithin (nextSRATEntry m srat) 0 ((length m srat).toNat + 1) ↔
      0 < (length m srat).toNat ∧ ∀ o, EntryAt m srat o → Passable m srat o := by
  have htable := hfits.table
  constructor
  · intro hends
    refine ⟨?_, fun o ho => ⟨fun hlt => ?_, ?_⟩⟩
    · by_contra hzero
      obtain ⟨k, hpos, hk, hnull⟩ := hends
      obtain rfl : k = 1 := by omega
      apply entryAddress_ne_zero hfits.entries (by decide)
      rw [← nextSRATEntry_first (m := m)]
      exact hnull
    · by_contra hzero
      have hstep := nextSRATEntry_entry (m := m) hfits ho.pos (by omega) (ho.lt hfits)
      rw [Nat.eq_zero_of_not_pos hzero, Nat.add_zero, if_pos hlt] at hstep
      exact not_endsWithin_of_fixed (visits_entryAddress hfits ho) hstep _ hends
    · by_contra hwrap
      have hlt : (length m srat).toNat < 2 ^ 32 := (length m srat).isLt
      exact not_endsWithin_of_wrap hfits ho (by omega) (by omega) hends
  · rintro ⟨hpos, hpass⟩
    -- The offset behind the first entry grows up to the end of the table.
    apply endsWithin_of_measure (f := fun e => e.toNat - (srat.toNat + offsetSRATEntries))
    · intro e he
      obtain ⟨o, ho, rfl⟩ := visits_entryAt hfits hpass he
      have hrange := ho.range
      rw [entryAddress_toNat (ho.lt hfits)]
      omega
    · intro e he hne
      obtain ⟨o, ho, rfl⟩ := visits_entryAt hfits hpass he
      have hrange := ho.range
      rw [nextSRATEntry_entry hfits ho.pos (hpass o ho).2 (ho.lt hfits)] at hne ⊢
      split at hne
      · next hlt =>
        have hgrow := (hpass o ho).1 (by omega)
        rw [if_pos hlt, entryAddress_toNat (ho.lt hfits), entryAddress_toNat (by omega)]
        omega
      · exact absurd rfl hne

end

theorem twoEntries_entryAt {o : Nat} (h : EntryAt twoEntries 8192 o) : o = 48 ∨ o = 64 := by
  have hfirst : entryLength twoEntries 8192 48 = 16 := by decide +kernel
  have hsecond : entryLength twoEntries 8192 64 = 40 := by decide +kernel
  have hlength : (length twoEntries 8192).toNat = 104 := by decide +kernel
  induction h with
  | first => exact Or.inl rfl
  | next _ hlt ih =>
    rcases ih with rfl | rfl
    · exact Or.inr (congrArg (48 + ·) hfirst)
    · rw [hsecond, hlength] at hlt
      exact absurd hlt (by decide)

theorem nextSRATEntry_ends_two : EndsWithin (nextSRATEntry twoEntries 8192) 0 105 := by
  apply (nextSRATEntry_ends_iff twoEntries_fits).mpr
  refine ⟨by decide +kernel, fun o ho => ?_⟩
  rcases twoEntries_entryAt ho with rfl | rfl
  · exact ⟨fun _ => by decide +kernel, by decide +kernel⟩
  · exact ⟨fun _ => by decide +kernel, by decide +kernel⟩

/-- A table with an entry that has the length 0. -/
def emptyEntry : Memory 64 := oneTableMemory (sratBytes 64 134 [])

theorem nextSRATEntry_ends_fails :
    findACPITable emptyEntry 4096 sratSignature = some 8192 ∧ Fits emptyEntry 8192 ∧
      ∀ n, ¬ EndsWithin (nextSRATEntry emptyEntry 8192) 0 n := by
  have hfirst : nextSRATEntry emptyEntry 8192 0 = 8240 := by decide +kernel
  have hvisits : Visits (nextSRATEntry emptyEntry 8192) 0 8240 := by
    rw [← hfirst]
    apply Visits.first
    rw [hfirst]
    decide
  refine ⟨by decide +kernel, by constructor <;> decide +kernel, ?_⟩
  exact not_endsWithin_of_fixed hvisits (by decide +kernel)

end GenericOs.Acpi
