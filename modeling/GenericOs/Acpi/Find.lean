import Mathlib.Order.Interval.Set.Defs
import GenericOs.Acpi.Code

/-!
# Looking for a table

`FindACPITable` takes the first entry whose signature sums to the same as the requested one.
That is the right entry only if no other one with the same sum comes before it, and for an
XSDT shorter than its header the loop goes on for 2^61 entries.
-/

namespace GenericOs.Acpi

open Bytes

/-- A table with the signature and with bytes that sum to zero. -/
structure IsTable (m : Memory 64) (table : BitVec 64) (signature : Nat → BitVec 8) : Prop where
  signature : ∀ i < acpiSignatureSize, signatureByte m table i = signature i
  checksum : ((m.bytes table (length m table).toNat).map BitVec.toNat).sum % 256 = 0

/-- The number of entries that fit in the length of the XSDT. -/
def entryCount (m : Memory 64) (xsdt : BitVec 64) : Nat := ((length m xsdt).toNat - sizeofXSDT) / 8

/-- `result` is the first of these entries with the table, and there is none if it is `NULL`. -/
structure FindsFirst (m : Memory 64) (xsdt : BitVec 64) (signature : Nat → BitVec 8) (result : Option (BitVec 64)) :
    Prop where
  found : ∀ table, result = some table → ∃ i < entryCount m xsdt, xsdtEntry m xsdt i = table ∧
    IsTable m table signature ∧ ∀ j < i, ¬ IsTable m (xsdtEntry m xsdt j) signature
  missing : result = none ↔ ∀ i < entryCount m xsdt, ¬ IsTable m (xsdtEntry m xsdt i) signature

/-- The number of entries that the loop goes through if it takes none: the subtraction wraps. -/
def walkCount (m : Memory 64) (xsdt : BitVec 64) : Nat :=
  (2 ^ 64 + (length m xsdt).toNat - sizeofXSDT) % 2 ^ 64 / 8

def byteSum (a : Nat → BitVec 8) (n : Nat) : Nat := ((List.range n).map fun i => (a i).toNat).sum

/-- A table whose signature sums to the same as the requested one, with bytes that sum to zero. -/
structure Resembles (m : Memory 64) (table : BitVec 64) (signature : Nat → BitVec 8) : Prop where
  signature : byteSum (signatureByte m table) acpiSignatureSize = byteSum signature acpiSignatureSize
  checksum : ((m.bytes table (length m table).toNat).map BitVec.toNat).sum % 256 = 0

section

variable {m : Memory 64} {table xsdt : BitVec 64} {signature a b : Nat → BitVec 8} {i j n left : Nat}

theorem checkTableChecksum_iff :
    checkTableChecksum m table = true ↔ ((m.bytes table (length m table).toNat).map BitVec.toNat).sum % 256 = 0 := by
  unfold checkTableChecksum
  rw [beq_iff_eq, ← BitVec.toNat_inj, checksum_toNat]
  exact iff_of_eq (congrArg (· % 256 = 0) (Nat.zero_add _))

theorem byteSum_succ : byteSum a (n + 1) = byteSum a n + (a n).toNat := by
  unfold byteSum
  rw [List.range_succ, List.map_append, List.sum_append, List.map_singleton, List.sum_singleton]

theorem byteSum_lt (hn : n ≤ 2 ^ 32) : byteSum a n < 2 ^ 64 := by
  have hle : ∀ k, byteSum a k ≤ 255 * k := by
    intro k
    induction k with
    | zero => exact Nat.le_refl 0
    | succ k ih =>
      have hbyte := (a k).isLt
      rw [byteSum_succ]
      omega
  have := hle n
  omega

theorem memcmp_eq (a b : Nat → BitVec 8) (n : Nat) :
    memcmp a b n = BitVec.ofNat 64 (byteSum a n) - BitVec.ofNat 64 (byteSum b n) := by
  induction n with
  | zero => simp [memcmp, byteSum]
  | succ n ih =>
    have hstep : memcmp a b (n + 1) = memcmp a b n + (a n).setWidth 64 - (b n).setWidth 64 := by
      unfold memcmp
      rw [List.range_succ, List.foldl_append]
      rfl
    have hbyte : ∀ x : BitVec 8, BitVec.ofNat 64 x.toNat = x.setWidth 64 := BitVec.ofNat_toNat 64
    rw [hstep, ih, byteSum_succ, byteSum_succ, BitVec.ofNat_add, BitVec.ofNat_add, hbyte (a n), hbyte (b n),
      BitVec.sub_add_comm, BitVec.sub_sub]

theorem memcmp_eq_zero_iff (hn : n ≤ 2 ^ 32) : memcmp a b n = 0 ↔ byteSum a n = byteSum b n := by
  have ha := byteSum_lt (a := a) hn
  have hb := byteSum_lt (a := b) hn
  rw [memcmp_eq, show (0 : BitVec 64) = 0#64 from rfl, BitVec.sub_eq_iff_eq_add, BitVec.zero_add, ← BitVec.toNat_inj,
    BitVec.toNat_ofNat, BitVec.toNat_ofNat, Nat.mod_eq_of_lt ha, Nat.mod_eq_of_lt hb]

theorem accepts_iff :
    (memcmp signature (signatureByte m table) acpiSignatureSize = 0 ∧ checkTableChecksum m table = true) ↔
      Resembles m table signature := by
  rw [memcmp_eq_zero_iff (by decide), checkTableChecksum_iff]
  exact ⟨fun ⟨h, h'⟩ => ⟨h.symm, h'⟩, fun ⟨h, h'⟩ => ⟨h.symm, h'⟩⟩

theorem IsTable.resembles (h : IsTable m table signature) : Resembles m table signature := by
  refine ⟨?_, h.checksum⟩
  unfold byteSum
  rw [List.map_congr_left fun i hi => congrArg BitVec.toNat (h.signature i (List.mem_range.mp hi))]

theorem findLoop_spec (m : Memory 64) (xsdt : BitVec 64) (signature : Nat → BitVec 8) (left i : Nat) :
    (findLoop m xsdt signature left i = none ∧
        ∀ j, i ≤ j → j < i + left → ¬ Resembles m (xsdtEntry m xsdt j) signature) ∨
      ∃ j, i ≤ j ∧ j < i + left ∧ findLoop m xsdt signature left i = some (xsdtEntry m xsdt j) ∧
        Resembles m (xsdtEntry m xsdt j) signature ∧
        ∀ k, i ≤ k → k < j → ¬ Resembles m (xsdtEntry m xsdt k) signature := by
  induction left generalizing i with
  | zero => exact Or.inl ⟨rfl, fun j hij hj => by omega⟩
  | succ left ih =>
    unfold findLoop
    dsimp only
    split
    · next htaken =>
      exact Or.inr ⟨i, Nat.le_refl i, by omega, rfl, accepts_iff.mp htaken, fun k hik hki => by omega⟩
    · next hskip =>
      have hfirst : ¬ Resembles m (xsdtEntry m xsdt i) signature := fun h => hskip (accepts_iff.mpr h)
      rcases ih (i + 1) with ⟨hnone, hall⟩ | ⟨j, hij, hj, hsome, hresembles, hbefore⟩
      · refine Or.inl ⟨hnone, fun j hij hj => ?_⟩
        rcases Nat.eq_or_lt_of_le hij with rfl | hlt
        · exact hfirst
        · exact hall j hlt (by omega)
      · refine Or.inr ⟨j, by omega, by omega, hsome, hresembles, fun k hik hkj => ?_⟩
        rcases Nat.eq_or_lt_of_le hik with rfl | hlt
        · exact hfirst
        · exact hbefore k hlt hkj

theorem findACPITable_eq : findACPITable m xsdt signature = findLoop m xsdt signature (walkCount m xsdt) 0 := by
  have hlt : (length m xsdt).toNat < 2 ^ 32 := (length m xsdt).isLt
  have hcount : (((length m xsdt).setWidth 64 - BitVec.ofNat 64 sizeofXSDT) / 8).toNat = walkCount m xsdt := by
    unfold walkCount sizeofXSDT
    rw [BitVec.toNat_udiv, BitVec.toNat_sub, BitVec.toNat_setWidth]
    change (2 ^ 64 - 36 + (length m xsdt).toNat % 2 ^ 64) % 2 ^ 64 / 8 = _
    rw [Nat.add_mod_mod, show 2 ^ 64 - 36 + (length m xsdt).toNat = 2 ^ 64 + (length m xsdt).toNat - 36 by omega]
  unfold findACPITable
  dsimp only
  rw [hcount]

theorem entryCount_le (m : Memory 64) (xsdt : BitVec 64) : entryCount m xsdt ≤ walkCount m xsdt := by
  have hlt : (length m xsdt).toNat < 2 ^ 32 := (length m xsdt).isLt
  unfold entryCount walkCount sizeofXSDT
  omega

/-- `FindACPITable` is right exactly if no table that merely resembles the requested one, and no entry behind
the end of the XSDT, comes before the first right one. -/
theorem findACPITable_iff (m : Memory 64) (xsdt : BitVec 64) (signature : Nat → BitVec 8) :
    FindsFirst m xsdt signature (findACPITable m xsdt signature) ↔
      ∀ i < walkCount m xsdt, Resembles m (xsdtEntry m xsdt i) signature →
        ∃ j ≤ i, j < entryCount m xsdt ∧ IsTable m (xsdtEntry m xsdt j) signature := by
  have hcount := entryCount_le m xsdt
  rw [findACPITable_eq]
  rcases findLoop_spec m xsdt signature (walkCount m xsdt) 0 with ⟨hnone, hall⟩ | ⟨k, -, hk, hsome, hresembles, hbefore⟩
  · rw [hnone]
    constructor
    · intro _ i hi h
      exact absurd h (hall i (Nat.zero_le i) (by omega))
    · intro _
      refine ⟨fun table h => absurd h (by simp), fun _ i hi h => ?_, fun _ => rfl⟩
      exact hall i (Nat.zero_le i) (by omega) h.resembles
  · rw [hsome]
    have hnot : ∀ j < k, ¬ IsTable m (xsdtEntry m xsdt j) signature := fun j hj h =>
      hbefore j (Nat.zero_le j) hj h.resembles
    constructor
    · intro hfinds i hi h
      obtain ⟨j, hj, hentry, htable, -⟩ := hfinds.found _ rfl
      have hkj : k ≤ j := by
        by_contra hlt
        rw [← hentry] at htable
        exact hnot j (by omega) htable
      have hki : k ≤ i := by
        by_contra hlt
        exact hbefore i (Nat.zero_le i) (by omega) h
      exact ⟨k, hki, by omega, htable⟩
    · intro hright
      obtain ⟨j, hjk, hj, htable⟩ := hright k (by omega) hresembles
      obtain rfl : j = k := by
        by_contra hne
        exact hnot j (by omega) htable
      refine ⟨fun table h => ?_, fun h => absurd h (by simp), fun h => absurd htable (h j hj)⟩
      obtain rfl := Option.some.inj h
      exact ⟨j, hj, rfl, htable, hnot⟩

end

/-- A memory with an XSDP at 2048 and an XSDT at 4096 whose only entry is the table at 8192. -/
def oneTableMemory (table : List (BitVec 8)) : Memory 64 where
  byte x :=
    if x < 4096 then
      [0x52, 0x53, 0x44, 0x20, 0x50, 0x54, 0x52, 0x20, 223, 0, 0, 0, 0, 0, 0, 2, 0, 0, 0, 0, 36, 0, 0, 0,
        0, 0x10, 0, 0, 0, 0, 0, 0, 204].getD (x - 2048).toNat 0
    else if x < 8192 then
      ([0x58, 0x53, 0x44, 0x54, 44, 0, 0, 0, 1, 112] ++ List.replicate 27 0 ++ [0x20]).getD (x - 4096).toNat 0
    else table.getD (x - 8192).toNat 0
  written _ := false

/-- `"CSRT"`: the characters sum to the same as those of `"SLIT"`. -/
def csrt : List (BitVec 8) := [0x43, 0x53, 0x52, 0x54, 36, 0, 0, 0, 0, 160]

theorem findACPITable_fails :
    findACPITable (oneTableMemory csrt) 4096 slitSignature = some 8192 ∧
      ¬ FindsFirst (oneTableMemory csrt) 4096 slitSignature
        (findACPITable (oneTableMemory csrt) 4096 slitSignature) := by
  have hresult : findACPITable (oneTableMemory csrt) 4096 slitSignature = some 8192 := by decide +kernel
  refine ⟨hresult, fun h => ?_⟩
  obtain ⟨i, -, -, htable, -⟩ := h.found 8192 hresult
  have hfirst := htable.signature 0 (by decide)
  revert hfirst
  decide +kernel

end GenericOs.Acpi
