import GenericOs.Loader.Code

/-!
# The ACPI root pointer

`RecoverACPITable` is to take a valid root pointer and no other. It sums the first 8 bytes
where the checksum of ACPI 1.0 is over 20, and these 8 bytes are the signature.
-/

namespace GenericOs.Loader

open Bytes

/-- The size of the part that ACPI 1.0 has, up to and with `RsdtAddress`. -/
def sizeofXSDP1 : Nat := 20

/-- A valid ACPI 2.0 root pointer. -/
structure ValidXSDP (m : Memory 64) (xsdp : BitVec 64) : Prop where
  signature : XSDP.signature m xsdp = XSDP.validSignature
  revision : XSDP.revision m xsdp = 2
  firstPart : ((m.bytes xsdp sizeofXSDP1).map BitVec.toNat).sum % 256 = 0
  whole : ((m.bytes xsdp sizeofXSDP).map BitVec.toNat).sum % 256 = 0

/-- The first table with the GUID of ACPI 2.0 is a valid root pointer. -/
def HasXSDP (acpiGUID : BitVec 128) (m : Memory 64) (entries : List ConfigurationTable) : Prop :=
  ∃ entry, entries.find? (·.vendorGuid = acpiGUID) = some entry ∧ ValidXSDP m entry.vendorTable

section

variable {acpiGUID : BitVec 128} {m : Memory 64} {root xsdp : BitVec 64} {entries : List ConfigurationTable}

theorem checksum_signature (h : XSDP.signature m xsdp = XSDP.validSignature) :
    m.checksum xsdp xsdpFirstPartSize 0 = 31 := by
  unfold XSDP.signature at h
  rw [checksum_eq_foldl, show xsdpFirstPartSize = 8 from rfl, h]
  rfl

/-- So no root pointer gets past the first sum. -/
theorem recoverACPITable_false (acpiGUID : BitVec 128) (m : Memory 64) (root : BitVec 64)
    (entries : List ConfigurationTable) : (recoverACPITable acpiGUID m root entries).1 = false := by
  induction entries with
  | nil => rfl
  | cons entry entries ih =>
    unfold recoverACPITable
    dsimp only
    split
    · split
      · rfl
      · next hsignature =>
        split
        · rfl
        · rw [checksum_signature (not_not.mp hsignature)]
          rfl
    · exact ih

/-- `RecoverACPITable` is right exactly if there is no valid root pointer. -/
theorem recoverACPITable_iff (acpiGUID : BitVec 128) (m : Memory 64) (root : BitVec 64)
    (entries : List ConfigurationTable) :
    ((recoverACPITable acpiGUID m root entries).1 = true ↔ HasXSDP acpiGUID m entries) ↔
      ¬ HasXSDP acpiGUID m entries := by
  rw [recoverACPITable_false]
  simp

end

/-- A valid root pointer at 4096. -/
def plainXSDP : Memory 64 where
  byte x := (XSDP.validSignature ++ [223, 0, 0, 0, 0, 0, 0, 2, 0, 0, 0, 0, 36, 0, 0, 0,
    0, 0, 0, 0, 0, 0, 0, 0, 220]).getD (x - 4096).toNat 0
  written _ := false

def acpi20TableGuid : BitVec 128 := 0x81883cc7800022bc11d3e4f18868e871

theorem recoverACPITable_fails :
    HasXSDP acpi20TableGuid plainXSDP [⟨acpi20TableGuid, 4096⟩] ∧
      (recoverACPITable acpi20TableGuid plainXSDP 65536 [⟨acpi20TableGuid, 4096⟩]).1 = false := by
  refine ⟨⟨⟨acpi20TableGuid, 4096⟩, rfl, ?_, ?_, ?_, ?_⟩, ?_⟩
  · decide +kernel
  · decide +kernel
  · decide +kernel
  · decide +kernel
  · decide +kernel

end GenericOs.Loader
