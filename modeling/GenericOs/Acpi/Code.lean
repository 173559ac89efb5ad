import GenericOs.Library.Bytes

/-!
# The tables of ACPI: `SDT.c`, `SRAT.c` and `SLIT.c`

The tables are bytes of a memory with 64-bit addresses. `NULL` as a result of
`FindACPITable` is `none`, and as a cursor it is the address 0.
-/

namespace GenericOs.Acpi

open Bytes

/-! ## `SDT.h` -/

def acpiSignatureSize : Nat := 4

/-- `sizeof(ACPI_XSDT)`, and the offsets of `Entries` in an SRAT and an SLIT. -/
def sizeofXSDT : Nat := 36
def offsetSRATEntries : Nat := 48
def offsetSLITEntries : Nat := 44

/-- Fields of `ACPI_SDTHeader`. -/
def signatureByte (m : Memory 64) (table : BitVec 64) (i : Nat) : BitVec 8 := m.byte (table + BitVec.ofNat 64 i)
def length (m : Memory 64) (table : BitVec 64) : BitVec 32 := BitVec.ofNat 32 (m.read (table + 4) 4)

/-- `XSDT->Entries[i]`. -/
def xsdtEntry (m : Memory 64) (xsdt : BitVec 64) (i : Nat) : BitVec 64 :=
  BitVec.ofNat 64 (m.read (xsdt + BitVec.ofNat 64 (sizeofXSDT + 8 * i)) 8)

/-- `XSDP->XsdtAddress`. -/
def xsdtAddress (m : Memory 64) (xsdp : BitVec 64) : BitVec 64 := BitVec.ofNat 64 (m.read (xsdp + 24) 8)

/-- `Generic.Length` of an affinity entry. -/
def affinityLength (m : Memory 64) (entry : BitVec 64) : BitVec 8 := m.byte (entry + 1)

/-- Fields of `ACPI_LAPICAffinity`. -/
def proximityDomainLow (m : Memory 64) (lapic : BitVec 64) : BitVec 8 := m.byte (lapic + 2)
def proximityDomainHigh (m : Memory 64) (lapic : BitVec 64) (i : Nat) : BitVec 8 :=
  m.byte (lapic + BitVec.ofNat 64 (9 + i))

/-- `SLIT->Localities`, and the address of `SLIT->Entries[i]`. -/
def localities (m : Memory 64) (slit : BitVec 64) : BitVec 64 := BitVec.ofNat 64 (m.read (slit + 36) 8)
def slitEntry (slit i : BitVec 64) : BitVec 64 := slit + BitVec.ofNat 64 offsetSLITEntries + i

/-! ## `SDT.c` -/

def checkTableChecksum (m : Memory 64) (table : BitVec 64) : Bool := m.checksum table (length m table).toNat 0 == 0

/-- On the bytes that the two pointers point to. -/
def memcmp (a b : Nat → BitVec 8) (n : Nat) : BitVec 64 :=
  (List.range n).foldl (fun result i => result + (a i).setWidth 64 - (b i).setWidth 64) 0

/-- The loop of `FindACPITable` at `i`, with `left` entries to go. -/
def findLoop (m : Memory 64) (xsdp : BitVec 64) (signature : Nat → BitVec 8) : Nat → Nat → Option (BitVec 64)
  | 0, _ => none
  | left + 1, i =>
    let table := xsdtEntry m xsdp i
    if memcmp signature (signatureByte m table) acpiSignatureSize = 0 ∧ checkTableChecksum m table then some table
    else findLoop m xsdp signature left (i + 1)

/-- The XSDT is called `XSDP` in the source. -/
def findACPITable (m : Memory 64) (xsdp : BitVec 64) (signature : Nat → BitVec 8) : Option (BitVec 64) :=
  let tableCount := ((length m xsdp).setWidth 64 - BitVec.ofNat 64 sizeofXSDT) / 8
  findLoop m xsdp signature tableCount.toNat 0

/-! ## `SRAT.c` -/

/-- The result is also the new `*entry`. -/
def nextSRATEntry (m : Memory 64) (srat entry : BitVec 64) : BitVec 64 :=
  if entry = 0 then srat + BitVec.ofNat 64 offsetSRATEntries
  else
    let stop := srat + (length m srat).setWidth 64
    let entry := entry + (affinityLength m entry).setWidth 64
    if entry ≥ stop then 0 else entry

def lapicProximityDomain (m : Memory 64) (lapic : BitVec 64) : BitVec 32 :=
  (proximityDomainLow m lapic).setWidth 32 |||
    (proximityDomainHigh m lapic 0).setWidth 32 <<< 8 |||
    (proximityDomainHigh m lapic 1).setWidth 32 <<< 16 |||
    (proximityDomainHigh m lapic 2).setWidth 32 <<< 24

/-! ## `SLIT.c` -/

/-- `MAX_NUMAS` of `Architecture.h`. -/
def maxNumas : Nat := 64

def acpiSlitUnreachable : BitVec 8 := 255
def latencyDefaultValue : BitVec 8 := 30

structure NUMALatency where
  proximityDomain : BitVec 32
  latency : BitVec 8
  arena : BitVec 64

/-- The variables of `SLITToLatencyTable`, and the addresses in `SLIT->Entries` that it has read. -/
structure LatencyState where
  out : Nat → NUMALatency
  pos : Nat
  reads : List (BitVec 64)

/-- `out[pos++] = entry`. -/
def LatencyState.push (s : LatencyState) (entry : NUMALatency) : LatencyState :=
  { s with out := Function.update s.out s.pos entry, pos := s.pos + 1 }

/-- The body of the loop of `SLITToLatencyTable`. -/
def latencyStep (m : Memory 64) (slit : Option (BitVec 64)) (arenas : Nat → BitVec 64) (arenaID : BitVec 64)
    (s : LatencyState) (i : Nat) : LatencyState :=
  if arenas i = 0 then s
  else
    match slit with
    | none => s.push ⟨BitVec.ofNat 32 i, if arenaID = BitVec.ofNat 64 i then 10 else latencyDefaultValue, arenas i⟩
    | some slit =>
      let entry := slitEntry slit (BitVec.ofNat 64 i * localities m slit + arenaID)
      let s := { s with reads := s.reads ++ [entry] }
      if m.byte entry = acpiSlitUnreachable then s else s.push ⟨BitVec.ofNat 32 i, m.byte entry, arenas i⟩

/-- `"SLIT"`. -/
def slitSignature (i : Nat) : BitVec 8 := [0x53, 0x4C, 0x49, 0x54].getD i 0

/-- The state after the loop. The function returns `pos`. -/
def slitToLatencyTable (m : Memory 64) (xsdp : BitVec 64) (out : Nat → NUMALatency) (arenas : Nat → BitVec 64)
    (arenaID : BitVec 64) : LatencyState :=
  let slit := findACPITable m (xsdtAddress m xsdp) slitSignature
  (List.range maxNumas).foldl (latencyStep m slit arenas arenaID) { out := out, pos := 0, reads := [] }

end GenericOs.Acpi
