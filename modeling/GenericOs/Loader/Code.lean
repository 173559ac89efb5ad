import GenericOs.Library.Bytes

/-!
# The root table of `loader.c`

`FormRootTable`, `RecoverMemoryMap` and `RecoverACPITable`. The firmware is a parameter: its
calls may change its own state and any byte of the memory. A division by zero and a store
through null make a call fail (`none`).
-/

namespace GenericOs.Loader

open Bytes

/-! ## Firmware -/

def efiBufferTooSmall : BitVec 64 := 0x8000000000000005

/-- Values of `efi_memory_type_t`. -/
def efiLoaderCode : Nat := 1
def efiLoaderData : Nat := 2
def efiBootServicesCode : Nat := 3
def efiBootServicesData : Nat := 4
def efiConventionalMemory : Nat := 7
def efiPersistentMemory : Nat := 14
def efiUnacceptedMemoryType : Nat := 15

/-- What `GetMemoryMap` leaves behind. -/
structure MapAnswer (F : Type) where
  status : BitVec 64
  memoryMapSize : BitVec 64
  descriptorSize : BitVec 64
  bytes : BitVec 64 → BitVec 8
  firmware : F

/-- What `AllocatePages` leaves behind: no buffer if the call fails. -/
structure PagesAnswer (F : Type) where
  buffer : Option (BitVec 64)
  bytes : BitVec 64 → BitVec 8
  firmware : F

/-- What `FreePages` leaves behind. -/
structure FreeAnswer (F : Type) where
  bytes : BitVec 64 → BitVec 8
  firmware : F

/-- `BS`, for a firmware with states `F`. -/
structure BootServices (F : Type) where
  getMemoryMap : F → (BitVec 64 → BitVec 8) → (memoryMapSize buffer : BitVec 64) → MapAnswer F
  allocatePages : F → (BitVec 64 → BitVec 8) → (memoryType : Nat) → (pages : BitVec 64) → PagesAnswer F
  freePages : F → (BitVec 64 → BitVec 8) → (buffer pages : BitVec 64) → FreeAnswer F

/-- The firmware and the memory. `written` marks the stores of the loader alone. -/
structure Machine (F : Type) where
  firmware : F
  memory : Memory 64

variable {F : Type}

/-- After a call of the firmware. -/
def Machine.after (s : Machine F) (bytes : BitVec 64 → BitVec 8) (firmware : F) : Machine F where
  firmware := firmware
  memory := { s.memory with byte := bytes }

/-! ## `utils.c` -/

def pageSize : Nat := 4096

@[simp, grind =] theorem pageSize_val : pageSize = 4096 := rfl

structure AllocatedSpace where
  begin : BitVec 64
  pages : BitVec 64

/-- What `AllocateBytes` and `AllocateLoaderBytes` share. -/
def allocate (bs : BootServices F) (memoryType : Nat) (s : Machine F) (bytes : BitVec 64) :
    AllocatedSpace × Machine F :=
  let pages := bytes / BitVec.ofNat 64 pageSize + if bytes % BitVec.ofNat 64 pageSize ≠ 0 then 1 else 0
  let r := bs.allocatePages s.firmware s.memory.byte memoryType pages
  ({ begin := r.buffer.getD 0, pages := pages }, s.after r.bytes r.firmware)

def allocateBytes (bs : BootServices F) (s : Machine F) (bytes : BitVec 64) : AllocatedSpace × Machine F :=
  allocate bs efiLoaderData s bytes

def allocateLoaderBytes (bs : BootServices F) (s : Machine F) (bytes : BitVec 64) : AllocatedSpace × Machine F :=
  allocate bs efiBootServicesData s bytes

/-! ## `loader.h` -/

/-- `sizeof(RootTable)`, and offsets in it. -/
def sizeofRootTable : Nat := 80
def offsetXSDP : Nat := 0
def offsetMemoryMapEntryCount : Nat := 8
def offsetMemoryMap : Nat := 16
def offsetBlockSizeInPages : Nat := 72

def sizeofMemoryEntry : Nat := 16

@[simp, grind =] theorem sizeofRootTable_val : sizeofRootTable = 80 := rfl
@[simp, grind =] theorem sizeofMemoryEntry_val : sizeofMemoryEntry = 16 := rfl

structure MemoryEntry where
  begin : BitVec 64
  pages : BitVec 56
  type : BitVec 8
  deriving DecidableEq

namespace MemoryEntry

/-- The entry as a number of 16 bytes. -/
def encode (e : MemoryEntry) : Nat := e.begin.toNat + 2 ^ 64 * e.pages.toNat + 2 ^ 120 * e.type.toNat

def store (m : Memory 64) (a : BitVec 64) (e : MemoryEntry) : Memory 64 := m.write a sizeofMemoryEntry e.encode

def load (m : Memory 64) (a : BitVec 64) : MemoryEntry where
  begin := BitVec.ofNat 64 (m.read a 8)
  pages := BitVec.ofNat 56 (m.read (a + 8) 7)
  type := BitVec.ofNat 8 (m.read (a + 15) 1)

end MemoryEntry

/-- The fields of a root table. -/
def rootXSDP (m : Memory 64) (root : BitVec 64) : BitVec 64 :=
  BitVec.ofNat 64 (m.read (root + BitVec.ofNat 64 offsetXSDP) 8)

def memoryMapEntryCount (m : Memory 64) (root : BitVec 64) : BitVec 64 :=
  BitVec.ofNat 64 (m.read (root + BitVec.ofNat 64 offsetMemoryMapEntryCount) 8)

def memoryMap (m : Memory 64) (root : BitVec 64) : BitVec 64 :=
  BitVec.ofNat 64 (m.read (root + BitVec.ofNat 64 offsetMemoryMap) 8)

/-- The fields of an `efi_memory_descriptor_t` that the loader uses. -/
structure Descriptor where
  type : BitVec 32
  physicalStart : BitVec 64
  numberOfPages : BitVec 64
  deriving DecidableEq

def Descriptor.load (m : Memory 64) (d : BitVec 64) : Descriptor where
  type := BitVec.ofNat 32 (m.read d 4)
  physicalStart := BitVec.ofNat 64 (m.read (d + 8) 8)
  numberOfPages := BitVec.ofNat 64 (m.read (d + 24) 8)

def xsdpFirstPartSize : Nat := 8

/-- `sizeof(struct XSDP_t)`. -/
def sizeofXSDP : Nat := 36

namespace XSDP

def signature (m : Memory 64) (xsdp : BitVec 64) : List (BitVec 8) := m.bytes xsdp 8
def revision (m : Memory 64) (xsdp : BitVec 64) : BitVec 8 := m.byte (xsdp + 15)

/-- `"RSD PTR "`. -/
def validSignature : List (BitVec 8) := [0x52, 0x53, 0x44, 0x20, 0x50, 0x54, 0x52, 0x20]

end XSDP

/-- An entry of `ST->ConfigurationTable`. -/
structure ConfigurationTable where
  vendorGuid : BitVec 128
  vendorTable : BitVec 64

/-! ## `loader.c` -/

/-- The result is the root table. -/
def formRootTable (bs : BootServices F) (s : Machine F) : Option (BitVec 64 × Machine F) :=
  let q := bs.getMemoryMap s.firmware s.memory.byte 0 0
  let s := s.after q.bytes q.firmware
  if q.descriptorSize = 0 then none
  else
    let memoryMapEntryCount := q.memoryMapSize / q.descriptorSize + 6
    let rootTableSize := BitVec.ofNat 64 sizeofRootTable + memoryMapEntryCount * BitVec.ofNat 64 sizeofMemoryEntry
    let (rootTable, s) := allocateBytes bs s rootTableSize
    let root := rootTable.begin
    if root = 0 then none
    else
      let m := s.memory
      let m := m.write (root + BitVec.ofNat 64 offsetMemoryMapEntryCount) 8 memoryMapEntryCount.toNat
      let m := m.write (root + BitVec.ofNat 64 offsetMemoryMap) 8 (root + BitVec.ofNat 64 sizeofRootTable).toNat
      let m := m.write (root + BitVec.ofNat 64 offsetBlockSizeInPages) 8 rootTable.pages.toNat
      some (root, { s with memory := m })

def isAvailableMemoryType (type : Nat) : Bool :=
  type == efiBootServicesCode ||
    type == efiLoaderCode ||
    type == efiBootServicesData ||
    type == efiConventionalMemory ||
    type == efiPersistentMemory ||
    type == efiUnacceptedMemoryType

/-- The entry that the loader makes of a descriptor. -/
def recoverEntry (d : Descriptor) : MemoryEntry where
  begin := d.physicalStart
  pages := d.numberOfPages.setWidth 56
  type := if isAvailableMemoryType d.type.toNat then 1 else 0

/-- The body of the loop of `RecoverMemoryMap`. -/
def recoverStep (root descriptors descriptorSize : BitVec 64) (i : Nat) (m : Memory 64) : Memory 64 :=
  let d := Descriptor.load m (descriptors + BitVec.ofNat 64 i * descriptorSize)
  (recoverEntry d).store m (memoryMap m root + BitVec.ofNat 64 i * BitVec.ofNat 64 sizeofMemoryEntry)

/-- The result is what the function returns. -/
def recoverMemoryMap (bs : BootServices F) (s : Machine F) (root : BitVec 64) : Option (Bool × Machine F) :=
  let q := bs.getMemoryMap s.firmware s.memory.byte 0 0
  let s := s.after q.bytes q.firmware
  if q.status ≠ efiBufferTooSmall then some (false, s)
  else
    let (memMap, s) := allocateLoaderBytes bs s (q.memoryMapSize + q.descriptorSize * 3)
    if memMap.begin = 0 then some (false, s)
    else
      let r := bs.getMemoryMap s.firmware s.memory.byte (q.memoryMapSize + q.descriptorSize * 3) memMap.begin
      let s := s.after r.bytes r.firmware
      if r.descriptorSize = 0 then none
      else
        let count := r.memoryMapSize / r.descriptorSize
        let m := (List.range count.toNat).foldl
          (fun m i => recoverStep root memMap.begin r.descriptorSize i m) s.memory
        let free := bs.freePages s.firmware m.byte memMap.begin memMap.pages
        some (true, ({ s with memory := m } : Machine F).after free.bytes free.firmware)

/-- On the entries that are left. The result is what the function returns, and the memory. `ACPI_20_TABLE_GUID`
comes with the firmware's header files. -/
def recoverACPITable (acpiGUID : BitVec 128) (m : Memory 64) (root : BitVec 64) :
    List ConfigurationTable → Bool × Memory 64
  | [] => (false, m)
  | entry :: entries =>
    if entry.vendorGuid = acpiGUID then
      let m := m.write (root + BitVec.ofNat 64 offsetXSDP) 8 entry.vendorTable.toNat
      let xsdp := rootXSDP m root
      if XSDP.signature m xsdp ≠ XSDP.validSignature then (false, m)
      else if XSDP.revision m xsdp ≠ 2 then (false, m)
      else
        let checksum := m.checksum xsdp xsdpFirstPartSize 0
        if checksum ≠ 0 then (false, m)
        else
          -- The second loop starts at the first byte again.
          let checksum := m.checksum xsdp (sizeofXSDP - xsdpFirstPartSize) checksum
          if checksum ≠ 0 then (false, m) else (true, m)
    else recoverACPITable acpiGUID m root entries

end GenericOs.Loader
