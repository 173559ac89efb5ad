import GenericOs.Elf.Code
import GenericOs.Loader.Code

/-!
# The run of the loader

`main` of `loader.c` with the functions that call protocols of the firmware. A call through
a null pointer makes the run fail (`none`).
-/

namespace GenericOs.Loader

open Bytes
open Elf (validateELF retrieveELFInfo loadELF)

/-! ## Protocols -/

inductive Protocol
  | simpleFileSystem
  | graphicsOutput
  deriving DecidableEq

/-- What a call leaves behind. -/
structure Answer (F α : Type) where
  value : α
  bytes : BitVec 64 → BitVec 8
  firmware : F

abbrev Call (F α : Type) : Type := F → (BitVec 64 → BitVec 8) → Answer F α

def efiSuccess : BitVec 64 := 0

/-- `BS`, the protocols that it locates, and `exit_bs`. -/
structure Services (F : Type) extends BootServices F where
  locateProtocol : Protocol → Call F (Option (BitVec 64))
  /-- The value is what is in `file` after the call. -/
  openVolume : (simpleFS : BitVec 64) → Call F (BitVec 64)
  /-- The status, and what is in `file` after the call. -/
  openFile : (file : BitVec 64) → (path : String) → Call F (BitVec 64 × BitVec 64)
  /-- The value is what is in `bufferSize` after the call. -/
  getInfo : (file bufferSize buffer : BitVec 64) → Call F (BitVec 64)
  read : (file size buffer : BitVec 64) → Call F Unit
  exitBS : Call F Unit

variable {F : Type} {α : Type}

def Machine.call (s : Machine F) (c : Call F α) : α × Machine F :=
  let a := c s.firmware s.memory.byte
  (a.value, s.after a.bytes a.firmware)

/-! ## `utils.c` -/

def requestProtocol (fw : Services F) (s : Machine F) (protocol : Protocol) : BitVec 64 × Machine F :=
  let (outProtocol, s) := s.call (fw.locateProtocol protocol)
  (outProtocol.getD 0, s)

def invalidAllocation : AllocatedSpace := { begin := 0, pages := 0 }

/-- `FileSize` of an `efi_file_info_t`. -/
def fileInfoSize (m : Memory 64) (info : BitVec 64) : BitVec 64 := BitVec.ofNat 64 (m.read (info + 8) 8)

/-! The three parts of `DownloadFileToMemory`. -/

/-- The file is opened: its status and handle. -/
def openVolumeFile (fw : Services F) (s : Machine F) (simpleFS : BitVec 64) (path : String) :
    (BitVec 64 × BitVec 64) × Machine F :=
  let (file, s) := s.call (fw.openVolume simpleFS)
  s.call (fw.openFile file path)

/-- `FileSize`, by way of a buffer that is freed again. -/
def requestFileSize (fw : Services F) (s : Machine F) (file : BitVec 64) : Option (BitVec 64 × Machine F) :=
  let (bufferSize, s) := s.call (fw.getInfo file 0 0)
  let (infoBuffer, s) := allocateLoaderBytes fw.toBootServices s bufferSize
  let (_, s) := s.call (fw.getInfo file bufferSize infoBuffer.begin)
  if infoBuffer.begin = 0 then none
  else
    let free := fw.freePages s.firmware s.memory.byte infoBuffer.begin infoBuffer.pages
    some (fileInfoSize s.memory infoBuffer.begin, s.after free.bytes free.firmware)

/-- The buffer of the file, with what `Read` puts there. -/
def readFile (fw : Services F) (s : Machine F) (file fileSize : BitVec 64) : AllocatedSpace × Machine F :=
  let (fileBuffer, s) := allocateLoaderBytes fw.toBootServices s fileSize
  let size := fileBuffer.pages * BitVec.ofNat 64 pageSize
  let (_, s) := s.call (fw.read file size fileBuffer.begin)
  (fileBuffer, s)

def downloadFileToMemory (fw : Services F) (s : Machine F) (path : String) : Option (AllocatedSpace × Machine F) :=
  let (simpleFS, s) := requestProtocol fw s .simpleFileSystem
  if simpleFS = 0 then none
  else
    let ((status, file), s) := openVolumeFile fw s simpleFS path
    if status ≠ efiSuccess then some (invalidAllocation, s)
    else
      match requestFileSize fw s file with
      | none => none
      | some (fileSize, s) => some (readFile fw s file fileSize)

/-! ## `loader.h` and `loader.c` -/

structure VideoInfo where
  bufferBegin : BitVec 64
  bufferSize : BitVec 64
  width : BitVec 64
  height : BitVec 64
  pixelsPerScanline : BitVec 64
  isBGR : Bool
  deriving DecidableEq

/-- The offset of `Video` in a root table. -/
def offsetVideo : Nat := 24

namespace VideoInfo

/-- The padding after `IsBGR` stays as it is. -/
def store (m : Memory 64) (a : BitVec 64) (v : VideoInfo) : Memory 64 :=
  let m := m.write (a + BitVec.ofNat 64 0) 8 v.bufferBegin.toNat
  let m := m.write (a + BitVec.ofNat 64 8) 8 v.bufferSize.toNat
  let m := m.write (a + BitVec.ofNat 64 16) 8 v.width.toNat
  let m := m.write (a + BitVec.ofNat 64 24) 8 v.height.toNat
  let m := m.write (a + BitVec.ofNat 64 32) 8 v.pixelsPerScanline.toNat
  m.write (a + BitVec.ofNat 64 40) 1 v.isBGR.toNat

/-- `PixelBlueGreenRedReserved8BitPerColor`. -/
def pixelBGR : Nat := 1

/-- From `gop->Mode` and `gop->Mode->Information`, which have 32-bit fields. -/
def ofMode (m : Memory 64) (gop : BitVec 64) : VideoInfo :=
  let mode := BitVec.ofNat 64 (m.read (gop + 24) 8)
  let information := BitVec.ofNat 64 (m.read (mode + 8) 8)
  { bufferBegin := BitVec.ofNat 64 (m.read (mode + 24) 8)
    bufferSize := BitVec.ofNat 64 (m.read (mode + 32) 8)
    width := BitVec.ofNat 64 (m.read (information + 4) 4)
    height := BitVec.ofNat 64 (m.read (information + 8) 4)
    pixelsPerScanline := BitVec.ofNat 64 (m.read (information + 32) 4)
    isBGR := m.read (information + 12) 4 = pixelBGR }

end VideoInfo

def recoverVideoMode (fw : Services F) (s : Machine F) (root : BitVec 64) : Bool × Machine F :=
  let (gop, s) := requestProtocol fw s .graphicsOutput
  if gop = 0 then (false, s)
  else
    let video := VideoInfo.ofMode s.memory gop
    (true, { s with memory := video.store s.memory (root + BitVec.ofNat 64 offsetVideo) })

/-- How a run ends: `main` returns, or it calls `KernelEntry( root )`. -/
inductive Outcome
  | returned (code : Nat)
  | entered (entry root : BitVec 64)
  deriving DecidableEq

def kernelPath : String := "\\ELF\\CORE\\KERNEL.ELF"

/-- `main` from `FormRootTable` on. -/
def enterKernel (fw : Services F) (acpiGUID : BitVec 128) (configurationTable : List ConfigurationTable)
    (s : Machine F) (kernelEntry : BitVec 64) : Option (Outcome × Machine F) :=
  match formRootTable fw.toBootServices s with
  | none => none
  | some (root, s) =>
    let (video, s) := recoverVideoMode fw s root
    if !video then some (.returned 1, s)
    else
      let (acpi, m) := recoverACPITable acpiGUID s.memory root configurationTable
      let s := { s with memory := m }
      if !acpi then some (.returned 2, s)
      else
        match recoverMemoryMap fw.toBootServices s root with
        | none => none
        | some (map, s) =>
          if !map then some (.returned 3, s)
          else
            let (_, s) := s.call fw.exitBS
            some (.entered kernelEntry root, s)

def main (fw : Services F) (acpiGUID : BitVec 128) (configurationTable : List ConfigurationTable) (s : Machine F) :
    Option (Outcome × Machine F) :=
  match downloadFileToMemory fw s kernelPath with
  | none => none
  | some (kernel, s) =>
    if kernel.begin = 0 ∨ !validateELF s.memory kernel.begin then some (.returned 1, s)
    else
      let kernelInfo := retrieveELFInfo s.memory kernel.begin
      let (kernelTarget, s) := allocateBytes fw.toBootServices s kernelInfo.executiveSize
      if kernelTarget.begin = 0 then some (.returned 2, s)
      else
        let (m, kernelEntry) := loadELF s.memory kernel.begin kernelTarget.begin kernelInfo
        let s := { s with memory := m }
        let (_, s) := allocateBytes fw.toBootServices s (BitVec.ofNat 64 (pageSize * 16))
        enterKernel fw acpiGUID configurationTable s kernelEntry

end GenericOs.Loader
