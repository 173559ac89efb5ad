import GenericOs.Library.Bytes

/-!
# The ELF loader of `elf.c`

The file, the target buffer and everything else are bytes of one memory with 64-bit
addresses. The functions read the headers from the memory as it is at that moment.
-/

namespace GenericOs.Elf

open Bytes

/-! ## `elf.h` -/

def etDyn : Nat := 3

def ptLoad : Nat := 1

/-- `sizeof(ELFHeader)` and `sizeof(ELFProgramHeader)`. -/
def sizeofELFHeader : Nat := 64
def sizeofELFProgramHeader : Nat := 56

namespace ELFHeader

/-! `identity` is at offset 0. -/

def type (m : Memory 64) (elf : BitVec 64) : Nat := m.read (elf + 16) 2
def entry (m : Memory 64) (elf : BitVec 64) : BitVec 64 := BitVec.ofNat 64 (m.read (elf + 24) 8)
def programHeaderOffset (m : Memory 64) (elf : BitVec 64) : BitVec 64 := BitVec.ofNat 64 (m.read (elf + 32) 8)
def programHeaderSize (m : Memory 64) (elf : BitVec 64) : BitVec 16 := BitVec.ofNat 16 (m.read (elf + 54) 2)
def programHeaderCount (m : Memory 64) (elf : BitVec 64) : BitVec 16 := BitVec.ofNat 16 (m.read (elf + 56) 2)

end ELFHeader

namespace ELFProgramHeader

def type (m : Memory 64) (program : BitVec 64) : Nat := m.read program 4
def dataOffset (m : Memory 64) (program : BitVec 64) : BitVec 64 := BitVec.ofNat 64 (m.read (program + 8) 8)
def vAddr (m : Memory 64) (program : BitVec 64) : BitVec 64 := BitVec.ofNat 64 (m.read (program + 16) 8)
def sizeInFile (m : Memory 64) (program : BitVec 64) : BitVec 64 := BitVec.ofNat 64 (m.read (program + 32) 8)
def sizeInMemory (m : Memory 64) (program : BitVec 64) : BitVec 64 := BitVec.ofNat 64 (m.read (program + 40) 8)

end ELFProgramHeader

structure ELFInfo where
  executiveSize : BitVec 64
  executiveBase : BitVec 64

/-! ## The functions of `elf.c`, in its order -/

/-- `VALID_ELF_IDENT`: the magic bytes, `ELFCLASS64`, `ELFDATA2LSB`, `EV_CURRENT`, `ELFOSABI_SYSV`, 0. -/
def validElfIdent : List (BitVec 8) := [0x7F, 0x45, 0x4C, 0x46, 2, 1, 1, 0, 0]

def isValidELF (m : Memory 64) (header : BitVec 64) : Bool :=
  (List.range validElfIdent.length).map (fun i => m.byte (header + BitVec.ofNat 64 i)) == validElfIdent

def isDYNELF (m : Memory 64) (header : BitVec 64) : Bool := ELFHeader.type m header == etDyn

/-- Without the messages it prints. -/
def validateELF (m : Memory 64) (elf : BitVec 64) : Bool := isValidELF m elf && isDYNELF m elf

/-- `max` and `min` of two `uint64_t`. -/
def max64 (a b : BitVec 64) : BitVec 64 := if a > b then a else b
def min64 (a b : BitVec 64) : BitVec 64 := if a < b then a else b

/-- `do body while( --headersLeft > 0 )` with a `uint32_t`. -/
def doWhile {σ : Type*} (body : σ → σ) (headersLeft : BitVec 32) (s : σ) : σ :=
  if headersLeft - 1 > 0 then doWhile body (headersLeft - 1) (body s) else body s
termination_by (headersLeft - 1).toNat
decreasing_by bv_omega

/-- The local variables of `RetrieveELFInfo`. -/
structure RetrieveState where
  highestMem : BitVec 64
  lowestMem : BitVec 64
  program : BitVec 64

/-- The body of the loop of `RetrieveELFInfo`. -/
def retrieveStep (m : Memory 64) (elf : BitVec 64) (s : RetrieveState) : RetrieveState :=
  let program := s.program
  let next := program + (ELFHeader.programHeaderSize m elf).setWidth 64
  if ELFProgramHeader.type m program = ptLoad then
    let vAddr := ELFProgramHeader.vAddr m program
    { highestMem := max64 s.highestMem (vAddr + ELFProgramHeader.sizeInMemory m program)
      lowestMem := min64 s.lowestMem vAddr
      program := next }
  else { s with program := next }

/-- `lowestMem` starts at `~0`. -/
def retrieveELFInfo (m : Memory 64) (elf : BitVec 64) : ELFInfo :=
  let program := elf + ELFHeader.programHeaderOffset m elf
  let headersLeft := (ELFHeader.programHeaderCount m elf).setWidth 32
  let s := doWhile (retrieveStep m elf) headersLeft
    { highestMem := 0, lowestMem := BitVec.allOnes 64, program := program }
  { executiveSize := s.highestMem - s.lowestMem, executiveBase := s.lowestMem }

/-- What the body of the loop of `LoadELF` does with the header at `program`. -/
def loadProgram (elf trg base program : BitVec 64) (m : Memory 64) : Memory 64 :=
  if ELFProgramHeader.type m program = ptLoad then
    let loadAddr := trg + ELFProgramHeader.vAddr m program - base
    let sizeInFile := ELFProgramHeader.sizeInFile m program
    let sizeInMemory := ELFProgramHeader.sizeInMemory m program
    let m := if sizeInMemory > sizeInFile then m.fill (loadAddr + sizeInFile) 0 (sizeInMemory - sizeInFile).toNat
      else m
    m.copy loadAddr (elf + ELFProgramHeader.dataOffset m program) (ELFProgramHeader.sizeInFile m program).toNat
  else m

/-- The body of the loop of `LoadELF`, on the memory and `program`. -/
def loadStep (elf trg base : BitVec 64) (s : Memory 64 × BitVec 64) : Memory 64 × BitVec 64 :=
  let m := loadProgram elf trg base s.2 s.1
  (m, s.2 + (ELFHeader.programHeaderSize m elf).setWidth 64)

/-- The memory after the call, and the result. -/
def loadELF (m : Memory 64) (elf trg : BitVec 64) (info : ELFInfo) : Memory 64 × BitVec 64 :=
  let base := info.executiveBase
  let program := elf + ELFHeader.programHeaderOffset m elf
  let headersLeft := (ELFHeader.programHeaderCount m elf).setWidth 32
  let m := (doWhile (loadStep elf trg base) headersLeft (m, program)).1
  (m, trg + ELFHeader.entry m elf - base)

end GenericOs.Elf
