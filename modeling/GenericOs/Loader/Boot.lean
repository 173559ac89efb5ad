import GenericOs.Elf.Moved
import GenericOs.Loader.Download
import GenericOs.Loader.RootPointer

/-!
# From the kernel's file to the root table

What a run of `main` leaves in memory: the image of the kernel in pages of its own and a
root table apart from it. The run ends at the ACPI root pointer.
-/

namespace GenericOs.Loader

open Bytes
open Elf (IsLoad segmentAt retrieveELFInfo loadELF)

variable {F : Type}

/-! ## The root table -/

section Root

variable {fw : Services F} {v : View F} {descriptorSize : Nat} {infoSize : BitVec 64} {file : List (BitVec 8)}
  {s s' : Machine F} {m : Memory 64} {root : BitVec 64}

end Root

/-! ## The image -/

section Image

variable {file : List (BitVec 8)} {m m' : Memory 64} {elf trg : BitVec 64}

def imageBase (file : List (BitVec 8)) : BitVec 64 := (retrieveELFInfo (fileMemory file) 0).executiveBase

def imageSize (file : List (BitVec 8)) : Nat := (retrieveELFInfo (fileMemory file) 0).executiveSize.toNat

/-- At `trg` every segment has its bytes of the file and then zeros. -/
def HasImage (file : List (BitVec 8)) (m : Memory 64) (trg : BitVec 64) : Prop :=
  ∀ i, IsLoad (fileMemory file) 0 i → ∀ k < (segmentAt (fileMemory file) 0 i).sizeInMemory,
    m.byte ((segmentAt (fileMemory file) 0 i).target trg (imageBase file) + BitVec.ofNat 64 k) =
      if k < (segmentAt (fileMemory file) 0 i).sizeInFile then
        file.getD ((segmentAt (fileMemory file) 0 i).dataOffset + k) 0
      else 0

theorem HasImage.congr (h : HasImage file m trg) (hfile : KernelFile file)
    (hagree : AgreeOn (window trg (imageSize file)) m m') : HasImage file m' trg := by
  intro i hi k hk
  rw [← h i hi k hk]
  apply hagree
  exact Elf.filled_inside hfile.loadable (Elf.filled_subset hi (mem_window_add hk))

end Image

/-! ## `main` -/

section Main

variable {fw : Services F} {v : View F} {descriptorSize limit room : Nat} {infoSize : BitVec 64}
  {file : List (BitVec 8)} {acpiGUID : BitVec 128} {configurationTable : List ConfigurationTable} {s s' : Machine F}
  {kernelEntry : BitVec 64} {o : Outcome}

end Main

/-! ## A firmware with a kernel -/

end GenericOs.Loader
