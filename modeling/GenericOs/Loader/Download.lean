import GenericOs.Elf.Image
import GenericOs.Loader.Main
import GenericOs.Loader.MemoryMap

/-!
# Downloading the kernel

What the loader relies on when it calls the firmware. Every call and every store is a phase
that leaves the pages of the loader alone, and the download puts the file into such pages.
-/

namespace GenericOs.Loader

open Bytes
open Elf (Loadable)

variable {F α : Type}

/-! ## What the loader relies on -/

/-- A memory with the file at address 0. -/
def fileMemory (file : List (BitVec 8)) : Memory 64 where
  byte x := file.getD x.toNat 0
  written _ := false

/-- The file is in `m` at `a`. -/
def Holds (file : List (BitVec 8)) (m : Memory 64) (a : BitVec 64) : Prop := Copied file.length (fileMemory file) 0 m a

/-- A kernel that `LoadELF` can load, and its size in pages is a number. -/
structure KernelFile (file : List (BitVec 8)) : Prop where
  loadable : Loadable (fileMemory file) 0 file.length
  small : file.length + pageSize ≤ 2 ^ 64

/-- What a state of the firmware says about the loader: the map, the bytes of its pages, its
handles of the kernel's file, and the number of requests for pages so far. -/
structure View (F : Type) where
  map : F → List Descriptor
  own : F → Set (BitVec 64)
  opened : F → Set (BitVec 64)
  spent : F → Nat

/-- The loader holds what it held before, after at most `k` requests for pages. -/
structure View.Keeps (v : View F) (k : Nat) (f f' : F) : Prop where
  own : v.own f ⊆ v.own f'
  opened : v.opened f ⊆ v.opened f'
  spent : v.spent f' ≤ v.spent f + k

section Phase

variable {v : View F} {hole hole' K : Set (BitVec 64)} {k k' : Nat} {s s' s'' : Machine F}

/-- From `s` to `s'` the pages of the loader stay as they are, but for the bytes in `hole`, and the loader
stores only to pages that it holds. -/
structure Phase (v : View F) (hole : Set (BitVec 64)) (k : Nat) (s s' : Machine F) : Prop where
  keeps : v.Keeps k s.firmware s'.firmware
  same : AgreeOn (v.own s.firmware \ hole) s.memory s'.memory
  stores : ∀ x, s'.memory.written x = true → s.memory.written x = true ∨ x ∈ v.own s'.firmware

theorem Phase.trans (h : Phase v hole k s s') (h' : Phase v hole' k' s' s'') :
    Phase v (hole ∪ hole') (k + k') s s'' where
  keeps := by
    refine ⟨h.keeps.own.trans h'.keeps.own, h.keeps.opened.trans h'.keeps.opened, ?_⟩
    have := h.keeps.spent
    have := h'.keeps.spent
    omega
  same := by
    rintro x ⟨hx, hno⟩
    rw [Set.mem_union, not_or] at hno
    exact (h'.same x ⟨h.keeps.own hx, hno.2⟩).trans (h.same x ⟨hx, hno.1⟩)
  stores x hx := (h'.stores x hx).elim
    (fun hx => (h.stores x hx).imp_right fun hx => h'.keeps.own hx) Or.inr

/-- Bytes of pages that the loader did not hold do not count. -/
theorem Phase.mono (h : Phase v hole k s s') (hsub : hole ∩ v.own s.firmware ⊆ hole') (hk : k ≤ k') :
    Phase v hole' k' s s' where
  keeps := ⟨h.keeps.own, h.keeps.opened, h.keeps.spent.trans (Nat.add_le_add_left hk _)⟩
  same x hx := h.same x ⟨hx.1, fun hin => hx.2 (hsub ⟨hin, hx.1⟩)⟩
  stores := h.stores

end Phase

/-! ## `AllocateBytes` -/

section Allocate

variable {fw : Services F} {v : View F} {descriptorSize limit room : Nat} {infoSize : BitVec 64}
  {file : List (BitVec 8)}

end Allocate

/-! ## `DownloadFileToMemory` -/

section Download

variable {fw : Services F} {v : View F} {descriptorSize limit room : Nat} {infoSize : BitVec 64}
  {file : List (BitVec 8)} {s s' : Machine F} {space : AllocatedSpace}

end Download

end GenericOs.Loader
