import GenericOs.Loader.Code

/-!
# `MemoryMap.c`

The entries are the ones that the loader writes. A map is the list of its entries, and a
pointer into it is the index of an entry, with `none` for `NULL`.
-/

namespace GenericOs.MemoryMap

open Loader

/-- `PAGE_SIZE` of `Architecture.h`, a `size_t`. -/
def pageSize : BitVec 64 := 4096

def isMemoryEntryAvailable (entry : MemoryEntry) : Bool := entry.type &&& 1 ≠ 0

/-- The loop of `NextMemoryEntryWithin`, with the entries from `next` on. -/
def nextLoop (begin stop : BitVec 64) : Nat → List MemoryEntry → Option Nat
  | _, [] => none
  | next, entry :: entries =>
    if !isMemoryEntryAvailable entry then nextLoop begin stop (next + 1) entries
    else
      let entryEnd := entry.begin + entry.pages.setWidth 64 * pageSize
      if entry.begin ≥ stop ∨ entryEnd ≤ begin then nextLoop begin stop (next + 1) entries
      else some next

/-- The result is also the new `*cur`. -/
def nextMemoryEntryWithin (begin length : BitVec 64) (map : List MemoryEntry) (cur : Option Nat) : Option Nat :=
  let next := match cur with
    | some cur => cur + 1
    | none => 0
  nextLoop begin (begin + length) next (map.drop next)

end GenericOs.MemoryMap
