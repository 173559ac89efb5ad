import GenericOs.Library.Chain
import GenericOs.Library.Transition
import GenericOs.Library.Liveness
import GenericOs.Library.Tiling
import GenericOs.Library.Marks
import GenericOs.Library.Bytes
import GenericOs.Library.Heap
import GenericOs.Library.Cursor
import GenericOs.Library.Register
import GenericOs.Library.Rounding
import GenericOs.Library.Linearizable
import GenericOs.Library.Pool
import GenericOs.SkipList.Code
import GenericOs.SkipList.Spec
import GenericOs.SkipList.Proofs
import GenericOs.SkipList.Best
import GenericOs.SkipList.Run
import GenericOs.SkipList.Restore
import GenericOs.SkipList.Forest
import GenericOs.MemoryRange.Code
import GenericOs.MemoryRange.Spec
import GenericOs.MemoryRange.Proofs
import GenericOs.MemoryRange.Insert
import GenericOs.MemoryRange.Allocate
import GenericOs.MemoryRange.Run
import GenericOs.MemoryRange.Accounting
import GenericOs.MemoryRange.Lists
import GenericOs.MemoryRange.Short
import GenericOs.MemoryRange.BestFit
import GenericOs.MemoryRange.Restore
import GenericOs.Slab.Code
import GenericOs.Slab.Bitmap
import GenericOs.Slab.Layout
import GenericOs.Slab.Order
import GenericOs.Slab.Blocks
import GenericOs.Slab.Lists
import GenericOs.Slab.Return
import GenericOs.Slab.Concurrent
import GenericOs.Slab.RemoteFree
import GenericOs.Mcs.Code
import GenericOs.Mcs.Exclusion
import GenericOs.Mcs.Waiting
import GenericOs.Mcs.Fifo
import GenericOs.Mcs.Progress
import GenericOs.Elf.Code
import GenericOs.Elf.Walk
import GenericOs.Elf.Image
import GenericOs.Elf.Bounds
import GenericOs.Elf.Moved
import GenericOs.Loader.Code
import GenericOs.Loader.MemoryMap
import GenericOs.Loader.RootPointer
import GenericOs.Loader.Main
import GenericOs.Loader.Download
import GenericOs.Loader.Boot
import GenericOs.MemoryMap.Code
import GenericOs.MemoryMap.Iterate
import GenericOs.MemoryMap.Handover
import GenericOs.Acpi.Code
import GenericOs.Acpi.Find
import GenericOs.Acpi.Srat
import GenericOs.Acpi.Affinity
import GenericOs.Acpi.Slit
import GenericOs.Heapsort.Code
import GenericOs.Heapsort.Sort
import GenericOs.Heapsort.Heapify
import GenericOs.Heapsort.Safety
import GenericOs.Heapsort.Depth
import GenericOs.Random.Code
import GenericOs.Random.Sequence
