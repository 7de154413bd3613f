import HelixKernel.Mm.PmmBounds
import HelixKernel.Mm.PmmCanonical
import HelixKernel.Mm.PmmAccounting
import HelixKernel.Mm.PmmComplete
import HelixKernel.Lib.Radix
import HelixKernel.Machine.Paging
import HelixKernel.Mm.Vmm
import HelixKernel.Mm.VmmSteps
import HelixKernel.Mm.PmmSpare
import HelixKernel.Mm.VmmMap
import HelixKernel.Mm.VmmLarge
import HelixKernel.Extra.Liballoc
import HelixKernel.Mm.VmmUser
import HelixKernel.Mm.Boot
import HelixKernel.Mm.WriteLog
import HelixKernel.Arch.Idt
import HelixKernel.Arch.IdtSteps
import HelixKernel.Hlec.Hlec
import HelixKernel.Hlec.Registry
import HelixKernel.Hlec.Refinement
import HelixKernel.Lib.BlockHeap
import HelixKernel.Klibc.Vector
import HelixKernel.Klibc.VectorStorage
import HelixKernel.Klibc.VectorList
import HelixKernel.Klibc.VectorCompare
import HelixKernel.Klibc.VectorRefine
import HelixKernel.Resources.Io
import HelixKernel.Extra.Uacpi
import HelixKernel.Extra.UacpiRuns
import HelixKernel.Extra.DirectMap
import HelixKernel.Machine.Bytes
import HelixKernel.Mm.PmmBytes
import HelixKernel.Extra.UacpiIrq
import HelixKernel.Arch.IdtDrivers
import HelixKernel.Extra.UacpiEvent
import HelixKernel.Extra.CriticalSections
import HelixKernel.Extra.Spinlock
import HelixKernel.Lib.Interleave
import HelixKernel.Extra.Mutex
import HelixKernel.Extra.UacpiWait
import HelixKernel.Pcie.Legacy
import HelixKernel.Extra.UacpiPci
import HelixKernel.Extra.OutOfMemory
import HelixKernel.Mm.PmmMap
import HelixKernel.Mm.PmmPartition
import HelixKernel.Arch.IdtRefused
import HelixKernel.Mm.VmmRange
import HelixKernel.Mm.PmmFit
import HelixKernel.Mm.VmmFailure
import HelixKernel.Mm.VmmAccess
import HelixKernel.Lib.Ledger
import HelixKernel.Lib.ObjectHeap
import HelixKernel.Klibc.VectorObjects
import HelixKernel.Klibc.VectorLifetimes
import HelixKernel.Klibc.VectorLedger
import HelixKernel.Klibc.VectorWrap
import HelixKernel.Klibc.VectorAlias
import HelixKernel.Klibc.Cstring
import HelixKernel.Klibc.Copies
import HelixKernel.Klibc.Duplicates
import HelixKernel.Mm.UserCopy
import HelixKernel.Klibc.Search
import HelixKernel.Klibc.Compare
import HelixKernel.Klibc.Strtok
import HelixKernel.Klibc.Strtol
import HelixKernel.Entry
import HelixKernel.Lib.DoublyLinked
import HelixKernel.Lib.Tiling
import HelixKernel.Lib.ByteWords
import HelixKernel.Extra.BoundaryTags
import HelixKernel.Extra.TagRecords
import HelixKernel.Extra.Arenas
import HelixKernel.Extra.LiballocHeap
import HelixKernel.Extra.LiballocOps
import HelixKernel.Extra.LiballocRuns
import HelixKernel.Extra.Realloc
import HelixKernel.Lib.Census
import HelixKernel.Extra.MutexClients
import HelixKernel.Extra.RwLock
import HelixKernel.Extra.RecursiveLock
import HelixKernel.Extra.GlobalLock
import HelixKernel.Lib.Loops
import HelixKernel.Lib.WriteBack
import HelixKernel.Flanterm.Glyphs
import HelixKernel.Flanterm.Fb
import HelixKernel.Flanterm.Queue
import HelixKernel.Flanterm.Flush
import HelixKernel.Flanterm.Screen
import HelixKernel.Flanterm.Mirror
import HelixKernel.Flanterm.Refresh
import HelixKernel.Flanterm.Init
