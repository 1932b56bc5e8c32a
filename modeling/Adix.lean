import Adix.Fork.Atomic
import Adix.KernelHeap.Progress
import Adix.Cow.Tlb
import Adix.Tarfs.Listing
import Adix.Scheduler.Tree
import Adix.Scheduler.Return
import Adix.Scheduler.SleepTimer
import Adix.Descriptors.Calls
import Adix.Syscall.Index
import Adix.Timer.Clock
import Adix.Terminal.Bounds
import Adix.Keyboard.Typed
import Adix.Ahci.Transfer
import Adix.Shell.Tokens
import Adix.Shell.Script
import Adix.Shell.Environment
import Adix.Space.Leftover
import Adix.Space.Faults
import Adix.Boot.Translation
import Adix.Boot.Metadata
import Adix.Boot.SmallEntries
import Adix.Mmap.Contents
import Adix.Elf.Exec
import Adix.KernelHeap.Failure
import Adix.Vma.Stray
import Adix.Intrusive.Lists
import Adix.Scheduler.Snapshot
import Adix.Screen.Page
import Adix.Kmalloc.FirstFit
import Adix.Fork.Leftover
