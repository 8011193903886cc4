import Xv6.Mutex.Exclusion
import Xv6.Mutex.Recycling
import Xv6.Tree.Exclusion
import Xv6.Smp.LockOrder
import Xv6.Tree.Contention
import Xv6.Kernel.Survival
import Xv6.Cpu.Stacks
import Xv6.Cpu.Interrupts
import Xv6.Sleep.Wakeup
import Xv6.DiskLog.Recovery
import Xv6.Transactions.Space
import Xv6.Bcache.Coherence
import Xv6.Links.Paths
import Xv6.Pipes.Creation
import Xv6.Pipes.Order
import Xv6.Pipes.Waiting
import Xv6.Kernel.Killed
import Xv6.Filewrite.Offsets
import Xv6.Filewrite.Logging
import Xv6.Memory.Sbrk
import Xv6.Memory.Paths
import Xv6.Descriptors.Sharing
import Xv6.Cwd.References
import Xv6.Killing.Sleepers
import Xv6.Tree.Deallocation
import Xv6.Dirs.Map
import Xv6.Ide.Refinement
import Xv6.Mkfs.Agreement
import Xv6.Fs.Holding
import Xv6.Syscall.Arguments
import Xv6.Pages.Copyout
import Xv6.Grep.Lines
import Xv6.Strings.Memmove
