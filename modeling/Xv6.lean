import Xv6.Bio.Coherence
import Xv6.Console.Line
import Xv6.Fileread.Sources
import Xv6.Fs.DirMap
import Xv6.Fs.Failure
import Xv6.Fs.RefCounts
import Xv6.Grep
import Xv6.Grep.Lines
import Xv6.Kernel.BootSpec
import Xv6.Kernel.Copyinstr
import Xv6.Kernel.Dispatch
import Xv6.Kernel.Draws
import Xv6.Kernel.ExecAlarm
import Xv6.Kernel.FailedFork
import Xv6.Kernel.Memory
import Xv6.Kernel.PageMap
import Xv6.Kernel.Pid
import Xv6.Kernel.RunTime
import Xv6.Kernel.Waitx
import Xv6.Log.Reservation
import Xv6.Memmove
import Xv6.Misc.ByteMem
import Xv6.Misc.Wp
import Xv6.Mkfs.WellFormed
import Xv6.Pipe.Fifo
import Xv6.Pipe.Read
import Xv6.Pipe.Sleepers
import Xv6.Sched.Clock
import Xv6.Sched.Lottery
import Xv6.Sched.Niceness
import Xv6.Sched.Selection
import Xv6.Sched.Slices
import Xv6.Sh.Accepts
import Xv6.Sync.Sleep
import Xv6.Sync.WaitSafety
import Xv6.SysSleep
import Xv6.Umalloc.Sbrk
import Xv6.Virtio.Protocol
