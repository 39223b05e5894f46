import TrinityXv6.Log.Sync
import TrinityXv6.Log.Admission
import TrinityXv6.Log.Bookkeeping
import TrinityXv6.Log.Wake
import TrinityXv6.Fs.Budget
import TrinityXv6.Fs.Offset
import TrinityXv6.Fs.Write
import TrinityXv6.Mkfs.Kernel
import TrinityXv6.Process.Sleep
import TrinityXv6.Process.PipeWake
import TrinityXv6.Process.PipeFifo
import TrinityXv6.Process.ForkSound
import TrinityXv6.Process.WaitKill
import TrinityXv6.Process.Console
import TrinityXv6.Vm.Lazy
import TrinityXv6.Disk.Protocol
import TrinityXv6.Sched.Sound
import TrinityXv6.Heap.Sound
import TrinityXv6.Shell.Complete
import TrinityXv6.Grep.Match
import TrinityXv6.Libc.Twice
