import Pintos.Kernel.Hash
import Pintos.Devices.Rtc
import Pintos.Threads.Calloc
import Pintos.Vm.FrameTable
import Pintos.Vm.SwapStore
import Pintos.Vm.Clock
import Pintos.Devices.Partition
import Pintos.Devices.Serial
import Pintos.Lib.Arithmetic
import Pintos.Userprog.CommandLine
import Pintos.Userprog.Program
import Pintos.Vm.EvictionRace
import Pintos.Userprog.Wait
import Pintos.Userprog.UserPointer
import Pintos.Userprog.Isolation
import Pintos.Userprog.FileLock
import Pintos.Userprog.LockRanks
import Pintos.Userprog.FileCalls
import Pintos.Threads.Sleep
import Pintos.Threads.Condition
import Pintos.Threads.Preemption
import Pintos.Threads.LoadAverage
import Pintos.Filesys.TwoCreates
import Pintos.Filesys.Fsutil
import Pintos.Lib.String
import Pintos.Threads.Init
