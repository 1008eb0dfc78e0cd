import BoruixKernel.Mm.VmaCanonical
import BoruixKernel.Mm.SharedTables
import BoruixKernel.Mm.Migration
import BoruixKernel.Mm.PushData
import BoruixKernel.Pmm.Client
import BoruixKernel.Pmm.Merges
import BoruixKernel.Pmm.Compaction
import BoruixKernel.Pmm.ReserveCount
import BoruixKernel.Pmm.Throttle
import BoruixKernel.Fs.OpenReturns
import BoruixKernel.Fs.FatFile
import BoruixKernel.Fs.PipeWakeup
import BoruixKernel.Fs.Fifo
import BoruixKernel.Fs.SocketPairing
import BoruixKernel.Fs.MountUnmount
import BoruixKernel.Driver.AtaPioDisk
import BoruixKernel.Task.RunQueueFlag
import BoruixKernel.Task.Registered
import BoruixKernel.Task.Shootdown
import BoruixKernel.Task.DeferredShootdown
import BoruixKernel.Syscall.ArrayCalls
import BoruixKernel.Syscall.PipeCalls
import BoruixKernel.Syscall.Sbrk
import BoruixKernel.User.Checksum
import BoruixKernel.User.GrowableHeap
import BoruixKernel.Fs.FatFree
import BoruixKernel.Fs.FatLayout
import BoruixKernel.Fs.FatNames
