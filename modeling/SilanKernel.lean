import SilanKernel.Csky.AlignmentQuad
import SilanKernel.Csky.AlignmentSound
import SilanKernel.Csky.AsidSafety
import SilanKernel.Csky.Bitops
import SilanKernel.Csky.CacheFlushInsn
import SilanKernel.Csky.ChecksumSound
import SilanKernel.Csky.StrnlenUser
import SilanKernel.Csky.UaccessCopy
import SilanKernel.Csky.UnmappedArea
import SilanKernel.Csky.UserMode
import SilanKernel.Dlna.ClockLock
import SilanKernel.Dlna.Prom
import SilanKernel.Dlna.SieMallocRun
import SilanKernel.Drivers.SilanFlashBounds
import SilanKernel.Drivers.SilanFlashErase
import SilanKernel.Drivers.SilanFlashWrite
import SilanKernel.Fs.Jffs2FragRun
import SilanKernel.Fs.LocksSound
import SilanKernel.Ipc.SemRun
import SilanKernel.Kernel.Range
import SilanKernel.Kernel.ResourceRam
import SilanKernel.Kernel.ResourceReserve
import SilanKernel.Kernel.Timer
import SilanKernel.Lib.BtreeRun
import SilanKernel.Lib.IdaSound
import SilanKernel.Lib.IdrRun
import SilanKernel.Lib.Kstrtox
import SilanKernel.Lib.RadixTreeGang
import SilanKernel.Mm.PageAllocSound
import SilanKernel.Mm.VmaFind
import SilanKernel.Mm.VmaMergeFail
import SilanKernel.Net.FilterSafe
import SilanKernel.Net.NlattrSound
