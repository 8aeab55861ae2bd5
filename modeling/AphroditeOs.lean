import AphroditeOs.Bootmem.Free
import AphroditeOs.Bootmem.Soundness
import AphroditeOs.Bootmem.Preferred
import AphroditeOs.Bootmem.Bump
import AphroditeOs.Bootmem.AlignZero
import AphroditeOs.Bootmem.Rounding
import AphroditeOs.Setup.FreeMap
import AphroditeOs.Setup.KernelPages
import AphroditeOs.Setup.Start
import AphroditeOs.Boot.Window
import AphroditeOs.Lock.Rwlock
import AphroditeOs.Lock.Spinlock
import AphroditeOs.Lock.Progress
import AphroditeOs.Lock.Serial
import AphroditeOs.Trap.SysCall
import AphroditeOs.Trap.AsmStubs
import AphroditeOs.Irq.Eoi
import AphroditeOs.Irq.Serve
import AphroditeOs.Loader.Load
import AphroditeOs.Loader.Chain
import AphroditeOs.Bootmem.AnyNode
import AphroditeOs.Bootmem.Oversize
import AphroditeOs.Bootmem.Touched
import AphroditeOs.Bootmem.Tenants
import AphroditeOs.Mm.Directory
import AphroditeOs.Boot.Tables
import AphroditeOs.Boot.SetupPaging
import AphroditeOs.Boot.Kernel
import AphroditeOs.Setup.Mbinfo
import AphroditeOs.Setup.Pipeline
import AphroditeOs.Setup.Listing
import AphroditeOs.Lists.ListHead
import AphroditeOs.Lists.Hlist
import AphroditeOs.Cxx.Atexit
import AphroditeOs.Realmode.Descriptor
import AphroditeOs.Trap.Gates
import AphroditeOs.Trap.Fault
import AphroditeOs.Trap.Served
import AphroditeOs.Irq.Progress
import AphroditeOs.Irq.Mask
import AphroditeOs.Irq.Chip
import AphroditeOs.Realmode.EndMem
import AphroditeOs.Boot.MainEntry
import AphroditeOs.Boot.LoaderEntry
import AphroditeOs.Cxx.Table
import AphroditeOs.Cxx.Construct
import AphroditeOs.Bootmem.ZeroSearch
import AphroditeOs.Lib.Terminal
import AphroditeOs.Print.Console
import AphroditeOs.Lib.CString
import AphroditeOs.Lib.Numeral
import AphroditeOs.Print.Itoa
import AphroditeOs.Print.Printk
import AphroditeOs.Print.Width
import AphroditeOs.Print.Bounds
