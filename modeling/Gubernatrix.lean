import Gubernatrix.AcpiTables
import Gubernatrix.BootFormat
import Gubernatrix.BootPaging
import Gubernatrix.Cpuid
import Gubernatrix.Debug.Hexdump
import Gubernatrix.Deque
import Gubernatrix.Display.Gmbus
import Gubernatrix.Display.Registers
import Gubernatrix.Edid.Contents
import Gubernatrix.Fpu
import Gubernatrix.Heap
import Gubernatrix.Heap.Interleaved
import Gubernatrix.Interrupts.AcpiInit
import Gubernatrix.Interrupts.Agreement
import Gubernatrix.Interrupts.Allocate
import Gubernatrix.Interrupts.Command
import Gubernatrix.Interrupts.Dispatch
import Gubernatrix.Interrupts.Entry
import Gubernatrix.Interrupts.Eoi
import Gubernatrix.Interrupts.Interleaved
import Gubernatrix.Interrupts.Ioapic
import Gubernatrix.Interrupts.LocalTimer
import Gubernatrix.Interrupts.Pic
import Gubernatrix.Interrupts.Reentry
import Gubernatrix.Interrupts.Search
import Gubernatrix.Interrupts.Segments
import Gubernatrix.MemoryMap
import Gubernatrix.Nesting
import Gubernatrix.Pci.Bar
import Gubernatrix.Pci.Chain
import Gubernatrix.Pci.Ecam
import Gubernatrix.Pci.Enumerate
import Gubernatrix.Pci.Msi
import Gubernatrix.PhysMem.Conservation
import Gubernatrix.PhysMem.Dma
import Gubernatrix.PhysMem.Init
import Gubernatrix.PhysMem.Overflow
import Gubernatrix.PhysMem.Quicksort
import Gubernatrix.PhysMem.Ranges
import Gubernatrix.PhysMem.Restore
import Gubernatrix.PhysMem.Shortage
import Gubernatrix.Queue.Interleaved
import Gubernatrix.Smp
import Gubernatrix.Stdlib.Numerals
import Gubernatrix.Strings.Copy
import Gubernatrix.Strings.Memory
import Gubernatrix.Strings.Reads
import Gubernatrix.Strings.Search
import Gubernatrix.Timers.Cmos
import Gubernatrix.Timers.Expiry
import Gubernatrix.Timers.Halting
import Gubernatrix.Timers.HpetInit
import Gubernatrix.Timers.Request
import Gubernatrix.Timers.Tables
import Gubernatrix.Timers.Wait
import Gubernatrix.Timers.WallClock
import Gubernatrix.Tls
import Gubernatrix.VirtMem.Bounds
import Gubernatrix.VirtMem.Built
import Gubernatrix.VirtMem.Cores
import Gubernatrix.VirtMem.DirectMap
import Gubernatrix.VirtMem.Disturb
import Gubernatrix.VirtMem.Exhaust
import Gubernatrix.VirtMem.Failed
import Gubernatrix.VirtMem.Flush
import Gubernatrix.VirtMem.Release
import Gubernatrix.VirtMem.Supply
import Gubernatrix.VirtMem.Switch
import Gubernatrix.VirtMem.Unmap
import Gubernatrix.VirtMem.Vmalloc
