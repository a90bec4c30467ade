import LittleOS.Lib.Dll
import LittleOS.Lib.Words
import LittleOS.Lib.Runs
import LittleOS.Lib.Rounds
import LittleOS.Lib.Intervals
import LittleOS.Lib.Coverage
import LittleOS.Lib.TwoLevel
import LittleOS.Lib.Sections
import LittleOS.Lib.Turns
import LittleOS.Lib.Descriptors
import LittleOS.Lib.ByteStore
import LittleOS.Lib.CStrings
import LittleOS.Lib.WordCells
import LittleOS.Lib.LastWrite
import LittleOS.Lib.Numerals
import LittleOS.Klist
import LittleOS.KlistRun
import LittleOS.Sched
import LittleOS.RoundRobin
import LittleOS.SchedMachine
import LittleOS.SchedQueues
import LittleOS.TimerService
import LittleOS.SleepAccuracy
import LittleOS.StateFields
import LittleOS.TaskMemory
import LittleOS.TaskTick
import LittleOS.SysSleep
import LittleOS.BootOrder
import LittleOS.IrqProtection
import LittleOS.TaskContext
import LittleOS.Gdt
import LittleOS.SegmentEncoding
import LittleOS.IrqInstall
import LittleOS.Threads
import LittleOS.ThreadQueues
import LittleOS.Semaphores
import LittleOS.Permits
import LittleOS.ThreadMemory
import LittleOS.ThreadRun
import LittleOS.TssInit
import LittleOS.PageBitmap
import LittleOS.Memory
import LittleOS.MemoryBlocks
import LittleOS.PageSearch
import LittleOS.Regions
import LittleOS.PageTable
import LittleOS.AddressSpaces
import LittleOS.AddressLookup
import LittleOS.KernelBoot
import LittleOS.KernelMap
import LittleOS.MemoryMap
import LittleOS.DetectMemory
import LittleOS.ReadElf
import LittleOS.Klib
import LittleOS.Kmath
import LittleOS.Lib.Transducer
import LittleOS.Vsprintf
import LittleOS.NumberOutput
import LittleOS.KlogPrintf
import LittleOS.Reversal
import LittleOS.BitSet
import LittleOS.StackOwnership
import LittleOS.SharedTable
import LittleOS.Isolation
import LittleOS.AllocatedTables
import LittleOS.OutOfMemory
import LittleOS.CopyPageTable
import LittleOS.FreePages
import LittleOS.CopyTurns
import LittleOS.CopyOutOfMemory
import LittleOS.DestroyPageTable
import LittleOS.Addressable
import LittleOS.Fork
import LittleOS.TrapEntry
import LittleOS.Lib.Waiting
import LittleOS.BoundedWait
import LittleOS.Lib.Coroutines
import LittleOS.ThreadSwitch
import LittleOS.Lib.Ata
import LittleOS.Loader32
import LittleOS.Lib.Pic8259
import LittleOS.Interrupts
import LittleOS.Lib.Rota
import LittleOS.TssSchedule
import LittleOS.ProcSwitch
import LittleOS.Lib.Uart
import LittleOS.SerialLine
import LittleOS.Lib.ForwardCopy
import LittleOS.MemoryCopy
import LittleOS.ForkTree
import LittleOS.Lib.Lockstep
import LittleOS.SchedMemory
