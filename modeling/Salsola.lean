import Salsola.Lib.Outcome
import Salsola.Lib.Ring
import Salsola.Lib.FirstRun
import Salsola.Lib.Memory
import Salsola.Lib.Blocks
import Salsola.Lib.Turns
import Salsola.Lib.Streaming
import Salsola.Lib.Fips180
import Salsola.Lib.Rfc2104
import Salsola.Lib.Rfc8439
import Salsola.Lib.X86
import Salsola.Lib.WordStack
import Salsola.Lib.Scan
import Salsola.Lib.Cursor
import Salsola.Lib.Xorshift
import Salsola.Lib.Numeral
import Salsola.Machine
import Salsola.Ringbuffer
import Salsola.RingbufferLaws
import Salsola.Frames
import Salsola.FramesLaws
import Salsola.StringC
import Salsola.Prng
import Salsola.Kmalloc
import Salsola.HeapChain
import Salsola.HeapSearch
import Salsola.HeapGrowth
import Salsola.HeapCalls
import Salsola.HeapMoves
import Salsola.HeapRuns
import Salsola.HeapSafety
import Salsola.HeapRequests
import Salsola.HeapComplete
import Salsola.Mmu
import Salsola.MmuTables
import Salsola.MmuWrites
import Salsola.MmuSearch
import Salsola.MmuOpen
import Salsola.MmuCalls
import Salsola.MmuExact
import Salsola.MmuProgress
import Salsola.MmuInit
import Salsola.MmuStart
import Salsola.MmuRuns
import Salsola.MmuFree
import Salsola.MmuReturns
import Salsola.MmuNext
import Salsola.MmuCopies
import Salsola.MmuClone
import Salsola.MmuCloned
import Salsola.MmuSpaces
import Salsola.MmuIsolation
import Salsola.MmuMemory
import Salsola.MmuKept
import Salsola.MmuBytes
import Salsola.MmuStack
import Salsola.MemoryMap
import Salsola.MmuUsable
import Salsola.HeapRegions
import Salsola.KernelHeap
import Salsola.KernelRuns
import Salsola.Multiboot
import Salsola.Task
import Salsola.TaskRuns
import Salsola.KernelTasks
import Salsola.Sha1
import Salsola.Sha1Laws
import Salsola.Sha1Stream
import Salsola.Sha1Hmac
import Salsola.Csprng
import Salsola.CsprngFast
import Salsola.CsprngLaws
import Salsola.CsprngRuns
import Salsola.CsprngKey
import Salsola.CsprngStream
import Salsola.PrngRuns
import Salsola.Keyboard
import Salsola.KeyboardRuns
import Salsola.KeyboardDecoding
import Salsola.Pci
import Salsola.PciBar
import Salsola.PciScan
import Salsola.Ahci
import Salsola.AhciSetup
import Salsola.AhciCommands
import Salsola.AhciBar
import Salsola.AhciSlots
import Salsola.AhciDisk
import Salsola.Switch
import Salsola.SwitchRuns
import Salsola.Fork
import Salsola.Interrupts
import Salsola.Idt
import Salsola.KeyboardLine
import Salsola.KeyboardInterrupts
import Salsola.Kprintf
import Salsola.KprintfLaws
import Salsola.KprintfBuffer
import Salsola.KprintfOrder
import Salsola.KprintfNumbers
import Salsola.KprintfDirectives
import Salsola.KprintfIntegers
import Salsola.KprintfCount
import Salsola.KprintfCursor
import Salsola.KprintfGrammar
