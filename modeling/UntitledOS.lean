import UntitledOS.Types
import UntitledOS.Lib.Run
import UntitledOS.Lib.Chain
import UntitledOS.Lib.Extent
import UntitledOS.Lib.Bitmap
import UntitledOS.Lib.Packed
import UntitledOS.Lib.Buffer
import UntitledOS.Lib.Growth
import UntitledOS.Lib.Blocks
import UntitledOS.Lib.Text
import UntitledOS.Lib.Layout
import UntitledOS.Lib.Move
import UntitledOS.Lib.Numeral
import UntitledOS.Lib.Fields
import UntitledOS.Lib.Prog
import UntitledOS.Lib.Ata
import UntitledOS.Lib.I386
import UntitledOS.Lib.Pic
import UntitledOS.Memory.Pmm
import UntitledOS.Memory.PmmRuns
import UntitledOS.Memory.PmmBoot
import UntitledOS.Memory.PmmBlocks
import UntitledOS.Memory.PmmAccounts
import UntitledOS.Memory.PmmMapEnd
import UntitledOS.Memory.Vmm
import UntitledOS.Memory.VmmUses
import UntitledOS.Memory.VmmRuns
import UntitledOS.Memory.VmmTables
import UntitledOS.Memory.VmmWhole
import UntitledOS.Memory.VmmTranslate
import UntitledOS.Memory.VmmBytes
import UntitledOS.Memory.Heap
import UntitledOS.Memory.HeapLists
import UntitledOS.Memory.HeapFrames
import UntitledOS.Memory.HeapLedger
import UntitledOS.Memory.HeapRuns
import UntitledOS.Memory.HeapLost
import UntitledOS.Memory.HeapSlabs
import UntitledOS.Memory.HeapRoom
import UntitledOS.Memory.HeapFailures
import UntitledOS.Memory.Kmalloc
import UntitledOS.Console.VirtualConsole
import UntitledOS.Console.Screen
import UntitledOS.Console.Window
import UntitledOS.Console.History
import UntitledOS.Console.CommandLine
import UntitledOS.Console.Boot
import UntitledOS.Console.Terminal
import UntitledOS.Y.String
import UntitledOS.Y.StringSpec
import UntitledOS.Y.StringPairs
import UntitledOS.Y.StringCalls
import UntitledOS.Y.StringRuns
import UntitledOS.Y.StringSplit
import UntitledOS.Y.Vector
import UntitledOS.Y.VectorRuns
import UntitledOS.Filesystem.Fat12
import UntitledOS.Filesystem.Fat12Chain
import UntitledOS.Filesystem.Fat12Entries
import UntitledOS.Filesystem.Fat12Search
import UntitledOS.Filesystem.Fat12Free
import UntitledOS.Filesystem.Fat12Directory
import UntitledOS.Filesystem.Fat12Write
import UntitledOS.Filesystem.Fat12Names
import UntitledOS.Filesystem.Fat12List
import UntitledOS.Filesystem.Fat12Geometry
import UntitledOS.Filesystem.Fat12Volume
import UntitledOS.Filesystem.Fat12RoundTrip
import UntitledOS.Filesystem.Fat12Runs
import UntitledOS.Filesystem.Fat12Read
import UntitledOS.Filesystem.Fat12Lookup
import UntitledOS.Filesystem.Fat12Subdir
import UntitledOS.Filesystem.Fat12Encoding
import UntitledOS.Filesystem.Fat12Located
import UntitledOS.Filesystem.Fat12Residue
import UntitledOS.Filesystem.Fat12Whole
import UntitledOS.Filesystem.Fat12Store
import UntitledOS.Filesystem.Vfs
import UntitledOS.Filesystem.VfsTable
import UntitledOS.Filesystem.VfsOpen
import UntitledOS.Filesystem.Ide
import UntitledOS.Filesystem.IdeRuns
import UntitledOS.Filesystem.IdeIdentify
import UntitledOS.Filesystem.Fat12Io
import UntitledOS.Filesystem.Fat12Drive
import UntitledOS.Console.Words
import UntitledOS.Libc.Memmove
import UntitledOS.Libc.Itoa
import UntitledOS.Libc.Printf
import UntitledOS.Interrupts.Stubs
import UntitledOS.Interrupts.Idt
import UntitledOS.Interrupts.Interleaving
import UntitledOS.Interrupts.Irq
