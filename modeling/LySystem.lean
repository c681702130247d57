import LySystem.Mem.HeapRun
import LySystem.Mem.HeapFrame
import LySystem.Mem.HeapStale
import LySystem.Mem.PmmRun
import LySystem.Mem.Translation
import LySystem.Mem.AddressSpace
import LySystem.Mem.Exhaustion
import LySystem.Mem.Drained
import LySystem.Mem.Rights
import LySystem.Gpu.Decode
import LySystem.Machine.Numeral
import LySystem.Lib.Itoa
import LySystem.Lib.Tokens
import LySystem.Lib.Canonical
import LySystem.Gpu.Accesses
import LySystem.Gpu.Reads
import LySystem.Gpu.Depth
import LySystem.Gpu.Resync
import LySystem.Keyboard.Shift
import LySystem.Print.Cursor
import LySystem.Print.Scroll
import LySystem.Print.Conversions
import LySystem.Print.Buffer
import LySystem.Boot.Reservation
import LySystem.Boot.Blocks
import LySystem.Boot.Order
import LySystem.Minix.Marks
import LySystem.Minix.Leak
import LySystem.Minix.DataArea
import LySystem.Minix.Tree
import LySystem.Minix.Names
import LySystem.Minix.Components
import LySystem.Minix.Listing
import LySystem.Minix.Duplicate
import LySystem.Minix.Indices
import LySystem.Minix.Turns
import LySystem.Sched.Stacks
import LySystem.Sched.Sleep
import LySystem.Sched.Contexts
import LySystem.Sched.RoundRobin
import LySystem.Sched.OwnStack
import LySystem.Sched.Starts
import LySystem.Ide.Refinement
import LySystem.Print.Console
import LySystem.Time.Clock
import LySystem.Irq.Controller
import LySystem.Sched.Faults
import LySystem.Mem.EarlyTables
import LySystem.Minix.Store
import LySystem.Sched.Masking
