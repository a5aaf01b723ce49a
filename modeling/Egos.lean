import Egos.Hoare
import Egos.Timed
import Egos.PointerForest
import Egos.FixedDigits
import Egos.Treedisk
import Egos.TreediskFiles
import Egos.TreediskStop
import Egos.TreediskStack
import Egos.TreediskSpace
import Egos.Mkfs
import Egos.MkfsSpace
import Egos.Sd
import Egos.Timer
import Egos.Delivery
import Egos.Runs
import Egos.DeadReceiver
import Egos.Scheduling
import Egos.Programs
import Egos.Serving
import Egos.Servers
import Egos.Shell
import Egos.AtomicCalls
import Egos.Flow
import Egos.Progress
import Egos.Traps
import Egos.WriteBack
import Egos.Mmu
import Egos.Spaces
import Egos.PagingAgree
import Egos.SwapArea
import Egos.Loader
import Egos.Contexts
import Egos.Machine
import Egos.Resume
import Egos.Riscv
import Egos.TrapCode
import Egos.Frames
import Egos.PageTables
import Egos.CommandLine
import Egos.Directory
import Egos.Ls
import Egos.Workdir
import Egos.Tty
import Egos.Screen
import Egos.Terminal
import Egos.Commands
import Egos.TreediskFreeList
import Egos.Elf
import Egos.Boot
import Egos.Session
import Egos.Malformed
import Egos.Arguments
