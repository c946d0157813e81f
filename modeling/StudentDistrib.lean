import StudentDistrib.Machine.Run
import StudentDistrib.Machine.ParentChain
import StudentDistrib.Console.RoundTrip
import StudentDistrib.Console.VirtualConsoles
import StudentDistrib.Kernel.FileReads
import StudentDistrib.Kernel.Clock
import StudentDistrib.Console.Script
import StudentDistrib.Console.EchoSection
import StudentDistrib.Console.Cursor
import StudentDistrib.Kernel.BaseShells
import StudentDistrib.Kernel.Preemption
import StudentDistrib.Kernel.UserPointers
import StudentDistrib.Kernel.Tables
import StudentDistrib.Kernel.Bracket
import StudentDistrib.Kernel.Switch
import StudentDistrib.Kernel.Arguments
import StudentDistrib.Console.Delivery
import StudentDistrib.Kernel.Delivery
import StudentDistrib.Files.Names
import StudentDistrib.Kernel.Directory
import StudentDistrib.Kernel.Command
import StudentDistrib.Kernel.CommandArgs
import StudentDistrib.Kernel.Refusals
import StudentDistrib.Kernel.Executables
import StudentDistrib.Kernel.Closing
import StudentDistrib.Console.Unmapped
import StudentDistrib.Console.Modifiers
import StudentDistrib.Console.Background
import StudentDistrib.Console.Erasing
import StudentDistrib.Console.Teletype
import StudentDistrib.Kernel.Rates
import StudentDistrib.Machine.Numeral
import StudentDistrib.Machine.Store
import StudentDistrib.Lib.Itoa
import StudentDistrib.Lib.Printf
import StudentDistrib.Lib.Format
import StudentDistrib.Lib.Copy
import StudentDistrib.Machine.BitField
import StudentDistrib.Machine.PageWalk
import StudentDistrib.Kernel.Paging
import StudentDistrib.Kernel.AddressSpace
import StudentDistrib.Kernel.Linkage
import StudentDistrib.Kernel.Interrupts
import StudentDistrib.Kernel.Isolation
import StudentDistrib.Programs.Support
import StudentDistrib.Programs.Cat
import StudentDistrib.Programs.Ls
import StudentDistrib.Kernel.Controllers
import StudentDistrib.Kernel.Gates
