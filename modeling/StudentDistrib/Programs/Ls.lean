import StudentDistrib.Kernel.Directory
import StudentDistrib.Programs.Support

/-!
# ls

`ls` prints the names of the directory, one on a line.
-/

namespace StudentDistrib

open Machine

namespace Programs

/-- Each name and the end of its line. -/
def lines (names : List (List UInt8)) : List UInt8 := names.flatMap fun name => name ++ [newline]

variable {args : Bytes} {v v' : Files}

end Programs

end StudentDistrib
