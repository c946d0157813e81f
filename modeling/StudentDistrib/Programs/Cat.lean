import StudentDistrib.Programs.Support

/-!
# cat

`cat` prints the file that its arguments name, and of a directory the names in a row.
Whatever happens between two of its calls, it prints that and nothing else.
-/

namespace StudentDistrib

open Machine

namespace Programs

variable {args : Bytes} {v v' : Files}

section Alone

variable {img : Image} {w : List UInt8}

end Alone

end Programs

end StudentDistrib
