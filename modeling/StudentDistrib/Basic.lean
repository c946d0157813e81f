import StudentDistrib.Machine.Bytes

/-!
# Terminals, processes and the machine's constants

The three terminals and the six process slots are finite types: `currentTerminal`
and `scheduled_term` are only ever assigned one of three constants, and every pid
is a loop index below `MAX_PCB` or the parent of one.  Terminals are counted from
0 throughout, so `currentTerminal` here is the source's `currentTerminal - 1`.
-/

namespace StudentDistrib

open Machine

abbrev Term := Fin 3

/-- A process slot, below `MAX_PCB`. -/
abbrev Pid := Fin 6

-- Named, so that a literal of either type is the same term in every module.
instance numTerms_neZero : NeZero 3 := ⟨by decide⟩

instance maxPcb_neZero : NeZero 6 := ⟨by decide⟩

/-- The pid of the shell that a terminal starts with. -/
def basePid (t : Term) : Pid := t.castLE (by decide)

theorem basePid_injective : Function.Injective basePid := fun _ _ h => by
  simpa [basePid, Fin.ext_iff] using h

/-- The registers that a context switch saves. -/
structure Regs where
  ebp : Nat
  esp : Nat
  deriving DecidableEq, Repr

/-! ## Constants of the headers -/

def video : Int := 0xB8000
def fourKB : Int := 4096
def numCols : Int := 80
def numRows : Int := 25
def attrib : UInt8 := 0x0A
def bufsize : Int := 128
def filenameLen : Nat := 32
def blockSize : Int := 4096

def mb8 : Nat := 0x800000
def mb4 : Nat := 0x400000
def kb8 : Nat := 0x2000

def newline : UInt8 := 0x0A
def carriageReturn : UInt8 := 0x0D
def space : UInt8 := 0x20
def backspaceAscii : UInt8 := 0x08

/-! ## 32-bit integers

Values are unbounded integers.  Where the source computes in 32 bits and the
width can show, `u32` and `i32` reduce to the unsigned and the signed range. -/

def u32 (n : Int) : Int := n % 2 ^ 32

def i32 (n : Int) : Int := (n + 2 ^ 31) % 2 ^ 32 - 2 ^ 31

theorem u32_of_lt {n : Int} (h0 : 0 ≤ n) (h : n < 2 ^ 32) : u32 n = n := by
  unfold u32
  omega

theorem i32_of_lt {n : Int} (h0 : -2 ^ 31 ≤ n) (h : n < 2 ^ 31) : i32 n = n := by
  unfold i32
  omega

end StudentDistrib
