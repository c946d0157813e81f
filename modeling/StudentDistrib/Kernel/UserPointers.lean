import StudentDistrib.Console.ReadLine
import StudentDistrib.Kernel.BaseShells
import StudentDistrib.Kernel.FileReads

/-!
# Pointers from user programs

`read` and `getargs` refuse a null pointer and store through any other one.  Only
`vidmap` looks where its pointer points, and its test admits the first address past
the user page.  What a call stores depends on its size, the descriptor and the file,
so the pointers that are harmless can be told before the call.
-/

namespace StudentDistrib

open Machine

/-! ## The number of bytes read -/

namespace Image

/-- The number of bytes that `read_data` stores. -/
def dataCount (img : Image) (inode offset n : Int) : Nat :=
  if u32 inode ≥ u32 img.numInodes then 0
  else if u32 offset > u32 (img.inodeLength (u32 inode)) then 0
  else min (u32 n).toNat (blockEnd (u32 (img.inodeLength (u32 inode))) - u32 offset).toNat

theorem length_readData {img : Image} {inode offset n : Int} {bytes : List UInt8}
    (h : img.readData inode offset n = some bytes) :
    bytes.length = img.dataCount inode offset n := by
  unfold dataCount
  by_cases hinode : u32 inode ≥ u32 img.numInodes
  · rw [(readData_eq_none_iff img inode offset n).mpr hinode] at h
    cases h
  by_cases hoffset : u32 offset > u32 (img.inodeLength (u32 inode))
  · unfold readData at h
    rw [if_neg hinode, if_pos hoffset, Option.some.injEq] at h
    rw [if_neg hinode, if_pos hoffset, ← h]
    rfl
  · rw [readData_blocks img (Int.not_le.mp hinode) (Int.not_lt.mp hoffset), Option.some.injEq] at h
    rw [if_neg hinode, if_neg hoffset, ← h, length_fileBytes]

theorem dataCount_of_none {img : Image} {inode offset n : Int}
    (h : img.readData inode offset n = none) : img.dataCount inode offset n = 0 :=
  if_pos ((readData_eq_none_iff img inode offset n).mp h)

end Image

namespace Kernel

/-- The number of bytes that `read_file` stores from the file of `d`. -/
def fileCount (img : Image) (d : FileDescriptor) (nbytes : Int) : Nat :=
  img.dataCount d.inodeCheck d.filePosition
    (if i32 (d.filePosition + nbytes) ≥ img.inodeLength d.inodeCheck then
      i32 (img.inodeLength d.inodeCheck - d.filePosition) else nbytes)

/-- The number of bytes that `read_directory` stores for the entry at which `d` is. -/
def nameCount (img : Image) (d : FileDescriptor) : Nat :=
  if d.filePosition < 0 ∨ d.filePosition ≥ img.numDirectoryEntries then 0
  else Image.strlen (img.entryFilename d.filePosition) filenameLen

/-- The number of bytes that `terminal_read` stores, one more than the size that it
works with. -/
def lineCount (nbytes : Int) : Nat :=
  if Console.clampRead nbytes ≤ 0 then 0 else (Console.clampRead nbytes).toNat + 1

/-- The number of bytes that a driver stores for the descriptor `d`. -/
def driverCount (img : Image) (d : FileDescriptor) (nbytes : Int) : Option Driver → Nat
  | some .terminal => lineCount nbytes
  | some .directory => nameCount img d
  | some .file => fileCount img d nbytes
  | _ => 0

/-- The number of bytes that `read` stores through a pointer that is not `NULL`. -/
def readCount (k : Kernel) (fd nbytes : Int) : Nat :=
  if fd = 1 ∨ fd < 0 ∨ fd > 7 ∨ (k.callerPcb.fdArray fd).flags ≠ full then 0
  else driverCount k.img (k.callerPcb.fdArray fd) nbytes (k.callerPcb.fdArray fd).jumpTable

/-! ## Calls with a pointer -/

/-- The addresses `[128MB, 132MB)` of the user page. -/
def InUserPage (a : UInt32) : Prop := 0x8000000 ≤ a.toNat ∧ a.toNat < 0x8400000

inductive PointerCall
  | read (fd : Int) (buf : UInt32) (nbytes : Int)
  | getargs (buf : UInt32) (nbytes : Int)
  | vidmap (screenStart : UInt32)

/-- A call made in the state `k` returns a value after stores to the given addresses.
A read of the terminal returns in a later state in which its process runs again. -/
inductive Completes (k : Kernel) : PointerCall → Int → List UInt32 → Prop
  | readNull (fd nbytes : Int) : Completes k (.read fd 0 nbytes) (-1) []
  | read {fd nbytes v : Int} {buf : UInt32} {stored : List UInt8} (hbuf : buf ≠ 0)
      (hread : (k.read fd nbytes).2 = .value v stored) :
      Completes k (.read fd buf nbytes) v (consecutive buf stored.length)
  | readLine {fd nbytes : Int} {buf : UInt32} {k' : Kernel} {c : Console} {stored : List UInt8}
      {v : Nat} (hbuf : buf ≠ 0) (hread : (k.read fd nbytes).2 = .waits)
      (hdriver : (k.callerPcb.fdArray fd).jumpTable = some .terminal)
      (hrun : Reaches step AfterShells (k.read fd nbytes).1 k')
      (hsched : k'.scheduledTerm = k.scheduledTerm)
      (hfinish : k'.con.terminalReadFinish nbytes = some (c, stored, v)) :
      Completes k (.read fd buf nbytes) v (consecutive buf stored.length)
  | readClock {fd nbytes : Int} {buf : UInt32} (hbuf : buf ≠ 0)
      (hread : (k.read fd nbytes).2 = .waits)
      (hdriver : (k.callerPcb.fdArray fd).jumpTable = some .rtc) :
      Completes k (.read fd buf nbytes) 0 []
  | getargsNull (nbytes : Int) : Completes k (.getargs 0 nbytes) (-1) []
  | getargs {buf : UInt32} (nbytes : Int) (hbuf : buf ≠ 0) :
      Completes k (.getargs buf nbytes) (Kernel.getargs k.tab.args nbytes).1
        (consecutive buf (Kernel.getargs k.tab.args nbytes).2.length)
  | vidmap (screenStart : UInt32) :
      Completes k (.vidmap screenStart) (k.vidmap screenStart.toNat).2
        (if (k.vidmap screenStart.toNat).2 = 0 then consecutive screenStart 4 else [])

/-- The addresses at which a call is to store if nothing stops it. -/
def targets (k : Kernel) : PointerCall → List UInt32
  | .read fd buf nbytes => consecutive buf (k.readCount fd nbytes)
  | .getargs buf nbytes => consecutive buf (if k.tab.args 0 = 0 then 0 else nbytes.toNat)
  | .vidmap screenStart => consecutive screenStart 4

/-- Every store of a call is in the user page, and a call that is to store elsewhere
fails and stores nothing. -/
def Confined (k : Kernel) (call : PointerCall) : Prop :=
  ∀ v addrs, k.Completes call v addrs →
    (∀ a ∈ addrs, InUserPage a) ∧
      ((∃ a ∈ k.targets call, ¬ InUserPage a) → v = -1 ∧ addrs = [])

/-- The bytes from `p` on lie in the user page. -/
def RangeInPage (p : UInt32) (n : Nat) : Prop :=
  n = 0 ∨ 0x8000000 ≤ p.toNat ∧ p.toNat + n ≤ 0x8400000

/-- The pointer is null, or what is stored through it lies in the user page.  The
pointers that `vidmap` should refuse and does not are those at the page's upper edge. -/
def Fits (k : Kernel) : PointerCall → Prop
  | .read fd buf nbytes => buf = 0 ∨ RangeInPage buf (k.readCount fd nbytes)
  | .getargs buf nbytes => buf = 0 ∨ k.tab.args 0 = 0 ∨ RangeInPage buf nbytes.toNat
  | .vidmap screenStart => ¬ (0x83FFFFC < screenStart.toNat ∧ screenStart.toNat ≤ 0x8400000)

theorem forall_inUserPage (p : UInt32) (n : Nat) :
    (∀ a ∈ consecutive p n, InUserPage a) ↔ RangeInPage p n :=
  forall_mem_consecutive (by decide) p n


/-! ## The wait for a line -/

theorem markCleared_enterFlag (b : Keyboard) : b.markCleared.enterFlag = b.enterFlag := by
  unfold Keyboard.markCleared
  split <;> rfl

theorem enter_enterFlag (t : Term) (b : Keyboard) :
    (b.enter t).enterFlag = Function.update b.enterFlag t true := by
  unfold Keyboard.enter
  show (b.commit t).markCleared.enterFlag = _
  rw [markCleared_enterFlag]
  rfl

/-- Alt with the function key of a terminal and then Enter set the terminal's enter
flag. -/
theorem enterFlag_of_keys {t : Term} {c c₁ c₂ c₃ : Console} (h₁ : c.keyboardHandler altPush = c₁)
    (h₂ : c₁.keyboardHandler (fPush t) = c₂) (h₃ : c₂.keyboardHandler enterPress = c₃) :
    c₃.vid.scheduledTerm = c.vid.scheduledTerm ∧ c₃.kb.enterFlag t = true := by
  have hterms₂ := Console.terms_of_keys h₁ h₂
  have hterms₃ : c₃.terms = c₂.terms := h₃ ▸ Console.keyboardHandler_terms rfl
  have hdisplay : c₂.vid.currentTerminal = t := congrArg Console.Terms.currentTerminal hterms₂
  have hpress : c₂.kb.press enterPress t = c₂.kb.enter t := rfl
  constructor
  · exact (congrArg Console.Terms.scheduledTerm hterms₃).trans
      (congrArg Console.Terms.scheduledTerm hterms₂)
  · rw [← h₃, Console.keyboardHandler_kb, hdisplay, hpress, enter_enterFlag, Function.update_self]

/-- A read of the terminal can always go on. -/
theorem exists_ready (k : Kernel) : ∃ k', Reaches step AfterShells k k' ∧
    k'.scheduledTerm = k.scheduledTerm ∧ k'.con.ReadReady := by
  have hkey : ∀ k scan, AfterShells k (.key scan) :=
    fun k scan => (keepsTables_key k scan).afterShells
  obtain ⟨c₁, c₂, h₁, h₂, hrun, -⟩ := exists_displayed hkey k.scheduledTerm k
  obtain ⟨c₃, h₃⟩ : ∃ c₃, c₂.keyboardHandler enterPress = c₃ := ⟨_, rfl⟩
  obtain ⟨hsched, henter⟩ := enterFlag_of_keys h₁ h₂ h₃
  refine ⟨{ k with con := c₃ }, hrun.step (hkey _ enterPress) (step_key h₃), hsched, ?_⟩
  show c₃.kb.enterFlag c₃.vid.scheduledTerm = true
  rw [hsched]
  exact henter

/-! ## Reads -/

theorem callerPcb_sti (k : Kernel) : k.sti.setCurrPcb.callerPcb = k.callerPcb := rfl

theorem readDirectory_stored {k : Kernel} {fd v : Int} {stored : List UInt8}
    (hflags : (k.callerPcb.fdArray fd).flags = full)
    (h : (k.readDirectory fd).2 = .value v stored) :
    stored.length = nameCount k.img (k.callerPcb.fdArray fd) := by
  unfold readDirectory at h
  dsimp only at h
  rw [if_pos hflags] at h
  unfold nameCount
  split at h
  · rename_i hpos
    obtain ⟨-, rfl⟩ := Returned.value.inj h
    rw [if_pos hpos]
    rfl
  · rename_i hpos
    obtain ⟨-, rfl⟩ := Returned.value.inj h
    rw [if_neg hpos, Bytes.length_take]

theorem readFile_stored {k : Kernel} {fd nbytes v : Int} {stored : List UInt8}
    (hflags : (k.callerPcb.fdArray fd).flags = full)
    (h : (k.readFile fd nbytes).2 = .value v stored) :
    stored.length = fileCount k.img (k.callerPcb.fdArray fd) nbytes := by
  unfold readFile at h
  dsimp only at h
  rw [if_pos hflags] at h
  unfold fileCount
  split at h
  · rename_i hnone
    obtain ⟨-, rfl⟩ := Returned.value.inj h
    rw [Image.dataCount_of_none hnone]
    rfl
  · rename_i bytes hbytes
    obtain ⟨-, rfl⟩ := Returned.value.inj h
    exact Image.length_readData hbytes

theorem readDirectory_returns (fd : Int) (k : Kernel) : (k.readDirectory fd).2 ≠ .waits := by
  unfold readDirectory
  dsimp only
  split
  · split <;> exact Returned.noConfusion
  · exact Returned.noConfusion

theorem readFile_returns (fd nbytes : Int) (k : Kernel) : (k.readFile fd nbytes).2 ≠ .waits := by
  unfold readFile
  dsimp only
  split
  · split <;> exact Returned.noConfusion
  · exact Returned.noConfusion

theorem lineCount_of_waits {k : Kernel} {nbytes : Int} (h : (k.readTerminal nbytes).2 = .waits) :
    lineCount nbytes = (Console.clampRead nbytes).toNat + 1 := by
  unfold readTerminal Console.terminalReadBegin at h
  unfold lineCount
  by_cases hclamp : Console.clampRead nbytes ≤ 0
  · rw [if_pos hclamp] at h
    cases h
  · rw [if_neg hclamp]

theorem lineCount_of_value {k : Kernel} {nbytes v : Int} {stored : List UInt8}
    (h : (k.readTerminal nbytes).2 = .value v stored) : stored.length = lineCount nbytes := by
  unfold readTerminal Console.terminalReadBegin at h
  unfold lineCount
  by_cases hclamp : Console.clampRead nbytes ≤ 0
  · rw [if_pos hclamp] at h
    obtain ⟨-, rfl⟩ := Returned.value.inj h
    rw [if_pos hclamp]
    rfl
  · rw [if_neg hclamp] at h
    cases h

/-- The read routine of a driver. -/
def driverRead (fd nbytes : Int) (k : Kernel) : Option Driver → Kernel × Returned
  | some .terminal => k.readTerminal nbytes
  | some .rtc => k.rtcRead
  | some .directory => k.readDirectory fd
  | some .file => k.readFile fd nbytes
  | none => (k, .waits)

/-- A read is refused, or is one of the driver of a descriptor in use. -/
theorem read_cases (fd nbytes : Int) (k : Kernel) :
    (k.readCount fd nbytes = 0 ∧ (k.read fd nbytes).2 = .value (-1) []) ∨
      ((k.callerPcb.fdArray fd).flags = full ∧
        k.readCount fd nbytes = driverCount k.img (k.callerPcb.fdArray fd) nbytes
          (k.callerPcb.fdArray fd).jumpTable ∧
        k.read fd nbytes
          = k.sti.setCurrPcb.driverRead fd nbytes (k.callerPcb.fdArray fd).jumpTable) := by
  by_cases hbad : fd = 1 ∨ fd < 0 ∨ fd > 7 ∨ (k.callerPcb.fdArray fd).flags ≠ full
  · refine Or.inl ⟨if_pos hbad, ?_⟩
    unfold read
    by_cases hone : fd = 1
    · rw [if_pos hone]
    by_cases hrange : fd < 0 ∨ fd > 7
    · rw [if_neg hone, if_pos hrange]
    have hflags : (k.sti.setCurrPcb.callerPcb.fdArray fd).flags ≠ full := by
      rw [callerPcb_sti]
      rcases hbad with h | h | h | h
      · exact absurd h hone
      · exact absurd (Or.inl h) hrange
      · exact absurd (Or.inr h) hrange
      · exact h
    rw [if_neg hone, if_neg hrange]
    dsimp only
    rw [if_neg hflags]
  · have hflags : (k.callerPcb.fdArray fd).flags = full := by
      by_contra h
      exact hbad (Or.inr (Or.inr (Or.inr h)))
    refine Or.inr ⟨hflags, if_neg hbad, ?_⟩
    unfold read
    rw [if_neg fun h => hbad (Or.inl h), if_neg fun h => hbad (Or.inr (h.imp id Or.inl))]
    dsimp only
    rw [callerPcb_sti, if_pos hflags]
    unfold driverRead
    cases (k.callerPcb.fdArray fd).jumpTable with
    | none => rfl
    | some driver => cases driver <;> rfl

/-- A read that returns at once has stored its count. -/
theorem read_stored {k : Kernel} {fd nbytes v : Int} {stored : List UInt8}
    (h : (k.read fd nbytes).2 = .value v stored) : stored.length = k.readCount fd nbytes := by
  rcases read_cases fd nbytes k with ⟨hcount, hret⟩ | ⟨hflags, hcount, hread⟩
  · rw [hret] at h
    obtain ⟨-, rfl⟩ := Returned.value.inj h
    rw [hcount]
    rfl
  · rw [hread] at h
    rw [hcount]
    cases hdriver : (k.callerPcb.fdArray fd).jumpTable with
    | none =>
      rw [hdriver] at h
      cases h
    | some driver =>
      rw [hdriver] at h
      cases driver with
      | terminal => exact lineCount_of_value h
      | rtc => cases h
      | directory => exact readDirectory_stored (k := k.sti.setCurrPcb) hflags h
      | file => exact readFile_stored (k := k.sti.setCurrPcb) hflags h

/-- A read that waits for a line stores its count when it goes on. -/
theorem readLine_stored {k k' : Kernel} {fd nbytes : Int} {c : Console} {stored : List UInt8}
    {v : Nat} (hread : (k.read fd nbytes).2 = .waits)
    (hdriver : (k.callerPcb.fdArray fd).jumpTable = some .terminal)
    (hfinish : k'.con.terminalReadFinish nbytes = some (c, stored, v)) :
    stored.length = k.readCount fd nbytes := by
  rcases read_cases fd nbytes k with ⟨-, hret⟩ | ⟨-, hcount, hsame⟩
  · rw [hret] at hread
    cases hread
  · rw [hsame, hdriver] at hread
    rw [hcount, hdriver]
    show stored.length = lineCount nbytes
    rw [lineCount_of_waits hread]
    unfold Console.terminalReadFinish at hfinish
    split at hfinish
    · have hlength := congrArg (fun r => r.map fun r => r.2.1.length) hfinish
      dsimp only [Option.map_some] at hlength
      rw [Bytes.length_take, Option.some.injEq] at hlength
      exact hlength.symm
    · cases hfinish

/-- A read that waits with something to store is one of the terminal. -/
theorem terminal_of_waits {k : Kernel} {fd nbytes : Int} (hread : (k.read fd nbytes).2 = .waits)
    (hcount : k.readCount fd nbytes ≠ 0) :
    (k.callerPcb.fdArray fd).jumpTable = some .terminal := by
  rcases read_cases fd nbytes k with ⟨hzero, -⟩ | ⟨-, hdriverCount, hsame⟩
  · exact absurd hzero hcount
  · rw [hsame] at hread
    rw [hdriverCount] at hcount
    cases hdriver : (k.callerPcb.fdArray fd).jumpTable with
    | none =>
      rw [hdriver] at hcount
      exact absurd rfl hcount
    | some driver =>
      rw [hdriver] at hread hcount
      cases driver with
      | terminal => rfl
      | rtc => exact absurd rfl hcount
      | directory => exact absurd hread (readDirectory_returns fd k.sti.setCurrPcb)
      | file => exact absurd hread (readFile_returns fd nbytes k.sti.setCurrPcb)

/-- A read with something to store completes, if need be after an Enter. -/
theorem exists_completes {k : Kernel} {fd nbytes : Int} {buf : UInt32} (hbuf : buf ≠ 0)
    (hcount : k.readCount fd nbytes ≠ 0) :
    ∃ v, k.Completes (.read fd buf nbytes) v (consecutive buf (k.readCount fd nbytes)) := by
  cases hret : (k.read fd nbytes).2 with
  | value v stored =>
    have hdone := Completes.read (k := k) hbuf hret
    rw [read_stored hret] at hdone
    exact ⟨v, hdone⟩
  | waits =>
    have hdriver := terminal_of_waits hret hcount
    obtain ⟨k', hrun, hsched, hready⟩ := exists_ready (k.read fd nbytes).1
    have hfinish := (Console.terminalReadFinish_isSome nbytes k'.con).mpr hready
    obtain ⟨⟨c, stored, v⟩, hfinish⟩ := Option.isSome_iff_exists.mp hfinish
    have hdone := Completes.readLine hbuf hret hdriver hrun
      (hsched.trans (aside_read fd nbytes k).scheduledTerm) hfinish
    rw [readLine_stored hret hdriver hfinish] at hdone
    exact ⟨v, hdone⟩

/-! ## The pointers that are harmless -/

theorem getargs_stored (args : Bytes) (nbytes : Int) :
    (getargs args nbytes).2.length = if args 0 = 0 then 0 else nbytes.toNat := by
  unfold getargs
  split
  · rfl
  · show (List.map _ (List.range nbytes.toNat)).length = _
    rw [List.length_map, List.length_range]

theorem vidmap_value (k : Kernel) (screenStart : UInt32) :
    (k.vidmap screenStart.toNat).2
      = if 0x8000000 ≤ screenStart.toNat ∧ screenStart.toNat ≤ 0x8400000 then 0 else -1 := by
  have hmb4 : ((mb4 : Nat) : Int) = 0x400000 := rfl
  unfold vidmap
  rw [hmb4]
  by_cases hpage : 0x8000000 ≤ screenStart.toNat ∧ screenStart.toNat ≤ 0x8400000
  · rw [if_pos hpage, if_neg (by omega), if_neg (by omega)]
  · rw [if_neg hpage]
    split
    · rfl
    · rw [if_pos (by omega)]

/-- The stores of `read` and `getargs` are all their targets. -/
theorem Completes.mem_targets {k : Kernel} {call : PointerCall} {v : Int} {addrs : List UInt32}
    (h : k.Completes call v addrs) {a : UInt32} (ha : a ∈ addrs) : a ∈ k.targets call := by
  cases h with
  | readNull => cases ha
  | read _ hread =>
    rw [read_stored hread] at ha
    exact ha
  | readLine _ hread hdriver _ _ hfinish =>
    rw [readLine_stored hread hdriver hfinish] at ha
    exact ha
  | readClock => cases ha
  | getargsNull => cases ha
  | getargs =>
    rw [getargs_stored] at ha
    exact ha
  | vidmap =>
    split at ha
    · exact ha
    · cases ha

theorem confined_of_targets {k : Kernel} {call : PointerCall}
    (hin : ∀ a ∈ k.targets call, InUserPage a) : k.Confined call := by
  intro v addrs hdone
  refine ⟨fun a ha => hin a (hdone.mem_targets ha), ?_⟩
  rintro ⟨a, ha, hout⟩
  exact absurd (hin a ha) hout

theorem confined_of_refused {k : Kernel} {call : PointerCall}
    (h : ∀ v addrs, k.Completes call v addrs → v = -1 ∧ addrs = []) : k.Confined call := by
  intro v addrs hdone
  obtain ⟨rfl, rfl⟩ := h v addrs hdone
  exact ⟨fun a ha => absurd ha List.not_mem_nil, fun _ => ⟨rfl, rfl⟩⟩

theorem confined_read_iff (k : Kernel) (fd nbytes : Int) (buf : UInt32) :
    k.Confined (.read fd buf nbytes) ↔ k.Fits (.read fd buf nbytes) := by
  constructor
  · intro h
    by_cases hbuf : buf = 0
    · exact Or.inl hbuf
    by_cases hcount : k.readCount fd nbytes = 0
    · exact Or.inr (Or.inl hcount)
    obtain ⟨v, hdone⟩ := exists_completes hbuf hcount
    exact Or.inr ((forall_inUserPage buf _).mp (h v _ hdone).1)
  · rintro (rfl | hrange)
    · refine confined_of_refused fun v addrs hdone => ?_
      cases hdone with
      | readNull => exact ⟨rfl, rfl⟩
      | read hbuf => exact absurd rfl hbuf
      | readLine hbuf => exact absurd rfl hbuf
      | readClock hbuf => exact absurd rfl hbuf
    · exact confined_of_targets ((forall_inUserPage buf _).mpr hrange)

theorem confined_getargs_iff (k : Kernel) (buf : UInt32) (nbytes : Int) :
    k.Confined (.getargs buf nbytes) ↔ k.Fits (.getargs buf nbytes) := by
  constructor
  · intro h
    by_cases hbuf : buf = 0
    · exact Or.inl hbuf
    by_cases hargs : k.tab.args 0 = 0
    · exact Or.inr (Or.inl hargs)
    have hdone := Completes.getargs (k := k) nbytes hbuf
    rw [getargs_stored, if_neg hargs] at hdone
    exact Or.inr (Or.inr ((forall_inUserPage buf _).mp (h _ _ hdone).1))
  · rintro (rfl | hargs | hrange)
    · refine confined_of_refused fun v addrs hdone => ?_
      cases hdone with
      | getargsNull => exact ⟨rfl, rfl⟩
      | getargs _ hbuf => exact absurd rfl hbuf
    · refine confined_of_targets fun a ha => ?_
      have hmem : a ∈ consecutive buf (if k.tab.args 0 = 0 then 0 else nbytes.toNat) := ha
      rw [if_pos hargs] at hmem
      cases hmem
    · refine confined_of_targets fun a ha => ?_
      have hmem : a ∈ consecutive buf (if k.tab.args 0 = 0 then 0 else nbytes.toNat) := ha
      split at hmem
      · cases hmem
      · exact (forall_inUserPage buf _).mpr hrange a hmem

theorem confined_vidmap_iff (k : Kernel) (screenStart : UInt32) :
    k.Confined (.vidmap screenStart) ↔ k.Fits (.vidmap screenStart) := by
  have hvalue := vidmap_value k screenStart
  constructor
  · rintro h ⟨hlow, hhigh⟩
    have hdone := Completes.vidmap (k := k) screenStart
    rw [hvalue, if_pos ⟨by omega, hhigh⟩, if_pos rfl] at hdone
    rcases (forall_inUserPage screenStart 4).mp (h _ _ hdone).1 with hzero | ⟨-, hend⟩
    · exact absurd hzero (by decide)
    · omega
  · intro hfits
    by_cases hpage : 0x8000000 ≤ screenStart.toNat ∧ screenStart.toNat ≤ 0x8400000
    · have hrange : RangeInPage screenStart 4 := by
        refine Or.inr ⟨hpage.1, ?_⟩
        by_contra hover
        exact hfits ⟨by omega, hpage.2⟩
      exact confined_of_targets ((forall_inUserPage screenStart 4).mpr hrange)
    · rw [if_neg hpage] at hvalue
      refine confined_of_refused fun v addrs hdone => ?_
      cases hdone with
      | vidmap =>
        refine ⟨hvalue, if_neg ?_⟩
        rw [hvalue]
        decide

/-- The stores of `read` and `getargs` are confined exactly where the pointer is null or
the bytes stored fit the user page, those of `vidmap` everywhere but at the page's upper
edge. -/
theorem confined_iff (k : Kernel) (call : PointerCall) : k.Confined call ↔ k.Fits call := by
  cases call with
  | read fd buf nbytes => exact confined_read_iff k fd nbytes buf
  | getargs buf nbytes => exact confined_getargs_iff k buf nbytes
  | vidmap screenStart => exact confined_vidmap_iff k screenStart

theorem readCount_openedKernel : openedKernel.readCount 2 40 = 40 := by
  have hopen := openedKernel_fileOpen
  have himg := openedKernel_img
  generalize openedKernel = k at hopen himg ⊢
  have hwf : k.img.WellFormed := himg ▸ shellImage_wellFormed
  have hread := congrArg Prod.snd ((read_eq_readFile hopen (by decide) 40).trans
    (readFile_within (k := k.sti.setCurrPcb) hwf hopen.sti (by decide) (by decide)))
  have hstored := read_stored hread
  rw [Image.length_fileBytes] at hstored
  rw [← hstored]
  show (min 40 (k.img.inodeLength 0 - 0)).toNat = 40
  rw [himg, shellImage_length]
  rfl

/-- The first shell reads its file into video memory, and has `vidmap` store past the
end of the user page. -/
theorem stores_outside_page :
    ¬ openedKernel.Confined (.read 2 0xB8000 40) ∧ ¬ shellKernel.Confined (.vidmap 0x8400000) := by
  constructor
  · rw [confined_read_iff]
    rintro (hnull | hrange)
    · exact absurd hnull (by decide)
    · rw [readCount_openedKernel] at hrange
      revert hrange
      unfold RangeInPage
      decide
  · rw [confined_vidmap_iff]
    intro hfits
    exact hfits (by decide)

end Kernel

end StudentDistrib
