import StudentDistrib.Kernel.Arguments
import StudentDistrib.Kernel.Directory
import StudentDistrib.Machine.Split

/-!
# The first word of a command

`execute` copies the first word to an array of 32 bytes, which has no room for a
terminator behind a word of 32 characters, and measures it with the stack behind the
array.
-/

namespace StudentDistrib

open Machine

namespace CString

/-- The bytes before the terminator. -/
def chars (command : CString) : List UInt8 := Bytes.take command.len command.mem

theorem length_chars (command : CString) : command.chars.length = command.len :=
  Bytes.length_take ..

theorem getElem_chars (command : CString) {i : Nat} (h : i < command.chars.length) :
    command.chars[i] = command.mem i := by
  simp only [chars, Bytes.take, List.getElem_map, List.getElem_range]

theorem ne_zero_of_mem_chars {command : CString} {b : UInt8} (h : b ∈ command.chars) : b ≠ 0 := by
  obtain ⟨i, hi, rfl⟩ := List.mem_iff_getElem.mp h
  rw [getElem_chars]
  rw [length_chars] at hi
  exact command.nonzero i (by omega) (by omega)

/-- The first word: what comes before a space, a newline or the end. -/
def word (command : CString) : List UInt8 :=
  command.chars.takeWhile fun b => b ≠ space && b ≠ newline

theorem length_word_le (command : CString) : command.word.length ≤ command.len := by
  rw [← length_chars]
  exact (List.takeWhile_prefix _).length_le

theorem getElem_word {command : CString} {i : Nat} (h : i < command.word.length) :
    command.word[i] = command.mem i ∧ command.mem i ≠ space ∧ command.mem i ≠ newline := by
  obtain ⟨hi, hsame, hp⟩ := getElem_of_lt_takeWhile h
  rw [getElem_chars] at hsame hp
  simp only [Bool.and_eq_true, decide_eq_true_eq] at hp
  exact ⟨hsame.symm, hp⟩

/-- The word ends at a space or a newline unless it is the whole command. -/
theorem separator_of_lt {command : CString} (h : command.word.length < command.len) :
    command.mem command.word.length = space ∨ command.mem command.word.length = newline := by
  rw [← length_chars] at h
  have hstop : (command.chars[command.word.length] ≠ space
      && command.chars[command.word.length] ≠ newline) = false := not_of_length_takeWhile h
  rw [getElem_chars] at hstop
  simp only [Bool.and_eq_false_iff, decide_eq_false_iff_not, not_not] at hstop
  exact hstop

theorem word_ne_zero {command : CString} {b : UInt8} (h : b ∈ command.word) : b ≠ 0 :=
  ne_zero_of_mem_chars (List.takeWhile_subset _ h)

end CString

namespace Kernel

/-! ## The array `function` -/

section CopyWord

variable {command : CString} {stop : Int → Bool}

/-- The loops write from their index on, and no more bytes than are left. -/
theorem copyWord_of_out {n : Nat} {i j : Int} (found : Bool) (function : Bytes)
    (hj : j < i ∨ i + n ≤ j) : copyWord command stop n i found function j = function j := by
  induction n generalizing i found function with
  | zero => rfl
  | succ n ih =>
    have hne : j ≠ i := by omega
    have hrest : j < i + 1 ∨ i + 1 + n ≤ j := by omega
    rw [copyWord]
    split
    · rfl
    · split
      · split
        · rw [ih _ _ hrest, Function.update_of_ne hne]
        · rw [ih _ _ hrest, Function.update_of_ne hne]
      · rw [ih _ _ hrest, Function.update_of_ne hne]

/-- From index `i` on, before the end of the word, the loop copies the rest of the word
and writes or leaves a zero behind it. -/
theorem copyWord_word (hstop : ∀ j : Nat, j < command.word.length → stop j = false) {n i : Nat}
    {function : Bytes} (hi : i ≤ command.word.length)
    (hclear : ∀ j : Nat, i ≤ j → j < i + n → function j = 0) {j : Nat} (hij : i ≤ j)
    (hj : j < i + n) :
    (j < command.word.length →
        copyWord command stop n i false function j = command.mem j) ∧
      (j = command.word.length → copyWord command stop n i false function j = 0) := by
  induction n generalizing i function with
  | zero => omega
  | succ n ih =>
    have hnext : (i : Int) + 1 = (i + 1 : Nat) := rfl
    have hbehind : ∀ found f, copyWord command stop n (i + 1 : Nat) found f i = f i :=
      fun found f => copyWord_of_out found f (Or.inl (by omega))
    rw [copyWord, hnext]
    by_cases hword : i < command.word.length
    · -- A character of the word.
      obtain ⟨-, hspace, hnewline⟩ := CString.getElem_word hword
      have hchar : ¬ ((i : Int) < command.len ∧
          (command.mem i = space ∨ command.mem i = newline)) := by
        intro h
        exact h.2.elim hspace hnewline
      simp only [hstop i hword, hchar, if_false, Bool.false_eq_true, Bool.not_false, if_true]
      by_cases hji : j = i
      · subst hji
        refine ⟨fun _ => ?_, fun hend => absurd hend (by omega)⟩
        rw [hbehind, Function.update_self]
      · refine ih hword (fun m hm hm' => ?_) (by omega) (by omega)
        rw [Function.update_of_ne (by omega)]
        exact hclear m (by omega) (by omega)
    · -- The end of the word.
      refine ⟨fun h => absurd h (by omega), fun hend => ?_⟩
      have hji : j = i := by omega
      subst hji
      split
      · exact hclear j (by omega) (by omega)
      · simp only [Bool.not_false, if_true]
        split
        · rw [hbehind, Function.update_self]
        · rename_i hchar
          have hlast : command.mem j = 0 := by
            by_cases hlen : j < command.len
            · rw [hend] at hlen hchar
              exact absurd ⟨by omega, CString.separator_of_lt hlen⟩ hchar
            · have hle := command.length_word_le
              have heq : j = command.len := by omega
              rw [heq]
              exact command.terminated
          rw [hbehind, Function.update_self, hlast]

end CopyWord

/-- Both loops of `execute` go on to the end of the word. -/
theorem firstWord_eq {command : CString} (hlen : command.len < 2 ^ 32) (stack : Bytes) :
    ∃ stop : Int → Bool, (∀ j : Nat, j < command.word.length → stop j = false) ∧
      firstWord command stack
        = copyWord command stop filenameLen (0 : Nat) false (Bytes.zero filenameLen stack) := by
  by_cases hlast : command.mem ((command.len : Int) - 1) = newline
  · refine ⟨fun i => i ≥ u32 ((command.len : Int) - 1), fun j hj => ?_, if_pos hlast⟩
    have hword := CString.getElem_word hj
    have hle := command.length_word_le
    -- The word ends before the newline.
    have hbefore : j ≠ command.len - 1 := by
      intro heq
      have hcast : (j : Int) = (command.len : Int) - 1 := by omega
      rw [← hcast] at hlast
      exact hword.2.2 hlast
    have hbound : u32 ((command.len : Int) - 1) = (command.len : Int) - 1 :=
      u32_of_lt (by omega) (by omega)
    rw [hbound]
    exact decide_eq_false (by omega)
  · exact ⟨fun _ => false, fun _ _ => rfl, if_neg hlast⟩

theorem firstWord_apply {command : CString} (hlen : command.len < 2 ^ 32) (stack : Bytes) {j : Nat}
    (hj : j < filenameLen) :
    (j < command.word.length → firstWord command stack j = command.mem j) ∧
      (j = command.word.length → firstWord command stack j = 0) := by
  have hclear : ∀ j : Nat, 0 ≤ j → j < 0 + filenameLen → Bytes.zero filenameLen stack j = 0 :=
    fun j _ hj => Bytes.zero_of_lt stack (by omega) (by omega)
  obtain ⟨stop, hstop, hcopy⟩ := firstWord_eq hlen stack
  rw [hcopy]
  exact copyWord_word hstop (Nat.zero_le _) hclear (Nat.zero_le j) (by omega)

/-- The array holds the word, cut off at 32 bytes, in the memory that follows it. -/
theorem firstWord_spec {command : CString} (hlen : command.len < 2 ^ 32) (stack : Bytes) :
    (firstWord command stack).name filenameLen = command.word.take filenameLen ∧
      ∀ j : Int, filenameLen ≤ j → firstWord command stack j = stack j := by
  refine ⟨Bytes.name_eq ?_ ?_ ?_ fun hlt => ?_, fun j hj => ?_⟩
  · intro b hb
    exact CString.word_ne_zero (List.mem_of_mem_take hb)
  · refine List.ext_getElem (Bytes.length_take ..) fun j hj hj' => ?_
    rw [List.length_take] at hj'
    rw [List.getElem_take, (CString.getElem_word (by omega)).1]
    simp only [Bytes.take, List.getElem_map, List.getElem_range]
    exact (firstWord_apply hlen stack (by omega)).1 (by omega)
  · rw [List.length_take]
    exact Nat.min_le_left ..
  · have hwhole : (command.word.take filenameLen).length = command.word.length := by
      rw [List.length_take] at hlt ⊢
      omega
    rw [hwhole] at hlt ⊢
    exact (firstWord_apply hlen stack hlt).2 rfl
  · obtain ⟨stop, -, hcopy⟩ := firstWord_eq hlen stack
    rw [hcopy, copyWord_of_out _ _ (Or.inr (by omega))]
    exact if_neg (by omega)

/-- The array is measured with the byte of the stack behind it. -/
theorem length_firstWord {command : CString} (hlen : command.len < 2 ^ 32) (stack : Bytes) :
    filenameLen < ((firstWord command stack).name 33).length ↔
      filenameLen ≤ command.word.length ∧ stack filenameLen ≠ 0 := by
  have hsize : filenameLen = 32 := rfl
  obtain ⟨hname, hbehind⟩ := firstWord_spec hlen stack
  have hcut := congrArg List.length hname
  rw [List.length_take] at hcut
  have hle := Bytes.length_name_le 33 (firstWord command stack)
  by_cases hfills : filenameLen ≤ command.word.length
  · have hnext := Bytes.length_name_succ (n := filenameLen) (m := firstWord command stack)
      (by omega)
    rw [hbehind filenameLen (Int.le_refl _)] at hnext
    have hwhole : filenameLen < ((firstWord command stack).name 33).length ↔
        ((firstWord command stack).name (filenameLen + 1)).length = filenameLen + 1 := by
      have hnext' : filenameLen + 1 = 33 := rfl
      rw [hnext']
      omega
    rw [hwhole, hnext]
    exact ⟨fun h => ⟨hfills, h⟩, fun h => h.2⟩
  · have hshort : (firstWord command stack).name 33 = (firstWord command stack).name filenameLen :=
      Bytes.name_of_terminated (by omega) (by omega)
    rw [hshort, hname, List.length_take]
    constructor
    · intro h
      omega
    · intro h
      exact absurd h.1 hfills

/-! ## The file that is looked up -/

/-- Type and inode number of the file that `execute` finds. -/
def lookedUp (img : Image) (command : CString) (call : ExecCall) : Option (Int × Int) :=
  (img.readDentryByName (firstWord command call.stack) call.garbage).map fun dentry =>
    (dentry.filetype, dentry.inodeNum)

/-- The entry that a word names. -/
def resolve (img : Image) (w : List UInt8) : Option (Int × Int) :=
  if 1 ≤ w.length ∧ w.length ≤ filenameLen then
    (img.entryNamed w).map fun i : Nat => (img.entryFiletype i, img.entryInode i)
  else none

theorem lookedUp_eq (img : Image) {command : CString} (hlen : command.len < 2 ^ 32)
    (call : ExecCall) : lookedUp img command call =
      if filenameLen ≤ command.word.length ∧ call.stack filenameLen ≠ 0 then none
      else (img.entryNamed (command.word.take filenameLen)).map fun i : Nat =>
        (img.entryFiletype i, img.entryInode i) := by
  have hmeasured := length_firstWord hlen call.stack
  have hname := (firstWord_spec hlen call.stack).1
  unfold lookedUp
  split
  · rename_i hlong
    rw [Image.readDentryByName_of_none (Or.inl (hmeasured.mpr hlong))]
    rfl
  · rename_i hshort
    cases hfind : img.entryNamed (command.word.take filenameLen) with
    | none =>
      rw [Image.readDentryByName_of_none (Or.inr (hname ▸ hfind))]
      rfl
    | some i =>
      have hle := fun h => hshort (hmeasured.mp h)
      have hi := Image.entryNamed_lt hfind
      rw [Image.readDentryByName_of_some (Nat.not_lt.mp hle) (hname ▸ hfind),
        Image.readDentryByIndex_eq (Int.natCast_nonneg i) hi]
      rfl

/-- `execute` finds what the first word names, and refuses an empty or an overlong
word. -/
structure ResolvesWord (k : Kernel) (call : ExecCall) (command : CString) (r : Regs) : Prop where
  lookup : lookedUp k.img command call = resolve k.img command.word
  refuses : ¬ (1 ≤ command.word.length ∧ command.word.length ≤ filenameLen) →
    (k.execute call r).2 = .returns (-1)

/-- The lengths at which the array goes wrong, and what it finds there. -/
structure WordFits (img : Image) (w : List UInt8) (stack : Bytes) : Prop where
  empty : w.length = 0 → img.entryNamed [] = none
  fills : w.length = filenameLen → stack filenameLen = 0 ∨ img.entryNamed w = none
  exceeds : filenameLen < w.length →
    stack filenameLen ≠ 0 ∨ img.entryNamed (w.take filenameLen) = none

theorem lookup_iff (img : Image) {command : CString} (hlen : command.len < 2 ^ 32)
    (call : ExecCall) : lookedUp img command call = resolve img command.word ↔
      WordFits img command.word call.stack := by
  have hsize : filenameLen = 32 := rfl
  rw [lookedUp_eq img hlen]
  unfold resolve
  by_cases hempty : command.word.length = 0
  · have hnil : command.word = [] := List.eq_nil_of_length_eq_zero hempty
    rw [if_neg (by omega), if_neg (by omega), Option.map_eq_none_iff, hnil]
    constructor
    · intro h
      exact ⟨fun _ => h, fun h' => absurd h' (by decide), fun h' => absurd h' (by decide)⟩
    · intro h
      exact h.empty rfl
  · by_cases hlong : filenameLen < command.word.length
    · rw [if_neg (by omega : ¬ (1 ≤ command.word.length ∧ command.word.length ≤ filenameLen))]
      by_cases hstack : call.stack filenameLen = 0
      · rw [if_neg (fun h => h.2 hstack), Option.map_eq_none_iff]
        constructor
        · intro h
          exact ⟨fun h' => absurd h' hempty, fun h' => absurd h' (by omega), fun _ => Or.inr h⟩
        · intro h
          exact (h.exceeds hlong).resolve_left (not_not.mpr hstack)
      · rw [if_pos ⟨by omega, hstack⟩]
        exact ⟨fun _ => ⟨fun h' => absurd h' hempty, fun h' => absurd h' (by omega),
          fun _ => Or.inl hstack⟩, fun _ => rfl⟩
    · rw [if_pos (⟨by omega, by omega⟩ :
        1 ≤ command.word.length ∧ command.word.length ≤ filenameLen),
        List.take_of_length_le (by omega)]
      by_cases hfills : command.word.length = filenameLen ∧ call.stack filenameLen ≠ 0
      · rw [if_pos ⟨by omega, hfills.2⟩, eq_comm, Option.map_eq_none_iff]
        constructor
        · intro h
          exact ⟨fun h' => absurd h' hempty, fun _ => Or.inr h, fun h' => absurd h' hlong⟩
        · intro h
          exact (h.fills hfills.1).resolve_left hfills.2
      · rw [if_neg (fun h => hfills ⟨by omega, h.2⟩)]
        refine ⟨fun _ => ⟨fun h' => absurd h' hempty, fun h' => Or.inl ?_,
          fun h' => absurd h' hlong⟩, fun _ => rfl⟩
        by_contra hstack
        exact hfills ⟨h', hstack⟩

/-- Whatever the memory around the command and the array holds, the command's first
word decides what is executed, but at the lengths 0, 32 and above. -/
theorem resolvesWord_iff (k : Kernel) {call : ExecCall} {command : CString}
    (hcommand : call.command = some command) (hlen : command.len < 2 ^ 32) (r : Regs) :
    k.ResolvesWord call command r ↔ WordFits k.img command.word call.stack := by
  rw [← lookup_iff k.img hlen call]
  constructor
  · intro h
    exact h.lookup
  · intro h
    refine ⟨h, fun hout => ?_⟩
    have hnone : resolve k.img command.word = none := if_neg hout
    rw [hnone, lookedUp, Option.map_eq_none_iff] at h
    rw [execute_missing hcommand h]

theorem shellCall_command : shellCall.command = some shellCommand := rfl

theorem shellCommand_word : shellCommand.word = [0x73, 0x68, 0x65, 0x6C, 0x6C] := by decide

theorem resolvesWord_shell :
    shellKernel.ResolvesWord shellCall shellCommand { ebp := 0, esp := 0 } := by
  have hlen : shellCommand.word.length = 5 := by
    rw [shellCommand_word]
    rfl
  refine (resolvesWord_iff shellKernel shellCall_command (by decide) _).mpr ⟨?_, ?_, ?_⟩
  all_goals
    intro h
    rw [hlen] at h
    exact absurd h (by decide)

/-- A name of 32 letters. -/
def longName : List UInt8 := List.replicate 32 0x61

theorem longName_nonzero : ∀ b ∈ longName, b ≠ 0 := by
  intro b hb
  rw [List.eq_of_mem_replicate hb]
  decide

/-- The command that is that name, on a stack with other letters behind the array. -/
def longCommand : CString := CString.ofList longName longName_nonzero

def longCall : ExecCall :=
  { command := some longCommand, stack := fun _ => 0x78, garbage := shellCall.garbage }

/-- A file with a name of 32 letters is not found by its name. -/
theorem long_word_not_found :
    entry zeroRam (besideShell longName 2) = some (besideKernel longName 2) ∧
      ¬ (besideKernel longName 2).ResolvesWord longCall longCommand { ebp := 0, esp := 0 } := by
  refine ⟨entry_besideKernel (by decide) longName_nonzero (by decide) (by decide), fun h => ?_⟩
  have hword : longCommand.word = longName := by decide
  have hnamed : (besideShell longName 2).entryNamed longName = some 1 :=
    besideShell_second longName_nonzero (by decide)
  have hfits := (lookup_iff (besideKernel longName 2).img (by decide) longCall).mp h.lookup
  rw [hword] at hfits
  cases hfits.fills rfl with
  | inl hstack => exact absurd hstack (by decide)
  | inr hnone =>
    have himg : (besideKernel longName 2).img = besideShell longName 2 := rfl
    rw [himg, hnamed] at hnone
    cases hnone

end Kernel

end StudentDistrib
