import StudentDistrib.Kernel.Command

/-!
# The arguments of a command

`execute` keeps what follows the last space of the command, in a buffer of 128 bytes
that a longer text fills without a terminator.  `getargs` copies as many bytes as it is
asked for and does not look whether the string ends among them.
-/

namespace StudentDistrib

open Machine

namespace Kernel

/-! ## The argument string -/

/-- What `execute` leaves in `args`: what follows the last space, as far as it fits. -/
def argString (command : CString) : List UInt8 :=
  (afterLast space command.chars).take bufsize.toNat

theorem argString_nonzero {command : CString} {b : UInt8} (h : b ∈ argString command) : b ≠ 0 :=
  CString.ne_zero_of_mem_chars (mem_of_mem_afterLast (List.mem_of_mem_take h))

theorem length_argString_le (command : CString) : (argString command).length ≤ 128 := by
  have hsize : bufsize.toNat = 128 := rfl
  rw [argString, List.length_take]
  omega

theorem lastSpace_eq (command : CString) : lastSpace command =
    ((lastMatch (fun i : Nat => command.mem i = space) command.len).map
      fun i : Nat => (i : Int)).getD (-1) :=
  foldl_range_last (fun i : Nat => (i : Int)) (-1) command.len

/-- The scan finds no space, or it splits the command at its last one. -/
theorem lastSpace_cases (command : CString) :
    (lastSpace command = -1 ∧ space ∉ command.chars) ∨
    ∃ i : Nat, lastSpace command = i ∧ space ∉ command.chars.drop (i + 1) ∧
      command.chars = command.chars.take i ++ space :: command.chars.drop (i + 1) := by
  have hspaces := lastSpace_eq command
  cases hlast : lastMatch (fun i : Nat => command.mem i = space) command.len with
  | none =>
    refine Or.inl ⟨?_, fun hmem => ?_⟩
    · rw [hspaces, hlast]
      rfl
    · obtain ⟨i, hi, hspace⟩ := List.mem_iff_getElem.mp hmem
      rw [CString.getElem_chars] at hspace
      rw [CString.length_chars] at hi
      exact lastMatch_eq_none.mp hlast i hi hspace
  | some i =>
    obtain ⟨hi, hspace, hafter⟩ := lastMatch_eq_some.mp hlast
    have hi' : i < command.chars.length := by
      rw [CString.length_chars]
      exact hi
    refine Or.inr ⟨i, ?_, fun hmem => ?_, ?_⟩
    · rw [hspaces, hlast]
      rfl
    · obtain ⟨j, hj, hmem⟩ := List.mem_iff_getElem.mp hmem
      rw [List.length_drop, CString.length_chars] at hj
      rw [List.getElem_drop, CString.getElem_chars] at hmem
      exact hafter (i + 1 + j) (by omega) (by omega) hmem
    · rw [← hspace, ← CString.getElem_chars command hi', ← List.drop_eq_getElem_cons hi',
        List.take_append_drop]

/-- The copy behind a space, as far as the buffer goes. -/
theorem parseArgs_of_lastSpace {command : CString} {i : Nat} (hfound : lastSpace command = i) :
    parseArgs command = Bytes.ofList ((command.chars.drop (i + 1)).take 128) := by
  have hsize : bufsize = 128 := rfl
  funext j
  by_cases hj : 0 ≤ j ∧ j < 128 ∧ (i : Int) + 1 + j < command.len
  · obtain ⟨n, rfl⟩ := Int.eq_ofNat_of_zero_le hj.1
    have hn : n < ((command.chars.drop (i + 1)).take 128).length := by
      rw [List.length_take, List.length_drop, CString.length_chars]
      omega
    rw [Bytes.ofList_of_lt hn, List.getElem_take, List.getElem_drop, CString.getElem_chars]
    unfold parseArgs
    dsimp only
    rw [hfound, if_pos ⟨by omega, by omega, by omega, hj.2.2⟩]
    exact congrArg command.mem (by omega)
  · unfold parseArgs
    dsimp only
    rw [hfound, if_neg (fun h => hj ⟨h.2.1, by omega, h.2.2.2⟩)]
    by_cases h0 : 0 ≤ j
    · refine (Bytes.ofList_of_le ?_).symm
      rw [List.length_take, List.length_drop, CString.length_chars]
      omega
    · exact (if_neg h0).symm

theorem parseArgs_eq (command : CString) :
    parseArgs command = Bytes.ofList (argString command) := by
  rcases lastSpace_cases command with ⟨hnone, hnot⟩ | ⟨i, hfound, hnot, hsplit⟩
  · funext j
    simp [parseArgs, hnone, argString, afterLast_of_notMem hnot, Bytes.ofList]
  · have hargs : argString command = (command.chars.drop (i + 1)).take 128 := by
      rw [argString, hsplit, afterLast_append hnot, ← hsplit]
      rfl
    rw [hargs, parseArgs_of_lastSpace hfound]

theorem startProgram_args (p : Pid) (inode : Int) (r : Regs) (k : Kernel) :
    (k.startProgram p inode r).1.tab.args = k.tab.args := by
  unfold startProgram
  dsimp only
  split
  · rfl
  · split
    · rfl
    · rfl

/-- Every call with a command leaves its argument string in the buffer. -/
theorem execute_argString {call : ExecCall} {command : CString}
    (hcommand : call.command = some command) (r : Regs) (k : Kernel) :
    (k.execute call r).1.tab.args = Bytes.ofList (argString command) := by
  rw [← parseArgs_eq]
  rcases execute_tab (k := k) hcommand r with htab | ⟨dentry, p, -, -, -, hexec⟩
  · rw [htab]
    rfl
  · rw [hexec, startProgram_args]
    rfl

/-- What follows the first space, without a newline at the end, cut off at 127
characters. -/
def intendedArgs (command : CString) : List UInt8 :=
  (dropTrailing newline (afterFirst space command.chars)).take 127

/-- The buffer holds the arguments as a string. -/
def DeliversArgs (k : Kernel) (call : ExecCall) (command : CString) (r : Regs) : Prop :=
  (k.execute call r).1.tab.args.Holds (intendedArgs command)

/-- The commands whose arguments survive: none at all, one word of at most 127
characters without a newline, or several where the last one is 127 characters long and
the text after the first space begins with the same 127 characters. -/
inductive KeepsArgs : List UInt8 → Prop
  | none {l : List UInt8} (h : space ∉ l) : KeepsArgs l
  | one {word rest : List UInt8} (hword : space ∉ word) (hrest : space ∉ rest)
      (hlen : rest.length ≤ 127) (hend : rest.getLast? ≠ some newline) :
      KeepsArgs (word ++ space :: rest)
  | repeated {word mid rest : List UInt8} (hword : space ∉ word) (hrest : space ∉ rest)
      (hlen : rest.length = 127) (hsame : rest <+: mid) :
      KeepsArgs (word ++ space :: (mid ++ space :: rest))

theorem holds_ofList_iff {a s : List UInt8} (ha : ∀ b ∈ a, b ≠ 0) (hlen : a.length ≤ 128)
    (hs : s.length ≤ 128) : (Bytes.ofList a).Holds s ↔ a = s := by
  constructor
  · intro h
    have hsame := (h.name_eq 128).symm.trans ((Bytes.holds_ofList ha).name_eq 128)
    rw [List.take_of_length_le hs, List.take_of_length_le hlen] at hsame
    exact hsame.symm
  · intro h
    rw [← h]
    exact Bytes.holds_ofList ha

/-- Several spaces: the last word is among the first 127 characters or it is not. -/
theorem take_several_iff {mid last : List UInt8} (hlast : space ∉ last) :
    last.take 128 = (dropTrailing newline (mid ++ space :: last)).take 127 ↔
      last.length = 127 ∧ last <+: mid := by
  have hspace := prefix_dropTrailing (b := space) (c := newline) (by decide) mid last
  generalize dropTrailing newline (mid ++ space :: last) = text at hspace ⊢
  have hmid : 127 ≤ mid.length → text.take 127 = mid.take 127 := by
    intro hlen
    obtain ⟨tail, rfl⟩ := (List.prefix_append mid [space]).trans hspace
    exact List.take_append_of_le_length hlen
  constructor
  · intro h
    have hlong : 127 ≤ mid.length := by
      by_contra hshort
      -- The space before the last word is among the first 127 characters.
      have hlen : (mid ++ [space]).length ≤ 127 := by
        rw [List.length_append, List.length_singleton]
        omega
      have hin : mid ++ [space] <+: text.take 127 := List.prefix_take_iff.mpr ⟨hspace, hlen⟩
      rw [← h] at hin
      exact hlast (List.mem_of_mem_take (hin.subset (by simp)))
    rw [hmid hlong] at h
    have hcount := congrArg List.length h
    rw [List.length_take, List.length_take] at hcount
    have hlen : last.length = 127 := by omega
    rw [List.take_of_length_le (by omega)] at h
    exact ⟨hlen, h ▸ List.take_prefix 127 mid⟩
  · intro h
    obtain ⟨hlen, hsame⟩ := h
    have htake := List.prefix_iff_eq_take.mp hsame
    have hle := hsame.length_le
    rw [hlen] at htake
    rw [hmid (by omega), ← htake, List.take_of_length_le (by omega)]

theorem take_one_iff (rest : List UInt8) :
    rest.take 128 = (dropTrailing newline rest).take 127 ↔
      rest.length ≤ 127 ∧ rest.getLast? ≠ some newline := by
  constructor
  · intro h
    have hcount := congrArg List.length h
    rw [List.length_take, List.length_take] at hcount
    by_cases hend : rest.getLast? = some newline
    · have hlt := length_dropTrailing_lt hend
      omega
    · exact ⟨by omega, hend⟩
  · intro h
    rw [dropTrailing_of_ne h.2, List.take_of_length_le (by omega), List.take_of_length_le h.1]

theorem afterLast_several {word mid last : List UInt8} (hlast : space ∉ last) :
    afterLast space (word ++ space :: (mid ++ space :: last)) = last := by
  have hsplit : word ++ space :: (mid ++ space :: last)
      = (word ++ space :: mid) ++ space :: last := by simp
  rw [hsplit, afterLast_append hlast]

theorem keepsArgs_iff (l : List UInt8) :
    (afterLast space l).take 128 = (dropTrailing newline (afterFirst space l)).take 127 ↔
      KeepsArgs l := by
  constructor
  · intro h
    by_cases hl : space ∈ l
    · obtain ⟨word, rest, rfl, hword⟩ := List.eq_append_cons_of_mem hl
      rw [afterFirst_append hword] at h
      by_cases hrest : space ∈ rest
      · obtain ⟨mid, last, rfl, hlast⟩ := exists_last hrest
        rw [afterLast_several hlast, take_several_iff hlast] at h
        exact .repeated hword hlast h.1 h.2
      · rw [afterLast_append hrest, take_one_iff] at h
        exact .one hword hrest h.1 h.2
    · exact .none hl
  · intro h
    cases h with
    | none h =>
      rw [afterLast_of_notMem h, afterFirst_of_notMem h]
      rfl
    | one hword hrest hlen hend =>
      rw [afterLast_append hrest, afterFirst_append hword]
      exact (take_one_iff _).mpr ⟨hlen, hend⟩
    | repeated hword hrest hlen hsame =>
      rw [afterLast_several hrest, afterFirst_append hword]
      exact (take_several_iff hrest).mpr ⟨hlen, hsame⟩

theorem deliversArgs_iff (k : Kernel) {call : ExecCall} {command : CString}
    (hcommand : call.command = some command) (r : Regs) :
    k.DeliversArgs call command r ↔ KeepsArgs command.chars := by
  have hsize : bufsize.toNat = 128 := rfl
  have hle : (intendedArgs command).length ≤ 127 := by
    rw [intendedArgs, List.length_take]
    omega
  rw [DeliversArgs, execute_argString hcommand,
    holds_ofList_iff (fun _ => argString_nonzero) (length_argString_le command) (by omega),
    ← keepsArgs_iff, argString, hsize]
  exact Iff.rfl

theorem missingCall_command : missingCall.command = some missingCommand := rfl

theorem missingCommand_chars : missingCommand.chars = [0x78] ++ space :: [0x61] := by decide

theorem deliversArgs_missing :
    shellKernel.DeliversArgs missingCall missingCommand { ebp := 0, esp := 0 } := by
  refine (deliversArgs_iff shellKernel missingCall_command _).mpr ?_
  rw [missingCommand_chars]
  exact .one (by decide) (by decide) (by decide) (by decide)

/-- The command `cat a b`. -/
def twoArgsCommand : CString :=
  CString.ofList [0x63, 0x61, 0x74, 0x20, 0x61, 0x20, 0x62] (by simp)

/-- The arguments of `cat a b` are `b`. -/
theorem first_argument_lost :
    ¬ shellKernel.DeliversArgs { shellCall with command := some twoArgsCommand } twoArgsCommand
      { ebp := 0, esp := 0 } := by
  intro h
  have hgiven : argString twoArgsCommand = [0x62] := by decide
  have hintended : intendedArgs twoArgsCommand = [0x61, 0x20, 0x62] := by decide
  rw [DeliversArgs, execute_argString rfl, hgiven, hintended,
    holds_ofList_iff (by simp) (by decide) (by decide)] at h
  exact absurd h (by decide)

/-! ## `getargs` -/

/-- The whole string is delivered, or the call fails. -/
structure DeliversWhole (args : Bytes) (s : List UInt8) (nbytes : Int) : Prop where
  fits : s ≠ [] ∧ s.length + 1 ≤ nbytes → (getargs args nbytes).1 = 0 ∧
    s ++ [0] <+: (getargs args nbytes).2 ∧ (getargs args nbytes).2.length ≤ nbytes
  fails : ¬ (s ≠ [] ∧ s.length + 1 ≤ nbytes) → getargs args nbytes = (-1, [])

theorem getargs_empty (nbytes : Int) : getargs (Bytes.ofList []) nbytes = (-1, []) := if_pos rfl

theorem getargs_nonempty {s : List UInt8} (hs : ∀ b ∈ s, b ≠ 0) (hne : s ≠ []) (nbytes : Int) :
    getargs (Bytes.ofList s) nbytes = (0, (List.range nbytes.toNat).map fun (i : Nat) =>
      if i < 128 then Bytes.ofList s i else 0) := by
  have hpos := List.length_pos_of_ne_nil hne
  have hfirst : Bytes.ofList s (0 : Nat) ≠ 0 := by
    rw [Bytes.ofList_of_lt hpos]
    exact hs _ (List.getElem_mem hpos)
  exact if_neg hfirst

/-- The copy has the string's bytes and then a zero, also where the string fills its
buffer. -/
theorem prefix_getargs {s : List UInt8} (hlen : s.length ≤ 128) {n : Nat} (hn : s.length + 1 ≤ n) :
    s ++ [0] <+: (List.range n).map fun (i : Nat) =>
      if i < 128 then Bytes.ofList s i else 0 := by
  rw [List.prefix_iff_eq_take]
  refine List.ext_getElem ?_ fun i hi hi' => ?_
  · simp only [List.length_append, List.length_singleton, List.length_take, List.length_map,
      List.length_range]
    omega
  · rw [List.getElem_take, List.getElem_map, List.getElem_range]
    by_cases hin : i < s.length
    · rw [List.getElem_append_left hin, if_pos (by omega), Bytes.ofList_of_lt hin]
    · rw [List.getElem_append_right (by omega), List.getElem_singleton]
      split
      · exact (Bytes.ofList_of_le (by omega)).symm
      · rfl

theorem deliversWhole_iff (k : Kernel) {call : ExecCall} {command : CString}
    (hcommand : call.command = some command) (r : Regs) (nbytes : Int) :
    DeliversWhole (k.execute call r).1.tab.args (argString command) nbytes ↔
      argString command = [] ∨ (argString command).length + 1 ≤ nbytes := by
  have hnonzero : ∀ b ∈ argString command, b ≠ 0 := fun _ => argString_nonzero
  have hlen := length_argString_le command
  rw [execute_argString hcommand]
  generalize argString command = s at hnonzero hlen ⊢
  by_cases hne : s = []
  · subst hne
    exact ⟨fun _ => Or.inl rfl, fun _ => ⟨fun h => absurd rfl h.1, fun _ => getargs_empty nbytes⟩⟩
  · have hcall := getargs_nonempty hnonzero hne nbytes
    constructor
    · intro h
      by_contra hshort
      have hfails := h.fails fun hfits => hshort (Or.inr hfits.2)
      rw [hcall] at hfails
      have hvalue : (0 : Int) = -1 := congrArg Prod.fst hfails
      exact absurd hvalue (by decide)
    · intro h
      have hfits := h.resolve_left hne
      refine ⟨fun _ => ?_, fun hnot => absurd ⟨hne, hfits⟩ hnot⟩
      rw [hcall]
      refine ⟨rfl, prefix_getargs hlen (by omega), ?_⟩
      rw [List.length_map, List.length_range]
      omega

theorem deliversWhole_missing : DeliversWhole
    (shellKernel.execute missingCall { ebp := 0, esp := 0 }).1.tab.args [0x61] 2 := by
  have hargs : argString missingCommand = [0x61] := by decide
  have h := (deliversWhole_iff shellKernel missingCall_command { ebp := 0, esp := 0 } 2).mpr
    (Or.inr (by rw [hargs]; decide))
  rw [hargs] at h
  exact h

/-- A request of one byte is given the argument `a` without its terminator. -/
theorem argument_unterminated : ¬ DeliversWhole
    (shellKernel.execute missingCall { ebp := 0, esp := 0 }).1.tab.args
      (argString missingCommand) 1 := by
  intro h
  have hargs : argString missingCommand = [0x61] := by decide
  rw [execute_argString missingCall_command, hargs] at h
  have hfails := h.fails (by decide)
  rw [getargs_nonempty (by simp) (by decide)] at hfails
  have hvalue : (0 : Int) = -1 := congrArg Prod.fst hfails
  exact absurd hvalue (by decide)

end Kernel

end StudentDistrib
