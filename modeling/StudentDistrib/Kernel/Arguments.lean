import StudentDistrib.Kernel.BaseShells

/-!
# Arguments

Every call of `execute` with a command rewrites the one buffer `args`, also a call that
is refused and the calls with which the timer starts the base shells.  A history
variable keeps the argument string of the last call and, for each process, that of the
call that created it.  The buffer is the former, so `getargs` returns the latter exactly
where the two are equal.
-/

namespace StudentDistrib

open Machine

namespace Kernel

variable {k k' : Kernel}

/-! ## Argument strings -/

/-- The contents that `execute` gives to `args`: no byte after the first zero. -/
structure ArgString (a : Bytes) : Prop where
  outside : ∀ j, ¬ (0 ≤ j ∧ j < bufsize) → a j = 0
  empty : a 0 = 0 → ∀ j, a j = 0

theorem lastSpace_ge (command : CString) : -1 ≤ lastSpace command := by
  have hfold : ∀ (l : List Nat) (found : Int), -1 ≤ found → -1 ≤ l.foldl
      (fun found (i : Nat) => if command.mem i = space then (i : Int) else found) found := by
    intro l
    induction l with
    | nil => exact fun _ h => h
    | cons i l ih =>
      intro found h
      rw [List.foldl_cons]
      refine ih _ ?_
      split
      · exact Int.le_trans (by decide) (Int.natCast_nonneg i)
      · exact h
  exact hfold _ _ (Int.le_refl _)

theorem parseArgs_argString (command : CString) : ArgString (parseArgs command) where
  outside := by
    intro j hj
    unfold parseArgs
    dsimp only
    rw [if_neg fun h => hj ⟨h.2.1, h.2.2.1⟩]
  empty := by
    intro hzero j
    unfold parseArgs at hzero ⊢
    dsimp only at hzero ⊢
    by_cases hj : lastSpace command ≠ -1 ∧ 0 ≤ j ∧ j < bufsize ∧
        lastSpace command + 1 + j < command.len
    · -- A string with a byte at `j` has one at 0, and its bytes are not zero.
      have hstart := lastSpace_ge command
      rw [if_pos ⟨hj.1, Int.le_refl 0, by decide, by omega⟩] at hzero
      exact absurd hzero (command.nonzero _ (by omega) (by omega))
    · rw [if_neg hj]

theorem getargs_eq_iff {a b : Bytes} (ha : ArgString a) (hb : ArgString b) :
    (∀ nbytes, getargs a nbytes = getargs b nbytes) ↔ a = b := by
  constructor
  · intro h
    have hall := h 128
    unfold getargs at hall
    by_cases ha0 : a 0 = 0
    · by_cases hb0 : b 0 = 0
      · funext j
        rw [ha.empty ha0 j, hb.empty hb0 j]
      · rw [if_pos ha0, if_neg hb0] at hall
        have hvalue : (-1 : Int) = 0 := congrArg Prod.fst hall
        exact absurd hvalue (by decide)
    · by_cases hb0 : b 0 = 0
      · rw [if_neg ha0, if_pos hb0] at hall
        have hvalue : (0 : Int) = -1 := congrArg Prod.fst hall
        exact absurd hvalue (by decide)
      · rw [if_neg ha0, if_neg hb0] at hall
        have hbytes := congrArg Prod.snd hall
        dsimp only at hbytes
        rw [List.map_inj_left] at hbytes
        funext j
        by_cases hj : 0 ≤ j ∧ j < bufsize
        · have hsize : bufsize = 128 := rfl
          obtain ⟨n, rfl⟩ := Int.eq_ofNat_of_zero_le hj.1
          have hn : n < 128 := by omega
          have hbyte := hbytes n (List.mem_range.mpr hn)
          rw [if_pos hn, if_pos hn] at hbyte
          exact hbyte
        · rw [ha.outside j hj, hb.outside j hj]
  · rintro rfl nbytes
    rfl

/-! ## The history -/

/-- The argument string of the last call of `execute`, and those of the calls that
created the processes. -/
structure ArgHistory where
  last : Bytes
  made : Pid → Bytes

/-- The history after a call with the outcome `o`. -/
def ArgHistory.record (call : ExecCall) (o : Outcome) (h : ArgHistory) : ArgHistory where
  last := call.argsAfter h.last
  made :=
    match o with
    | .starts p => Function.update h.made p (call.argsAfter h.last)
    | _ => h.made

/-- The history of a step.  The timer calls `execute` while a terminal waits for its
shell. -/
def noteArgs (k : Kernel) (e : Event) (_ : Kernel) (h : ArgHistory) : ArgHistory :=
  match e with
  | .execute call r => h.record call (k.execute call r).2
  | .tick r =>
    if (k.preempted r).WaitsForShell then
      h.record shellCall ((k.preempted r).startShell (k.preempted r).scheduledTerm r).2
    else h
  | _ => h

/-- The history after the kernel's entry, which creates the first shell. -/
def ArgHistory.start : ArgHistory where
  last := parseArgs shellCommand
  made := fun _ => parseArgs shellCommand

/-- The history is one of argument strings, and the buffer holds the last. -/
structure Recorded (k : Kernel) (h : ArgHistory) : Prop where
  args : k.core.args = h.last
  last : ArgString h.last
  made : ∀ p, ArgString (h.made p)

theorem argsAfter_argString {call : ExecCall} {a : Bytes} (ha : ArgString a) :
    ArgString (call.argsAfter a) := by
  unfold ExecCall.argsAfter
  split
  · exact ha
  · exact parseArgs_argString _

theorem Recorded.record {h : ArgHistory} (hk : Recorded k h) {call : ExecCall} {o : Outcome}
    (hargs : k'.core.args = call.argsAfter k.core.args) : Recorded k' (h.record call o) where
  args := by rw [hargs, hk.args]; rfl
  last := argsAfter_argString hk.last
  made := by
    intro p
    unfold ArgHistory.record
    cases o with
    | starts q =>
      show ArgString (Function.update h.made q (call.argsAfter h.last) p)
      by_cases hp : p = q
      · rw [hp, Function.update_self]
        exact argsAfter_argString hk.last
      · rw [Function.update_of_ne hp]
        exact hk.made p
    | returns v => exact hk.made p
    | faults => exact hk.made p

theorem halt_args (k : Kernel) : k.halt.core.args = k.core.args := by
  rw [halt_core]
  split <;> rfl

/-- A call of `execute` leaves its argument string in the buffer. -/
theorem execute_args {call : ExecCall} {r : Regs} (h : k.step (.execute call r) = some k') :
    k'.core.args = call.argsAfter k.core.args := by
  rcases execute_step h with ⟨p, image, -, -, hk⟩ | hrefused | ⟨p, image, -, hk⟩
  · rw [hk, launched_core]
    rfl
  · rw [hrefused.core]
    rfl
  · rw [hk, halt_args, faulted_core]
    rfl

theorem Recorded.of_args {h : ArgHistory} (hk : Recorded k h) (hargs : k'.core.args = k.core.args) :
    Recorded k' h := ⟨hargs.trans hk.args, hk.last, hk.made⟩

theorem Recorded.step {h : ArgHistory} (hk : Recorded k h) {e : Event}
    (hstep : k.step e = some k') :
    Recorded k' (noteArgs k e k' h) := by
  by_cases hchooses : e.Chooses
  · cases e with
    | tick r =>
      have htick : k.pitHandler r = some k' := hstep
      have hready : ∀ t, ((k.preempted r).shellReady t).core.args = k.core.args := by
        intro t
        rw [shellReady_core, preempted_core]
        rfl
      unfold noteArgs
      dsimp only
      by_cases hwaits : (k.preempted r).WaitsForShell
      · rw [pitHandler_shell hwaits] at htick
        rw [if_pos hwaits]
        refine hk.record ?_
        rw [execute_args (step_of_unlessFaults htick), hready]
      · rw [pitHandler_resume hwaits, Option.some.injEq] at htick
        rw [if_neg hwaits]
        refine hk.of_args ?_
        rw [← htick, resume_core, preempted_core]
        rfl
    | execute call r => exact hk.record (execute_args hstep)
    | halt status =>
      have hhalt : k.halt = k' := Option.some.inj hstep
      exact hk.of_args (hhalt ▸ halt_args k)
    | _ => exact absurd hchooses id
  · have hnote : noteArgs k e k' h = h := by
      cases e with
      | tick r => exact absurd trivial hchooses
      | execute call r => exact absurd trivial hchooses
      | _ => rfl
    rw [hnote]
    exact hk.of_args (congrArg Core.args (aside_step hchooses hstep).core)

theorem entry_recorded {ram : Ram} {img : Image} (hentry : entry ram img = some k) :
    Recorded k .start := by
  obtain ⟨image, himage⟩ := entry_hasShell hentry
  have hk := Option.some.inj ((entry_eq ram himage).symm.trans hentry)
  have hshell := parseArgs_argString shellCommand
  refine ⟨?_, hshell, fun _ => hshell⟩
  rw [← hk, launched_core]
  rfl

/-- The runs of the machine, watched for the argument strings. -/
def Argued (k₀ : Kernel) (s : Kernel × ArgHistory) : Prop :=
  Reaches (observe step noteArgs) (fun _ _ => True) (k₀, .start) s

theorem reaches_iff_argued {k₀ : Kernel} :
    Reaches step (fun _ _ => True) k₀ k ↔ ∃ h, Argued k₀ (k, h) :=
  reaches_iff_watched ArgHistory.start

theorem Argued.recorded {ram : Ram} {img : Image} {k₀ : Kernel} {h : ArgHistory}
    (hentry : entry ram img = some k₀) (hrun : Argued k₀ (k, h)) : Recorded k h := by
  refine hrun.invariant (I := fun s => Recorded s.1 s.2) ?_ (entry_recorded hentry)
  rintro s e s' hs - hstep
  obtain ⟨hk, hsaved⟩ := observe_eq_some.mp hstep
  rw [hsaved]
  exact hs.step hk

/-- `getargs` returns what it returns for the argument string `a`. -/
def OwnArgs (k : Kernel) (a : Bytes) : Prop :=
  ∀ nbytes, getargs k.tab.args nbytes = getargs a nbytes

/-- A call of `getargs` by process `p` returns the arguments with which `p` was created
exactly where the last call of `execute`, whoever made it, had the same ones. -/
theorem ownArgs_iff {ram : Ram} {img : Image} {k₀ : Kernel} (hentry : entry ram img = some k₀)
    {h : ArgHistory} (hrun : Argued k₀ (k, h)) (p : Pid) :
    k.OwnArgs (h.made p) ↔ h.last = h.made p := by
  have hrecorded := hrun.recorded hentry
  have hargs : k.tab.args = h.last := hrecorded.args
  unfold OwnArgs
  rw [hargs]
  exact getargs_eq_iff hrecorded.last (hrecorded.made p)

/-- The command `shell a`. -/
def givenCommand : CString :=
  CString.ofList [0x73, 0x68, 0x65, 0x6C, 0x6C, 0x20, 0x61] (by simp)

def givenCall : ExecCall := { shellCall with command := some givenCommand }

theorem givenCall_starting (himg : k.img = shellImage) {p : Pid}
    (hfree : newestPid k.tab.pcbArr = some p) : k.Starting givenCall p shellBytes := by
  obtain ⟨dentry, hfound, -, hinode⟩ := shellImage_found
    (firstWord givenCommand shellCall.stack) (by decide) (by decide) shellCall.garbage
  refine ⟨⟨givenCommand, dentry, rfl, himg ▸ hfound, ?_, ?_⟩, hfree,
    shellBytes_fits.trans (Nat.le_add_right _ _)⟩
  · rw [himg, hinode]
    exact shellImage_loads.1
  · rw [himg, hinode]
    exact shellImage_loads.2

/-- After the boot the first shell starts a shell with the argument `a`. -/
theorem ownArgs_shell : ∃ k h, Argued shellKernel (k, h) ∧ h.made 3 = parseArgs givenCommand ∧
    parseArgs givenCommand 0 = 0x61 ∧ k.OwnArgs (h.made 3) := by
  obtain ⟨k, hrun, hshells, -⟩ := exists_baseShells_shell (fun _ _ => True)
    fun _ _ _ => trivial
  obtain ⟨h, hargued⟩ := reaches_iff_argued.mp hrun
  have himg : k.img = shellImage := (reaches_img hrun).trans shellKernel_img
  obtain ⟨image, hshell⟩ := hshells.starting
  have hexec := execute_starts (givenCall_starting himg hshell.free) (baseFrame 0)
  have hstep : k.step (.execute givenCall (baseFrame 0))
      = some (k.launched givenCall 3 shellBytes (baseFrame 0)) := step_starts hexec
  generalize k.launched givenCall 3 shellBytes (baseFrame 0) = k' at hexec hstep
  have hnote : h.record givenCall (.starts 3)
      = noteArgs k (.execute givenCall (baseFrame 0)) k' h := by
    show _ = h.record givenCall (k.execute givenCall (baseFrame 0)).2
    rw [hexec]
  have hargued' : Argued shellKernel (k', h.record givenCall (.starts 3)) :=
    hargued.step trivial (observe_eq_some.mpr ⟨hstep, hnote⟩)
  have hmade : (h.record givenCall (.starts 3)).made 3 = parseArgs givenCommand := by
    show Function.update h.made 3 (givenCall.argsAfter h.last) 3 = _
    rw [Function.update_self]
    rfl
  refine ⟨k', _, hargued', hmade, by decide, ?_⟩
  exact (ownArgs_iff entry_shellImage hargued' 3).mpr hmade.symm

/-- The command `x a`. -/
def missingCommand : CString := CString.ofList [0x78, 0x20, 0x61] (by simp)

def missingCall : ExecCall := { shellCall with command := some missingCommand }

theorem missingCommand_found :
    shellImage.readDentryByName (firstWord missingCommand shellCall.stack) shellCall.garbage
      = none := by
  have hentry : shellImage.findEntry (firstWord missingCommand shellCall.stack) = none := by decide
  unfold Image.readDentryByName
  rw [hentry]
  split <;> rfl

/-- After a call of `execute` that finds no program, the first shell is given the
arguments of that call. -/
theorem args_overwritten : ∃ k h, Argued shellKernel (k, h) ∧ k.tab.running = some 0 ∧
    ¬ k.OwnArgs (h.made 0) := by
  have hrunning : shellKernel.core.running = some 0 := (entry_booting entry_shellImage).1.running
  have himg : shellKernel.img = shellImage := rfl
  generalize shellKernel = k at hrunning himg ⊢
  have hcommand : missingCall.command = some missingCommand := rfl
  have hexec := execute_missing (k := k) hcommand (himg ▸ missingCommand_found)
    { ebp := 0, esp := 0 }
  have hstep : k.step (.execute missingCall { ebp := 0, esp := 0 })
      = some (k.setArgs (parseArgs missingCommand)) := by
    rw [step_execute, hexec]
    rfl
  have hnote : ArgHistory.start.record missingCall (.returns (-1))
      = noteArgs k (.execute missingCall { ebp := 0, esp := 0 })
        (k.setArgs (parseArgs missingCommand)) .start := by
    show _ = ArgHistory.start.record missingCall (k.execute missingCall { ebp := 0, esp := 0 }).2
    rw [hexec]
  have hrun : Argued k (k.setArgs (parseArgs missingCommand),
      ArgHistory.start.record missingCall (.returns (-1))) :=
    Reaches.step .refl trivial (observe_eq_some.mpr ⟨hstep, hnote⟩)
  refine ⟨_, _, hrun, hrunning, fun hown => ?_⟩
  have hsame : parseArgs missingCommand = parseArgs shellCommand :=
    (getargs_eq_iff (parseArgs_argString _) (parseArgs_argString _)).mp hown
  have hgiven : parseArgs missingCommand 0 = 0x61 := by decide
  have hnone : parseArgs shellCommand 0 = 0 := by decide
  rw [hsame, hnone] at hgiven
  exact absurd hgiven (by decide)

end Kernel

end StudentDistrib
