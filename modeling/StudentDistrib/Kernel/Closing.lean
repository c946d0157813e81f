import Mathlib.Data.List.Nodup
import StudentDistrib.Kernel.BaseShells
import StudentDistrib.Kernel.Descriptors

/-!
# The descriptors that `halt` closes

The loop of `halt` ends at the first descriptor that is not open, and a base shell is
started again before `halt` comes to the loop.
-/

namespace StudentDistrib

open Machine

namespace Kernel

/-! ## The loop -/

theorem mem_closeLoop {f : Int → Int} {n : Nat} {i fd : Int} : fd ∈ closeLoop f n i ↔
    i ≤ fd ∧ fd < i + n ∧ ∀ j, i ≤ j → j ≤ fd → f (j - 2) ≠ 0 := by
  induction n generalizing i with
  | zero =>
    simp only [closeLoop, List.not_mem_nil, false_iff]
    omega
  | succ n ih =>
    by_cases hi : f (i - 2) ≠ 0
    · rw [closeLoop, if_pos hi, List.mem_cons, ih]
      constructor
      · intro h
        rcases h with heq | ⟨hlow, hhigh, hopen⟩
        · subst heq
          refine ⟨Int.le_refl fd, by omega, fun j hj hj' => ?_⟩
          have hsame : j = fd := by omega
          rw [hsame]
          exact hi
        · refine ⟨by omega, by omega, fun j hj hj' => ?_⟩
          by_cases hfirst : j = i
          · rw [hfirst]
            exact hi
          · exact hopen j (by omega) hj'
      · intro h
        obtain ⟨hlow, hhigh, hopen⟩ := h
        by_cases heq : fd = i
        · exact Or.inl heq
        · exact Or.inr ⟨by omega, by omega, fun j hj hj' => hopen j (by omega) hj'⟩
    · rw [closeLoop, if_neg hi]
      simp only [List.not_mem_nil, false_iff]
      intro h
      exact hi (h.2.2 i (Int.le_refl i) h.1)

theorem nodup_closeLoop (f : Int → Int) (n : Nat) (i : Int) : (closeLoop f n i).Nodup := by
  induction n generalizing i with
  | zero => exact List.nodup_nil
  | succ n ih =>
    by_cases hi : f (i - 2) ≠ 0
    · rw [closeLoop, if_pos hi, List.nodup_cons]
      refine ⟨fun hmem => ?_, ih (i + 1)⟩
      have hlow := (mem_closeLoop.mp hmem).1
      omega
    · rw [closeLoop, if_neg hi]
      exact List.nodup_nil

/-- The loop visits the descriptors below the first that is closed. -/
theorem mem_haltCloses {pcb : PCB} (h : pcb.Consistent) {fd : Int} (h2 : 2 ≤ fd) :
    fd ∈ haltCloses pcb ↔ fd ≤ 7 ∧ ∀ j, 2 ≤ j → j ≤ fd → pcb.table j ≠ none := by
  have hopen : ∀ j, 2 ≤ j → j ≤ 7 → (pcb.openIndexes (j - 2) ≠ 0 ↔ pcb.table j ≠ none) := by
    intro j hj hj'
    have hfd : j - 2 + 2 = j := by omega
    have hindex := h.table_eq_none_iff (i := j - 2) (by omega) (by omega)
    rw [hfd] at hindex
    exact not_congr hindex.symm
  have hstandard : fd ≠ 0 ∧ fd ≠ 1 := by omega
  rw [haltCloses, List.mem_cons, List.mem_cons, or_iff_right hstandard.1,
    or_iff_right hstandard.2, mem_closeLoop]
  constructor
  · intro hloop
    obtain ⟨-, h8, hall⟩ := hloop
    exact ⟨by omega, fun j hj hj' => (hopen j hj (by omega)).mp (hall j hj hj')⟩
  · intro hprefix
    obtain ⟨h7, hall⟩ := hprefix
    exact ⟨h2, by omega, fun j hj hj' => (hopen j hj (by omega)).mpr (hall j hj hj')⟩

theorem nodup_haltCloses (pcb : PCB) : (haltCloses pcb).Nodup := by
  have hlow : ∀ fd ∈ closeLoop pcb.openIndexes 6 2, 2 ≤ fd := fun fd hmem =>
    (mem_closeLoop.mp hmem).1
  rw [haltCloses, List.nodup_cons, List.nodup_cons, List.mem_cons]
  refine ⟨fun h => ?_, fun h => ?_, nodup_closeLoop _ _ _⟩
  · rcases h with hone | hmem
    · exact absurd hone (by decide)
    · exact absurd (hlow 0 hmem) (by decide)
  · exact absurd (hlow 1 h) (by decide)

/-! ## The calls -/

/-- The descriptors whose close routine a call of `halt` calls. -/
def haltCalls (k : Kernel) : List Int := if isBase k.currPid then [] else haltCloses k.callerPcb

/-- What the calls do is all that `halt` does to the console behind its first statement. -/
theorem halt_con_eq (k : Kernel) : k.halt.con = k.haltCalls.foldl
    (fun con fd => closeFunc (k.callerPcb.fdArray fd).jumpTable con) k.clearEnter.con := by
  have hcurr : k.clearEnter.setCurrPcb.currPid = k.currPid := rfl
  simp only [halt, haltCalls, hcurr]
  split
  · rfl
  · rfl

/-- The close routine of each open descriptor from 2 to 7 is called once, and that of no
closed one. -/
structure ClosesOpen (k : Kernel) : Prop where
  opened : ∀ fd, 2 ≤ fd → fd ≤ 7 → k.callerPcb.table fd ≠ none → k.haltCalls.count fd = 1
  closed : ∀ fd, 2 ≤ fd → fd ≤ 7 → k.callerPcb.table fd = none → k.haltCalls.count fd = 0

/-- No open descriptor is above a closed one. -/
def NoHole (table : Int → Option OpenFile) : Prop :=
  ∀ fd fd', 2 ≤ fd' → fd' < fd → table fd ≠ none → table fd' ≠ none

variable {k : Kernel}

theorem closesOpen_base (hbase : isBase k.currPid = true) :
    k.ClosesOpen ↔ ∀ fd, k.callerPcb.table fd = none := by
  have hcalls : k.haltCalls = [] := if_pos hbase
  constructor
  · intro h fd
    by_contra hopen
    by_cases hin : 2 ≤ fd ∧ fd ≤ 7
    · have hcount := h.opened fd hin.1 hin.2 hopen
      rw [hcalls, List.count_nil] at hcount
      cases hcount
    · exact hopen (PCB.table_of_out (by omega))
  · intro h
    refine ⟨fun fd _ _ hopen => absurd (h fd) hopen, fun fd _ _ _ => ?_⟩
    rw [hcalls, List.count_nil]

theorem closesOpen_program (hbase : isBase k.currPid = false) (h : k.callerPcb.Consistent) :
    k.ClosesOpen ↔ NoHole k.callerPcb.table := by
  have hcalls : k.haltCalls = haltCloses k.callerPcb := if_neg (by rw [hbase]; decide)
  have hmem := fun (fd : Int) (h2 : 2 ≤ fd) => mem_haltCloses h h2
  constructor
  · intro hcloses fd fd' h2 hlt hopen
    have h7 : fd ≤ 7 := by
      by_contra hout
      exact hopen (PCB.table_of_out (by omega))
    have hcount := hcloses.opened fd (by omega) h7 hopen
    have hvisited : fd ∈ haltCloses k.callerPcb := by
      rw [← List.count_pos_iff, ← hcalls, hcount]
      exact Nat.one_pos
    exact ((hmem fd (by omega)).mp hvisited).2 fd' h2 (by omega)
  · intro hprefix
    refine ⟨fun fd h2 h7 hopen => ?_, fun fd h2 _ hnone => ?_⟩
    · rw [hcalls]
      refine List.nodup_iff_count_eq_one.mp (nodup_haltCloses _) fd ((hmem fd h2).mpr ⟨h7, ?_⟩)
      intro j hj hle
      by_cases hsame : j = fd
      · rw [hsame]
        exact hopen
      · exact hprefix fd j hj (by omega) hopen
    · rw [hcalls, List.count_eq_zero]
      intro hvisited
      exact ((hmem fd h2).mp hvisited).2 fd h2 (Int.le_refl fd) hnone

/-- At every moment of a process's life at which it is scheduled, `halt` would close what
it has open exactly where a program has no hole in its descriptors, and where a base
shell has none. -/
theorem closesOpen_iff {k₀ k₁ : Kernel} {call : ExecCall} {r : Regs} {p : Pid}
    (hwf : k.img.WellFormed) (hcreated : k.execute call r = (k₀, .starts p))
    (hrun : Reaches step (fun k e => ¬ k.Restarts e p) k₀ k₁) (hcurr : k₁.currPid = p) :
    k₁.ClosesOpen ↔ if isBase p then ∀ fd, k₁.callerPcb.table fd = none
      else NoHole k₁.callerPcb.table := by
  have hpcb : k₁.callerPcb.Consistent := by
    have hlast := (reaches_consistent hwf hcreated hrun).2
    rw [← hcurr] at hlast
    exact hlast
  cases hbase : isBase p with
  | true =>
    rw [if_pos rfl]
    exact closesOpen_base (hcurr ▸ hbase)
  | false =>
    rw [if_neg (by decide)]
    exact closesOpen_program (hcurr ▸ hbase) hpcb

/-! ## A program with a hole -/

theorem launched_table (call : ExecCall) (p : Pid) (image : List UInt8) (r : Regs) (k : Kernel) :
    ((k.launched call p image r).tab.pcb p).table = fun _ => none := by
  have hsame := launched_fresh call p image r k
  have hfresh := PCB.freshPcb_consistent p 0 (k.tab.pcb p)
  funext fd
  by_cases hin : 2 ≤ fd ∧ fd ≤ 7
  · have hfd : fd - 2 + 2 = fd := by omega
    have hempty : (freshPcb p 0 (k.tab.pcb p)).openIndexes (fd - 2) = empty :=
      if_pos ⟨by omega, by omega⟩
    rw [← hfd, (hsame.consistent hfresh).table_eq_none_iff (by omega) (by omega), hsame.1, hempty]
  · exact PCB.table_of_out (by omega)

/-- A state in the life of the program in slot 3, from its start in the state `k₀`. -/
structure Living (k₀ k : Kernel) : Prop where
  created : ∃ (j : Kernel) (r : Regs), j.img.WellFormed ∧
    j.execute shellCall r = (k₀, .starts 3)
  life : Reaches step (fun k e => ¬ k.Restarts e 3) k₀ k
  run : Reaches step AfterShells shellKernel k
  currPid : k.currPid = 3
  img : k.img = shellImage

theorem Living.refinesMap {k₀ : Kernel} (h : Living k₀ k) : k.RefinesMap := by
  obtain ⟨j, r, hwf, hcreated⟩ := h.created
  obtain ⟨hwf', hpcb⟩ := reaches_consistent hwf hcreated h.life
  rw [← h.currPid] at hpcb
  exact Kernel.refinesMap hwf' hpcb

theorem afterShells_onDescriptor {e : Event} (he : e.OnDescriptor) : k.AfterShells e := by
  intro p hstarts
  obtain ⟨call, r, rfl, -⟩ := hstarts
  exact absurd he id

theorem Living.step {k₀ k' : Kernel} (h : Living k₀ k) {e : Event} (he : e.OnDescriptor)
    (hstep : k.step e = some k') (haside : Aside k k') : Living k₀ k' where
  created := h.created
  life := Reaches.step h.life (not_restarts he 3) hstep
  run := Reaches.step h.run (afterShells_onDescriptor he) hstep
  currPid := haside.currPid.trans h.currPid
  img := haside.img.trans h.img

theorem IsLeastFree.unique {table : Int → Option OpenFile} {fd fd' : Int}
    (h : IsLeastFree table fd) (h' : IsLeastFree table fd') : fd = fd' := by
  obtain ⟨hlow, -, hfree, hfirst⟩ := h
  obtain ⟨hlow', -, hfree', hfirst'⟩ := h'
  by_contra hne
  rcases Int.lt_or_gt_of_ne hne with hlt | hgt
  · exact hfirst' fd hlow hlt hfree
  · exact hfirst fd' hlow' hgt hfree'

/-- Another descriptor opened on the shell's file. -/
theorem Living.opens {k₀ : Kernel} (h : Living k₀ k) {fd : Int}
    (hfree : IsLeastFree k.callerPcb.table fd) : ∃ k' f, Living k₀ k' ∧
      k'.callerPcb.table = Function.update k.callerPcb.table fd (some f) := by
  have hspec := h.refinesMap.opens shellName shellCall.garbage
  obtain ⟨dentry, hfound, -, -⟩ :=
    shellImage_found shellName (by decide) (by decide) shellCall.garbage
  have hopened : (k.openFile shellName shellCall.garbage).2 ≠ -1 := by
    intro hfails
    rcases hspec.fails_iff.mp hfails with hnone | hfull
    · rw [h.img, hfound] at hnone
      cases hnone
    · exact hfull fd hfree.1 hfree.2.1 hfree.2.2.1
  obtain ⟨dentry', kind, -, -, htable⟩ := hspec.opened hopened
  rw [(hspec.least hopened).unique hfree] at htable
  exact ⟨_, _, h.step (e := .openFile shellName shellCall.garbage) trivial rfl
    (aside_openFile shellName shellCall.garbage k), htable⟩

/-- The program in slot 3 with its first descriptor open. -/
theorem exists_opened : ∃ k₀ k f, Living k₀ k ∧
    k.callerPcb.table = Function.update (fun _ => none) 2 (some f) := by
  obtain ⟨j, hrun, hshells, hcon⟩ :=
    exists_baseShells_shell AfterShells fun n k h => (keepsTables_boot n k h).afterShells
  obtain ⟨image, hstart⟩ := hshells.starting
  have himg : j.img = shellImage := (reaches_img hrun).trans shellKernel_img
  have hexec := execute_starts hstart { ebp := 0, esp := 0 }
  have hstep : j.step (.execute shellCall { ebp := 0, esp := 0 })
      = some (j.launched shellCall 3 image { ebp := 0, esp := 0 }) := step_starts hexec
  have hcurr : (j.launched shellCall 3 image { ebp := 0, esp := 0 }).currPid = 3 := by
    have hdisplay : j.con.vid.currentTerminal = j.con.vid.scheduledTerm := by
      rw [hcon, Console.booted_currentTerminal, Console.booted_scheduledTerm]
    exact launched_currPid hdisplay shellCall 3 image { ebp := 0, esp := 0 }
  have himg₀ : (j.launched shellCall 3 image { ebp := 0, esp := 0 }).img = shellImage := himg
  have htable₀ := launched_table shellCall 3 image { ebp := 0, esp := 0 } j
  generalize j.launched shellCall 3 image { ebp := 0, esp := 0 } = k₀
    at hexec hstep hcurr himg₀ htable₀
  have hliving : Living k₀ k₀ :=
    { created := ⟨j, _, himg ▸ shellImage_wellFormed, hexec⟩
      life := .refl
      run := hrun.step (fun _ _ => hshells.up) hstep
      currPid := hcurr
      img := himg₀ }
  have htable : k₀.callerPcb.table = fun _ => none := by
    rw [← hcurr] at htable₀
    exact htable₀
  have hfree : IsLeastFree (fun _ => none) 2 :=
    ⟨by decide, by decide, rfl, fun fd h2 hlt => by omega⟩
  obtain ⟨k, f, hk, hopened⟩ := hliving.opens (htable ▸ hfree)
  rw [htable] at hopened
  exact ⟨_, k, f, hk, hopened⟩

theorem closesOpen_opened : ∃ k, Reaches step AfterShells shellKernel k ∧ k.currPid = 3 ∧
    k.callerPcb.table 2 ≠ none ∧ k.ClosesOpen := by
  obtain ⟨k₀, k, f, hliving, htable⟩ := exists_opened
  obtain ⟨j, r, hwf, hcreated⟩ := hliving.created
  refine ⟨k, hliving.run, hliving.currPid, ?_, ?_⟩
  · rw [htable, Function.update_self]
    exact Option.some_ne_none f
  · refine (closesOpen_iff hwf hcreated hliving.life hliving.currPid).mpr ?_
    rw [if_neg (by decide), htable]
    intro fd fd' h2 hlt hopen
    rw [Function.update_of_ne (by omega)] at hopen
    exact absurd rfl hopen

/-- The program opens two descriptors, closes the first and halts: the second is not
closed. -/
theorem descriptor_behind_hole : ∃ k, Reaches step AfterShells shellKernel k ∧ k.currPid = 3 ∧
    k.callerPcb.table 2 = none ∧ k.callerPcb.table 3 ≠ none ∧ ¬ k.ClosesOpen := by
  obtain ⟨k₀, k, f, hliving, htable⟩ := exists_opened
  have hfree : IsLeastFree k.callerPcb.table 3 := by
    rw [htable]
    refine ⟨by decide, by decide, Function.update_of_ne (by decide) .., fun fd h2 hlt => ?_⟩
    have hfd : fd = 2 := by omega
    rw [hfd, Function.update_self]
    exact Option.some_ne_none f
  obtain ⟨k', f', hliving', htable'⟩ := hliving.opens hfree
  have hclosed := (hliving'.refinesMap.closes 2).closed
  have hliving₂ := hliving'.step (e := .closeFile 2) trivial rfl (aside_closeFile 2 k')
  generalize (k'.closeFile 2).1 = k₂ at hclosed hliving₂
  have hhole : k₂.callerPcb.table 2 = none := by rw [hclosed, Function.update_self]
  have hopen : k₂.callerPcb.table 3 ≠ none := by
    rw [hclosed, Function.update_of_ne (by decide), htable', Function.update_self]
    exact Option.some_ne_none f'
  refine ⟨k₂, hliving₂.run, hliving₂.currPid, hhole, hopen, fun hcloses => ?_⟩
  obtain ⟨j, r, hwf, hcreated⟩ := hliving₂.created
  have hpcb := (reaches_consistent hwf hcreated hliving₂.life).2
  rw [← hliving₂.currPid] at hpcb
  have hbase : isBase k₂.currPid = false := by
    rw [hliving₂.currPid]
    decide
  have hprefix := (closesOpen_program hbase hpcb).mp hcloses
  exact hprefix 3 2 (by decide) (by decide) hopen hhole

end Kernel

end StudentDistrib
