import Mathlib.Tactic.IntervalCases
import StudentDistrib.Kernel.Boot

/-!
# The period of the virtual clocks

`rtc_handler` counts down from `freq_count` to 0 and raises the flag at the
interrupt after that, so that reloading takes an interrupt of its own.  Between two
moments at which it raises the flag of a terminal lie `freq_count` interrupts that
do not, and the period is one interrupt longer than the frequency that was set.
-/

namespace StudentDistrib

open Machine

namespace Rtc

theorem rtcHandler_currCount (t : Term) (r : Rtc) :
    r.rtcHandler.currCount t
      = if r.currCount t = 0 then r.freqCount t else r.currCount t - 1 := rfl

/-- The clock of terminal `t` right after its frequency was set to `f`. -/
def SetTo (t : Term) (f : Int) (r : Rtc) : Prop :=
  (∃ before : Rtc, r = before.rtcOpen t ∧ f = 2) ∨
    ∃ before : Rtc, before.rtcWrite t f 4 = (r, 0)

theorem rtcOpen_freqCount (t : Term) (r : Rtc) : (r.rtcOpen t).freqCount t = 512 :=
  Function.update_self ..

theorem rtcWrite_freqCount {t : Term} {i : Nat} (hi : i ≤ 10) (r : Rtc) :
    (r.rtcWrite t (2 ^ i) 4).1.freqCount t = 2 ^ (10 - i) := by
  interval_cases i
  all_goals exact Function.update_self ..

/-- The counter that a frequency stands for. -/
theorem SetTo.freqCount {t : Term} {i : Nat} {r : Rtc} (hi : i ≤ 10) (h : SetTo t (2 ^ i) r) :
    r.freqCount t = 2 ^ (10 - i) := by
  rcases h with ⟨before, rfl, hf⟩ | ⟨before, hwrite⟩
  · have htwo : i = 1 := by
      interval_cases i
      all_goals first | rfl | exact absurd hf (by decide)
    rw [rtcOpen_freqCount, htwo]
    decide
  · rw [← rtcWrite_freqCount (t := t) hi before, hwrite]

/-- No counter is negative. -/
structure Counting (r : Rtc) : Prop where
  currCount : ∀ t, 0 ≤ r.currCount t
  freqCount : ∀ t, 0 ≤ r.freqCount t

theorem Counting.rtcHandler {r : Rtc} (h : Counting r) : Counting r.rtcHandler := by
  refine ⟨fun t => ?_, h.freqCount⟩
  have hcount := h.currCount t
  rw [rtcHandler_currCount]
  split
  · exact h.freqCount t
  · omega

theorem update_nonneg {f : Term → Int} (h : ∀ t, 0 ≤ f t) (t : Term) {v : Int} (hv : 0 ≤ v) :
    ∀ u, 0 ≤ Function.update f t v u := by
  intro u
  by_cases hu : u = t
  · rw [hu, Function.update_self]
    exact hv
  · rw [Function.update_of_ne hu]
    exact h u

theorem Counting.rtcOpen {r : Rtc} (h : Counting r) (t : Term) : Counting (r.rtcOpen t) :=
  ⟨h.currCount, update_nonneg h.freqCount t (by decide)⟩

theorem ite_nonneg {p : Prop} [Decidable p] {a b : Int} (ha : 0 ≤ a) (hb : 0 ≤ b) :
    0 ≤ if p then a else b := by
  split
  · exact ha
  · exact hb

theorem Counting.rtcWrite {r : Rtc} (h : Counting r) (t : Term) (value nbytes : Int) :
    Counting (r.rtcWrite t value nbytes).1 := by
  unfold Rtc.rtcWrite
  dsimp only
  by_cases hbytes : nbytes ≠ 4
  · rw [if_pos hbytes]
    exact h
  rw [if_neg hbytes]
  by_cases hrange : i32 value < 1 ∨ i32 value > 1024
  · rw [if_pos hrange]
    exact h
  rw [if_neg hrange]
  by_cases hpower : halve 10 (i32 value) = 1
  · rw [if_pos hpower]
    refine ⟨h.currCount, update_nonneg h.freqCount t ?_⟩
    repeat refine ite_nonneg (by decide) ?_
    exact h.freqCount t
  · rw [if_neg hpower]
    exact h

end Rtc

namespace Kernel

/-! ## What a step does to the clocks -/

theorem write_rtc (fd : Int) (buf : List UInt8) (k : Kernel) :
    (k.write fd buf).1.rtc = k.rtc ∨
      ∃ value nbytes, (k.write fd buf).1.rtc = (k.rtc.rtcWrite k.scheduledTerm value nbytes).1 := by
  unfold write
  dsimp only
  split
  · exact Or.inl rfl
  · split
    · split
      · exact Or.inl rfl
      · exact Or.inr ⟨_, _, rfl⟩
      · exact Or.inl rfl
    · exact Or.inl rfl

theorem openFile_rtc (fname : Bytes) (garbage : Image.Dentry) (k : Kernel) :
    (k.openFile fname garbage).1.rtc = k.rtc ∨
      (k.openFile fname garbage).1.rtc = k.rtc.rtcOpen k.scheduledTerm := by
  unfold openFile
  split
  · exact Or.inl rfl
  · dsimp only
    split
    · exact Or.inl rfl
    · split
      · exact Or.inr rfl
      · exact Or.inl rfl

theorem readTerminal_rtc (nbytes : Int) (k : Kernel) : (k.readTerminal nbytes).1.rtc = k.rtc := by
  unfold readTerminal
  split <;> rfl

theorem readDirectory_rtc (fd : Int) (k : Kernel) : (k.readDirectory fd).1.rtc = k.rtc := by
  unfold readDirectory
  dsimp only
  split
  · split <;> rfl
  · rfl

theorem readFile_rtc (fd nbytes : Int) (k : Kernel) : (k.readFile fd nbytes).1.rtc = k.rtc := by
  unfold readFile
  dsimp only
  split
  · split <;> rfl
  · rfl

theorem read_rtc (fd nbytes : Int) (k : Kernel) :
    ∃ flag, (k.read fd nbytes).1.rtc = { k.rtc with flag } := by
  unfold read
  split
  · exact ⟨_, rfl⟩
  · split
    · exact ⟨_, rfl⟩
    · dsimp only
      split
      · split
        · exact ⟨_, readTerminal_rtc nbytes k.sti.setCurrPcb⟩
        · exact ⟨_, rfl⟩
        · exact ⟨_, readDirectory_rtc fd k.sti.setCurrPcb⟩
        · exact ⟨_, readFile_rtc fd nbytes k.sti.setCurrPcb⟩
        · exact ⟨_, rfl⟩
      · exact ⟨_, rfl⟩

theorem closeFile_rtc (fd : Int) (k : Kernel) : (k.closeFile fd).1.rtc = k.rtc := by
  unfold closeFile
  dsimp only
  split <;> rfl

theorem halt_rtc (k : Kernel) : k.halt.rtc = k.rtc := by
  unfold halt
  dsimp only
  split <;> rfl

theorem resume_rtc (k : Kernel) : k.resume.rtc = k.rtc := by
  unfold resume
  dsimp only
  split <;> rfl

theorem execute_rtc {k k' : Kernel} {call : ExecCall} {r : Regs}
    (h : k.step (.execute call r) = some k') : k'.rtc = k.rtc := by
  rcases execute_step h with ⟨p, image, -, -, hk⟩ | hrefused | ⟨p, image, -, hk⟩
  · rw [hk]
    rfl
  · exact hrefused.rtc
  · rw [hk, halt_rtc, faulted_rtc]

theorem tick_rtc {k k' : Kernel} {r : Regs} (h : k.pitHandler r = some k') : k'.rtc = k.rtc := by
  by_cases hwaits : (k.preempted r).WaitsForShell
  · rw [pitHandler_shell hwaits] at h
    have hready : ((k.preempted r).shellReady (k.preempted r).scheduledTerm).rtc = k.rtc := by
      unfold shellReady onConsole
      rfl
    rw [execute_rtc (step_of_unlessFaults h), hready]
  · rw [pitHandler_resume hwaits, Option.some.injEq] at h
    rw [← h, resume_rtc]
    rfl

/-- An event other than the clock's interrupt leaves the counters alone and sets at
most the frequency of the scheduled terminal. -/
theorem step_rtc {k k' : Kernel} {e : Event} (h : k.step e = some k') :
    (e = .rtc ∧ k'.rtc = k.rtc.rtcHandler) ∨
    (e ≠ .rtc ∧ ((∃ flag, k'.rtc = { k.rtc with flag }) ∨
      k'.rtc = k.rtc.rtcOpen k.scheduledTerm ∨
      ∃ value nbytes, k'.rtc = (k.rtc.rtcWrite k.scheduledTerm value nbytes).1)) := by
  cases e with
  | rtc =>
    cases h
    exact Or.inl ⟨rfl, rfl⟩
  | tick r => exact Or.inr ⟨nofun, Or.inl ⟨_, tick_rtc h⟩⟩
  | execute call r => exact Or.inr ⟨nofun, Or.inl ⟨_, execute_rtc h⟩⟩
  | halt status =>
    cases h
    exact Or.inr ⟨nofun, Or.inl ⟨_, halt_rtc k⟩⟩
  | read fd nbytes =>
    cases h
    exact Or.inr ⟨nofun, Or.inl (read_rtc fd nbytes k)⟩
  | readDone nbytes =>
    unfold step at h
    dsimp only at h
    obtain ⟨⟨con, result⟩, -, rfl⟩ := Option.map_eq_some_iff.mp h
    exact Or.inr ⟨nofun, Or.inl ⟨_, rfl⟩⟩
  | write fd buf =>
    cases h
    rcases write_rtc fd buf k with hsame | hset
    · exact Or.inr ⟨nofun, Or.inl ⟨_, hsame⟩⟩
    · exact Or.inr ⟨nofun, Or.inr (Or.inr hset)⟩
  | openFile fname garbage =>
    cases h
    rcases openFile_rtc fname garbage k with hsame | hset
    · exact Or.inr ⟨nofun, Or.inl ⟨_, hsame⟩⟩
    · exact Or.inr ⟨nofun, Or.inr (Or.inl hset)⟩
  | closeFile fd =>
    cases h
    exact Or.inr ⟨nofun, Or.inl ⟨_, closeFile_rtc fd k⟩⟩
  | vidmap screenStart =>
    cases h
    refine Or.inr ⟨nofun, Or.inl ⟨k.rtc.flag, ?_⟩⟩
    unfold vidmap
    split
    · rfl
    · split <;> rfl
  | key scan =>
    cases h
    exact Or.inr ⟨nofun, Or.inl ⟨_, rfl⟩⟩
  | getargs nbytes =>
    cases h
    exact Or.inr ⟨nofun, Or.inl ⟨_, rfl⟩⟩
  | vidmapStore offset b =>
    cases h
    exact Or.inr ⟨nofun, Or.inl ⟨_, rfl⟩⟩

/-! ## Runs between two raises of the flag -/

/-- The event is the clock's interrupt at which the flag of terminal `t` is raised. -/
def Raises (t : Term) (k : Kernel) (e : Event) : Prop := e = .rtc ∧ k.rtc.currCount t = 0

/-- The event leaves the frequency of terminal `t` as it is. -/
def KeepsFrequency (t : Term) (k : Kernel) (e : Event) : Prop :=
  ∀ k', k.step e = some k' → k'.rtc.freqCount t = k.rtc.freqCount t

/-- The clock's interrupts since the flag of terminal `t` was raised last, the one
that raised it left out. -/
def countRtc (t : Term) (k : Kernel) (e : Event) (_ : Kernel) (since : Option Nat) : Option Nat :=
  match e with
  | .rtc => if k.rtc.currCount t = 0 then some 0 else since.map (· + 1)
  | _ => since

/-- In every run from `k` that leaves the frequency of terminal `t` alone, the flag is
raised at every `d`-th interrupt after one at which it was. -/
def Period (t : Term) (d : Nat) (k : Kernel) : Prop :=
  ∀ k' n, Reaches (observe step (countRtc t)) (fun s e => KeepsFrequency t s.1 e) (k, none)
    (k', some n) → k'.Raises t .rtc → n + 1 = d

variable {t : Term}

theorem countRtc_of_ne {k k' : Kernel} {e : Event} (h : e ≠ .rtc) (since : Option Nat) :
    countRtc t k e k' since = since := by
  cases e with
  | rtc => exact absurd rfl h
  | _ => rfl

theorem step_currCount {k k' : Kernel} {e : Event} (h : k.step e = some k') (he : e ≠ .rtc) :
    k'.rtc.currCount = k.rtc.currCount := by
  rcases step_rtc h with ⟨hrtc, -⟩ | ⟨-, ⟨flag, hr⟩ | hr | ⟨value, nbytes, hr⟩⟩
  · exact absurd hrtc he
  · rw [hr]
  · rw [hr]
    rfl
  · rw [hr]
    unfold Rtc.rtcWrite
    dsimp only
    by_cases hbytes : nbytes ≠ 4
    · rw [if_pos hbytes]
    rw [if_neg hbytes]
    by_cases hrange : i32 value < 1 ∨ i32 value > 1024
    · rw [if_pos hrange]
    rw [if_neg hrange]
    by_cases hpower : Rtc.halve 10 (i32 value) = 1
    · rw [if_pos hpower]
    · rw [if_neg hpower]

theorem step_counting {k k' : Kernel} {e : Event} (h : k.step e = some k')
    (hk : k.rtc.Counting) : k'.rtc.Counting := by
  rcases step_rtc h with ⟨-, hr⟩ | ⟨-, ⟨flag, hr⟩ | hr | ⟨value, nbytes, hr⟩⟩
  · exact hr ▸ hk.rtcHandler
  · rw [hr]
    exact ⟨hk.currCount, hk.freqCount⟩
  · exact hr ▸ hk.rtcOpen _
  · exact hr ▸ hk.rtcWrite _ value nbytes

/-- The counter and the interrupts since the last raise add up to where the counter
started. -/
theorem currCount_add_since {k : Kernel} {s : Kernel × Option Nat}
    (hrun : Reaches (observe step (countRtc t)) (fun s e => KeepsFrequency t s.1 e) (k, none) s) :
    s.1.rtc.freqCount t = k.rtc.freqCount t ∧
      ∀ n : Nat, s.2 = some n → s.1.rtc.currCount t + n = k.rtc.freqCount t := by
  refine hrun.invariant (I := fun s => s.1.rtc.freqCount t = k.rtc.freqCount t ∧
    ∀ n : Nat, s.2 = some n → s.1.rtc.currCount t + n = k.rtc.freqCount t) ?_ ⟨rfl, nofun⟩
  intro s e s' hs hkeep hstep
  obtain ⟨hnext, hnote⟩ := observe_eq_some.mp hstep
  have hfreq : s'.1.rtc.freqCount t = k.rtc.freqCount t := (hkeep s'.1 hnext).trans hs.1
  refine ⟨hfreq, fun n hn => ?_⟩
  rw [hnote] at hn
  by_cases he : e = .rtc
  · subst he
    have hhandler : s'.1.rtc = s.1.rtc.rtcHandler := by
      rcases step_rtc hnext with ⟨-, hr⟩ | ⟨hne, -⟩
      · exact hr
      · exact absurd rfl hne
    rw [hhandler, Rtc.rtcHandler_currCount]
    unfold countRtc at hn
    dsimp only at hn
    by_cases hzero : s.1.rtc.currCount t = 0
    · -- The interrupt that raises the flag reloads the counter.
      rw [if_pos hzero] at hn ⊢
      cases hn
      rw [hs.1, Int.natCast_zero, Int.add_zero]
    · rw [if_neg hzero] at hn ⊢
      obtain ⟨m, hm, rfl⟩ := Option.map_eq_some_iff.mp hn
      have hsum := hs.2 m hm
      push_cast
      omega
  · rw [countRtc_of_ne he] at hn
    rw [step_currCount hnext he]
    exact hs.2 n hn

theorem period_freqCount {k : Kernel} {d : Nat} (h : k.rtc.freqCount t = d) :
    k.Period t (d + 1) := by
  intro k' n hrun hraises
  have hsum := (currCount_add_since hrun).2 n rfl
  have hzero : k'.rtc.currCount t = 0 := hraises.2
  rw [hzero, h] at hsum
  omega

/-! ## The flag is raised again and again -/

theorem keepsFrequency_rtc (t : Term) (k : Kernel) : KeepsFrequency t k .rtc := by
  intro k' h
  cases h
  rfl

/-- Counting down from `m` takes `m` interrupts. -/
theorem exists_countdown (m : Nat) {k : Kernel} (hm : k.rtc.currCount t = m)
    (since : Option Nat) : ∃ k', Reaches (observe step (countRtc t))
      (fun s e => KeepsFrequency t s.1 e) (k, since) (k', since.map (· + m)) ∧
      k'.rtc.currCount t = 0 ∧ k'.rtc.freqCount t = k.rtc.freqCount t := by
  induction m generalizing k since with
  | zero =>
    have hsame : since.map (· + 0) = since := Option.map_id'
    refine ⟨k, ?_, hm, rfl⟩
    rw [hsame]
  | succ m ih =>
    have hpos : k.rtc.currCount t ≠ 0 := by omega
    have hcount : k.rtc.rtcHandler.currCount t = m := by
      rw [Rtc.rtcHandler_currCount, if_neg hpos]
      omega
    obtain ⟨k', hrun, hzero, hfreq⟩ := ih (k := { k with rtc := k.rtc.rtcHandler }) hcount
      (since.map (· + 1))
    have hnote : countRtc t k .rtc { k with rtc := k.rtc.rtcHandler } since
        = since.map (· + 1) := if_neg hpos
    have hfirst : Moves (observe step (countRtc t)) (fun s e => KeepsFrequency t s.1 e)
        (k, since) ({ k with rtc := k.rtc.rtcHandler }, since.map (· + 1)) :=
      ⟨.rtc, keepsFrequency_rtc t k, observe_eq_some.mpr ⟨rfl, hnote.symm⟩⟩
    have hsum : (since.map (· + 1)).map (· + m) = since.map (· + (m + 1)) := by
      rw [Option.map_map]
      refine Option.map_congr fun n _ => ?_
      show n + 1 + m = n + (m + 1)
      omega
    exact ⟨k', hsum ▸ Relation.ReflTransGen.head hfirst hrun, hzero, hfreq⟩

/-- A counter of `d` raises its flag `d + 1` interrupts after it was raised. -/
theorem exists_raise {k : Kernel} (hk : k.rtc.Counting) {d : Nat} (h : k.rtc.freqCount t = d) :
    ∃ k', Reaches (observe step (countRtc t)) (fun s e => KeepsFrequency t s.1 e) (k, none)
      (k', some d) ∧ k'.Raises t .rtc := by
  obtain ⟨m, hm⟩ := Int.eq_ofNat_of_zero_le (hk.currCount t)
  obtain ⟨j, hj, hzero, hfreq⟩ := exists_countdown m hm none
  have hreload : j.rtc.rtcHandler.currCount t = d := by
    rw [Rtc.rtcHandler_currCount, if_pos hzero, hfreq, h]
  obtain ⟨k', hk', hzero', -⟩ :=
    exists_countdown d (k := { j with rtc := j.rtc.rtcHandler }) hreload (some 0)
  have hnote : countRtc t j .rtc { j with rtc := j.rtc.rtcHandler } none = some 0 := if_pos hzero
  have hmove : Moves (observe step (countRtc t)) (fun s e => KeepsFrequency t s.1 e)
      (j, none) ({ j with rtc := j.rtc.rtcHandler }, some 0) :=
    ⟨.rtc, keepsFrequency_rtc t j, observe_eq_some.mpr ⟨rfl, hnote.symm⟩⟩
  have hcount : (some 0).map (· + d) = some d := by
    rw [Option.map_some, Nat.zero_add]
  rw [hcount] at hk'
  exact ⟨k', (hj.tail hmove).trans hk', rfl, hzero'⟩

theorem not_period_freqCount {k : Kernel} (hk : k.rtc.Counting) {d : Nat}
    (h : k.rtc.freqCount t = d) : ¬ k.Period t d := by
  intro hperiod
  obtain ⟨k', hrun, hraises⟩ := exists_raise hk h
  have hcount := hperiod k' d hrun hraises
  omega

theorem init_counting (ram : Ram) (img : Image) : (init ram img).rtc.Counting :=
  ⟨fun _ => (by decide : (0 : Int) ≤ 1), fun _ => (by decide : (0 : Int) ≤ 1)⟩

theorem entry_rtc {ram : Ram} {img : Image} {k : Kernel} (h : entry ram img = some k) :
    k.rtc = (init ram img).rtc := by
  obtain ⟨image, himage⟩ := entry_hasShell h
  rw [entry_eq ram himage, Option.some.injEq] at h
  rw [← h]
  rfl

theorem reaches_counting {ram : Ram} {img : Image} {k₀ k : Kernel}
    (hentry : entry ram img = some k₀) (hrun : Reaches step (fun _ _ => True) k₀ k) :
    k.rtc.Counting := by
  refine hrun.invariant (I := fun k => k.rtc.Counting) (fun _ _ _ hk _ h => step_counting h hk) ?_
  rw [entry_rtc hentry]
  exact init_counting ram img

/-- Whatever frequency a process sets, the period of its clock is one interrupt
longer than it asked for. -/
theorem period_of_setTo {ram : Ram} {img : Image} {k₀ k : Kernel}
    (hentry : entry ram img = some k₀) (hrun : Reaches step (fun _ _ => True) k₀ k) {i : Nat}
    (hi : i ≤ 10) (hset : k.rtc.SetTo t (2 ^ i)) :
    k.Period t (1024 / 2 ^ i + 1) ∧ ¬ k.Period t (1024 / 2 ^ i) := by
  have hfreq : k.rtc.freqCount t = ((1024 / 2 ^ i : Nat) : Int) := by
    rw [hset.freqCount hi]
    interval_cases i
    all_goals rfl
  exact ⟨period_freqCount hfreq, not_period_freqCount (reaches_counting hentry hrun) hfreq⟩

/-- The first shell's clock, at the frequency it starts with. -/
theorem shellKernel_setTo : shellKernel.rtc.SetTo 0 (2 ^ 10) := by
  refine Or.inr ⟨shellKernel.rtc, Prod.ext ?_ rfl⟩
  rw [entry_rtc entry_shellImage]
  exact congrArg₂ (fun freq count => ({ (init zeroRam shellImage).rtc with
    currFreq := freq, freqCount := count } : Rtc)) (Function.update_eq_self ..)
    (Function.update_eq_self ..)

theorem period_shellKernel : shellKernel.Period 0 2 ∧ ¬ shellKernel.Period 0 1 :=
  period_of_setTo entry_shellImage .refl (le_refl 10) shellKernel_setTo

/-- At 1024 Hz the flag is raised at every other interrupt. -/
theorem period_too_long :
    shellKernel.rtc.SetTo 0 1024 ∧ ¬ shellKernel.Period 0 (1024 / 1024) :=
  ⟨shellKernel_setTo, not_period_freqCount (reaches_counting entry_shellImage .refl) rfl⟩

end Kernel

end StudentDistrib
