import Mathlib.Tactic.Ring
import StudentDistrib.Kernel.Clock
import StudentDistrib.Machine.Actions
import StudentDistrib.Machine.Steps

/-!
# The rates of the virtual clocks

The three clocks under any interleaving of interrupts and calls.  `rtc_write` takes the
eleven powers of two up to 1024 and nothing else, and the rate and the divider of a clock
multiply to 1024 in every state.  A new divider leaves the running count alone: the count
stays within the divider exactly as long as no call sets a divider below the count.
-/

namespace StudentDistrib

open Machine

namespace Rtc

/-- The initial values of `rtc.c`. -/
def init : Rtc :=
  { currFreq := fun _ => 1024
    currCount := fun _ => 1
    freqCount := fun _ => 1
    flag := fun _ => false }

theorem kernel_init_rtc (ram : Kernel.Ram) (img : Image) : (Kernel.init ram img).rtc = init := rfl

/-- `rtc_write` with its test of the pointer, `none` for `NULL`. -/
def rtcWriteBuf (t : Term) (buf : Option UInt32) (nbytes : Int) (r : Rtc) : Rtc × Int :=
  match buf with
  | none => (r, -1)
  | some value => r.rtcWrite t value.toNat nbytes

/-- `rtc_read` up to its loop, which waits for the flag. -/
def rtcRead (t : Term) (r : Rtc) : Rtc := { r with flag := Function.update r.flag t false }

/-! ## The halving loop -/

/-- The loop ends with an odd number and has divided by a power of two. -/
theorem halve_spec (fuel : Nat) {x : Int} (hpos : 0 < x) (hlt : x < 2 ^ (fuel + 1)) :
    ∃ i : Nat, x = 2 ^ i * halve fuel x ∧ halve fuel x % 2 = 1 := by
  induction fuel generalizing x with
  | zero =>
    have hone : x = 1 := by omega
    subst hone
    exact ⟨0, rfl, rfl⟩
  | succ fuel ih =>
    have hmod : x.tmod 2 = x % 2 := Int.tmod_eq_emod_of_nonneg (by omega)
    have hdiv : x.tdiv 2 = x / 2 := Int.tdiv_eq_ediv_of_nonneg (by omega)
    rw [halve, hmod, hdiv]
    by_cases heven : x % 2 = 0
    · rw [if_pos heven]
      rw [pow_succ] at hlt
      obtain ⟨i, hi, hodd⟩ := ih (x := x / 2) (by omega) (by omega)
      refine ⟨i + 1, ?_, hodd⟩
      have hx : x = 2 * (x / 2) := by omega
      calc x = 2 * (x / 2) := hx
        _ = 2 * (2 ^ i * halve fuel (x / 2)) := congrArg (2 * ·) hi
        _ = 2 ^ (i + 1) * halve fuel (x / 2) := by ring
    · rw [if_neg heven]
      exact ⟨0, (one_mul x).symm, by omega⟩

theorem halve_eq_one {x : Int} (hpos : 0 < x) (hle : x ≤ 1024) (h : halve 10 x = 1) :
    ∃ i : Nat, i ≤ 10 ∧ x = 2 ^ i := by
  obtain ⟨i, hi, -⟩ := halve_spec 10 hpos (by omega)
  rw [h, mul_one] at hi
  refine ⟨i, ?_, hi⟩
  have hpow : (2 : Int) ^ i ≤ 2 ^ 10 := by omega
  exact (pow_le_pow_iff_right₀ (by omega)).mp hpow

/-! ## `rtc_write` -/

/-- The buffer asks for the rate `2 ^ i`. -/
def Asks (i : Nat) (buf : Option UInt32) (nbytes : Int) : Prop :=
  i ≤ 10 ∧ nbytes = 4 ∧ ∃ value, buf = some value ∧ value.toNat = 2 ^ i

/-- The clock of terminal `t` at the rate `2 ^ i`. -/
def setRate (t : Term) (i : Nat) (r : Rtc) : Rtc :=
  { r with
    currFreq := Function.update r.currFreq t (2 ^ i)
    freqCount := Function.update r.freqCount t (2 ^ (10 - i)) }

theorem rtcWrite_power {i : Nat} (hi : i ≤ 10) (t : Term) (r : Rtc) :
    r.rtcWrite t (2 ^ i) 4 = (r.setRate t i, 0) := by
  interval_cases i
  all_goals rfl

theorem rtcWrite_congr {v w : Int} (h : i32 v = i32 w) (t : Term) (nbytes : Int) (r : Rtc) :
    r.rtcWrite t v nbytes = r.rtcWrite t w nbytes := by
  simp only [rtcWrite, h]

/-- All that `rtc_write` can do with a value. -/
theorem rtcWrite_cases (t : Term) (value nbytes : Int) (r : Rtc) :
    (∃ i ≤ 10, nbytes = 4 ∧ i32 value = 2 ^ i ∧ r.rtcWrite t value nbytes = (r.setRate t i, 0)) ∨
      r.rtcWrite t value nbytes = (r, -1) := by
  by_cases hbytes : nbytes ≠ 4
  · exact Or.inr (if_pos hbytes)
  rw [not_not] at hbytes
  subst hbytes
  by_cases hrange : i32 value < 1 ∨ i32 value > 1024
  · refine Or.inr ?_
    simp only [rtcWrite, ne_eq, not_true_eq_false, if_false, if_pos hrange]
  by_cases hpower : halve 10 (i32 value) = 1
  · obtain ⟨i, hi, hpow⟩ := halve_eq_one (by omega) (by omega) hpower
    have hword : i32 (2 ^ i) = 2 ^ i := by
      interval_cases i
      all_goals rfl
    refine Or.inl ⟨i, hi, rfl, hpow, ?_⟩
    rw [rtcWrite_congr (hpow.trans hword.symm)]
    exact rtcWrite_power hi t r
  · refine Or.inr ?_
    simp only [rtcWrite, ne_eq, not_true_eq_false, if_false, if_neg hrange, if_neg hpower]

/-- The signed value of a word is a rate only where the word is. -/
theorem toNat_of_i32 {value : UInt32} {i : Nat} (hi : i ≤ 10) (h : i32 value.toNat = 2 ^ i) :
    value.toNat = 2 ^ i := by
  have hlt := value.toNat_lt
  have hle : (2 : Int) ^ i ≤ 2 ^ 10 := pow_le_pow_right₀ (by omega) hi
  have hpos : (0 : Int) < 2 ^ i := pow_pos (by omega) i
  have hcast : (value.toNat : Int) = 2 ^ i := by
    rw [← h] at hle hpos ⊢
    unfold i32 at *
    omega
  exact_mod_cast hcast

/-- All that `rtc_write` can do with a buffer. -/
theorem rtcWriteBuf_cases (t : Term) (buf : Option UInt32) (nbytes : Int) (r : Rtc) :
    (∃ i, Asks i buf nbytes ∧ r.rtcWriteBuf t buf nbytes = (r.setRate t i, 0)) ∨
      ((∀ i, ¬ Asks i buf nbytes) ∧ r.rtcWriteBuf t buf nbytes = (r, -1)) := by
  cases buf with
  | none =>
    refine Or.inr ⟨fun i hi => ?_, rfl⟩
    obtain ⟨-, -, value, hbuf, -⟩ := hi
    cases hbuf
  | some value =>
    rcases rtcWrite_cases t value.toNat nbytes r with ⟨i, hi, hbytes, hpow, heq⟩ | heq
    · exact Or.inl ⟨i, ⟨hi, hbytes, value, rfl, toNat_of_i32 hi hpow⟩, heq⟩
    · refine Or.inr ⟨fun i hasks => ?_, heq⟩
      obtain ⟨hi, rfl, value', hbuf, hvalue⟩ := hasks
      cases hbuf
      have hcast : ((value.toNat : Nat) : Int) = 2 ^ i := by exact_mod_cast hvalue
      rw [hcast, rtcWrite_power hi t r, Prod.mk.injEq] at heq
      exact absurd heq.2 (by decide)

/-! ## Steps of the three clocks -/

/-- An interrupt, or a call by the process of a terminal. -/
inductive Step
  | interrupt
  | openAt (t : Term)
  | writeAt (t : Term) (buf : Option UInt32) (nbytes : Int)
  | readAt (t : Term)
  deriving DecidableEq

def Step.apply : Step → Rtc → Rtc
  | .interrupt, r => r.rtcHandler
  | .openAt t, r => r.rtcOpen t
  | .writeAt t buf nbytes, r => (r.rtcWriteBuf t buf nbytes).1
  | .readAt t, r => r.rtcRead t

/-- The clocks after some steps. -/
def after (r : Rtc) (steps : List Step) : Rtc := perform Step.apply steps r

theorem after_concat (r : Rtc) (steps : List Step) (s : Step) :
    r.after (steps ++ [s]) = s.apply (r.after steps) := by
  simp only [after, perform_append, perform]

/-- The step is a call that sets the divider of terminal `t` to `d`. -/
def Step.Sets (t : Term) (d : Nat) : Step → Prop
  | .openAt u => u = t ∧ d = 512
  | .writeAt u buf nbytes => u = t ∧ ∃ i, Asks i buf nbytes ∧ d = 2 ^ (10 - i)
  | _ => False

/-- The terminal whose process makes the step. -/
def Step.caller : Step → Option Term
  | .interrupt => none
  | .openAt t => some t
  | .writeAt t _ _ => some t
  | .readAt t => some t

/-- The entries of a terminal. -/
def entry (t : Term) (r : Rtc) : Int × Int × Int × Bool :=
  (r.currFreq t, r.freqCount t, r.currCount t, r.flag t)

theorem Asks.unique {i j : Nat} {buf : Option UInt32} {nbytes : Int} (hi : Asks i buf nbytes)
    (hj : Asks j buf nbytes) : i = j := by
  obtain ⟨-, -, value, hbuf, hvalue⟩ := hi
  obtain ⟨-, -, other, hbuf', hother⟩ := hj
  rw [hbuf, Option.some.injEq] at hbuf'
  rw [← hbuf', hvalue] at hother
  exact Nat.pow_right_injective (le_refl 2) hother

/-- All that a step can do: count, set one divider, or touch a flag at most. -/
theorem apply_cases (s : Step) (r : Rtc) :
    (s = .interrupt ∧ s.apply r = r.rtcHandler) ∨
      (∃ t i, s.caller = some t ∧ i ≤ 10 ∧
        (∀ u d, s.Sets u d ↔ u = t ∧ d = 2 ^ (10 - i)) ∧ s.apply r = r.setRate t i) ∨
      ∃ t, s.caller = some t ∧ (∀ u d, ¬ s.Sets u d) ∧
        (s.apply r = r ∨ s.apply r = r.rtcRead t) := by
  cases s with
  | interrupt => exact Or.inl ⟨rfl, rfl⟩
  | openAt t =>
    refine Or.inr (Or.inl ⟨t, 1, rfl, by omega, fun u d => ?_, rfl⟩)
    show t = u ∧ d = 512 ↔ u = t ∧ d = 512
    rw [eq_comm]
  | writeAt t buf nbytes =>
    have happly : (Step.writeAt t buf nbytes).apply r = (r.rtcWriteBuf t buf nbytes).1 := rfl
    rcases rtcWriteBuf_cases t buf nbytes r with ⟨i, hasks, heq⟩ | ⟨hnone, heq⟩
    · refine Or.inr (Or.inl ⟨t, i, rfl, hasks.1, fun u d => ?_, ?_⟩)
      · constructor
        · intro hsets
          obtain ⟨rfl, j, hj, rfl⟩ := hsets
          exact ⟨rfl, by rw [hasks.unique hj]⟩
        · intro hsets
          obtain ⟨rfl, rfl⟩ := hsets
          exact ⟨rfl, i, hasks, rfl⟩
      · rw [happly, heq]
    · refine Or.inr (Or.inr ⟨t, rfl, fun u d hsets => ?_, Or.inl ?_⟩)
      · obtain ⟨-, i, hasks, -⟩ := hsets
        exact hnone i hasks
      · rw [happly, heq]
  | readAt t => exact Or.inr (Or.inr ⟨t, rfl, fun _ _ h => h, Or.inr rfl⟩)

/-- A call changes the entries of its own terminal only. -/
theorem apply_entry {s : Step} {t u : Term} (hcaller : s.caller = some t) (hne : u ≠ t) (r : Rtc) :
    (s.apply r).entry u = r.entry u := by
  rcases apply_cases s r with ⟨rfl, -⟩ | ⟨v, i, hv, -, -, heq⟩ | ⟨v, hv, -, heq | heq⟩
  · cases hcaller
  · cases hcaller.symm.trans hv
    simp only [heq, entry, setRate, Function.update_of_ne hne]
  · rw [heq]
  · cases hcaller.symm.trans hv
    simp only [heq, entry, rtcRead, Function.update_of_ne hne]

/-! ## Legal rates -/

/-- The rate and the divider of every clock belong together. -/
def Matched (r : Rtc) : Prop := ∀ t, r.currFreq t * r.freqCount t = 1024

theorem Matched.setRate {r : Rtc} (h : r.Matched) (t : Term) {i : Nat} (hi : i ≤ 10) :
    (r.setRate t i).Matched := by
  intro u
  by_cases hu : u = t
  · subst hu
    have hpow : (2 : Int) ^ i * 2 ^ (10 - i) = 2 ^ 10 := by
      rw [← pow_add]
      congr 1
      omega
    simp only [Rtc.setRate, Function.update_self, hpow]
    rfl
  · simp only [Rtc.setRate, Function.update_of_ne hu]
    exact h u

theorem Matched.apply {r : Rtc} (h : r.Matched) (s : Step) : (s.apply r).Matched := by
  rcases apply_cases s r with ⟨-, heq⟩ | ⟨t, i, -, hi, -, heq⟩ | ⟨t, -, -, heq | heq⟩
  · rw [heq]
    exact h
  · rw [heq]
    exact h.setRate t hi
  · rw [heq]
    exact h
  · rw [heq]
    exact h

theorem after_matched (steps : List Step) : (init.after steps).Matched := by
  have hinit : init.Matched := fun _ => rfl
  exact perform_invariant (I := Matched) (fun p _ h => h.apply p.2) hinit

/-- `rtc_write` takes a word that is a power of two up to 1024 and refuses everything
else without a trace; the rate and the divider of every clock belong together in every
state; and a call leaves the clocks of the other terminals alone. -/
theorem rates_legal (steps : List Step) (t : Term) (buf : Option UInt32) (nbytes : Int) :
    (((init.after steps).rtcWriteBuf t buf nbytes).2 = 0 ↔
        nbytes = 4 ∧ ∃ value, buf = some value ∧ ∃ i ≤ 10, value.toNat = 2 ^ i) ∧
      (((init.after steps).rtcWriteBuf t buf nbytes).2 ≠ 0 →
        (init.after steps).rtcWriteBuf t buf nbytes = (init.after steps, -1)) ∧
      (∀ u, (init.after steps).currFreq u * (init.after steps).freqCount u = 1024) ∧
      ∀ s : Step, s.caller = some t → ∀ u, u ≠ t →
        (s.apply (init.after steps)).entry u = (init.after steps).entry u := by
  refine ⟨?_, fun hfails => ?_, after_matched steps,
    fun s hs u hu => apply_entry hs hu (init.after steps)⟩
  · rcases rtcWriteBuf_cases t buf nbytes (init.after steps) with ⟨i, hasks, heq⟩ | ⟨hnone, heq⟩
    · rw [heq]
      obtain ⟨hi, hbytes, value, hbuf, hvalue⟩ := hasks
      exact iff_of_true rfl ⟨hbytes, value, hbuf, i, hi, hvalue⟩
    · rw [heq]
      refine iff_of_false (fun h : (-1 : Int) = 0 => absurd h (by decide)) fun h => ?_
      obtain ⟨hbytes, value, hbuf, i, hi, hvalue⟩ := h
      exact hnone i ⟨hi, hbytes, value, hbuf, hvalue⟩
  · rcases rtcWriteBuf_cases t buf nbytes (init.after steps) with ⟨i, -, heq⟩ | ⟨-, heq⟩
    · rw [heq] at hfails
      exact absurd rfl hfails
    · exact heq

/-! ## What a call does to the counts -/

/-- A call leaves the running counts alone. -/
theorem apply_currCount {s : Step} (h : s ≠ .interrupt) (r : Rtc) :
    (s.apply r).currCount = r.currCount := by
  rcases apply_cases s r with ⟨hint, -⟩ | ⟨t, i, -, -, -, heq⟩ | ⟨t, -, -, heq | heq⟩
  · exact absurd hint h
  · rw [heq]
    rfl
  · rw [heq]
  · rw [heq]
    rfl

theorem Step.Sets.freqCount {s : Step} {t : Term} {d : Nat} (h : s.Sets t d) (r : Rtc) :
    (s.apply r).freqCount t = d := by
  rcases apply_cases s r with ⟨rfl, -⟩ | ⟨u, i, -, -, hsets, heq⟩ | ⟨u, -, hnone, -⟩
  · cases h
  · obtain ⟨rfl, rfl⟩ := (hsets t d).mp h
    simp only [heq, setRate, Function.update_self, Nat.cast_pow, Nat.cast_ofNat]
  · exact absurd h (hnone t d)

theorem apply_freqCount {s : Step} {t : Term} (h : ∀ d, ¬ s.Sets t d) (r : Rtc) :
    (s.apply r).freqCount t = r.freqCount t := by
  rcases apply_cases s r with ⟨-, heq⟩ | ⟨u, i, -, -, hsets, heq⟩ | ⟨u, -, -, heq | heq⟩
  · rw [heq]
    rfl
  · have hne : t ≠ u := fun htu => h _ ((hsets t _).mpr ⟨htu, rfl⟩)
    simp only [heq, setRate, Function.update_of_ne hne]
  · rw [heq]
  · rw [heq]
    rfl

/-! ## The running counts -/

/-- The running count of every terminal is within its divider. -/
def Within (r : Rtc) : Prop := ∀ t, 0 ≤ r.currCount t ∧ r.currCount t ≤ r.freqCount t

/-- The step sets a divider below the running count of its terminal. -/
def Overtakes (s : Step) (r : Rtc) : Prop := ∃ t d, s.Sets t d ∧ (d : Int) < r.currCount t

theorem Within.rtcHandler {r : Rtc} (h : r.Within) : r.rtcHandler.Within := by
  intro t
  obtain ⟨hnonneg, hle⟩ := h t
  show 0 ≤ r.rtcHandler.currCount t ∧ r.rtcHandler.currCount t ≤ r.freqCount t
  rw [rtcHandler_currCount]
  split
  · omega
  · omega

theorem Within.apply {s : Step} {r : Rtc} (h : r.Within) (hover : ¬ Overtakes s r) :
    (s.apply r).Within := by
  by_cases hint : s = .interrupt
  · subst hint
    exact h.rtcHandler
  · intro t
    rw [apply_currCount hint]
    by_cases hsets : ∃ d, s.Sets t d
    · obtain ⟨d, hsets⟩ := hsets
      rw [hsets.freqCount]
      exact ⟨(h t).1, not_lt.mp fun hlt => hover ⟨t, d, hsets, hlt⟩⟩
    · rw [apply_freqCount (not_exists.mp hsets)]
      exact h t

theorem not_overtakes {s : Step} {r : Rtc}
    (h : ∀ t, (s.apply r).currCount t ≤ (s.apply r).freqCount t) : ¬ Overtakes s r := by
  intro hover
  obtain ⟨t, d, hsets, hlt⟩ := hover
  have hcall : s ≠ .interrupt := by
    rintro rfl
    exact hsets
  have hle := h t
  rw [hsets.freqCount, apply_currCount hcall] at hle
  omega

/-! ## Waiting for the flag -/

/-- An `rtc_read` called now on terminal `t` waits for at most `n` interrupts: whatever
steps follow, its flag is up at one of the moments before the next interrupt. -/
def WaitsAtMost (t : Term) (n : Int) (r : Rtc) : Prop :=
  ∀ later : List Step, n ≤ later.countP (· = .interrupt) →
    ∃ before, before <+: later ∧ ((r.rtcRead t).after before).flag t = true

/-- The flag is up once the interrupts have outnumbered the running count. -/
theorem flag_raised {t : Term} {later : List Step} {r : Rtc} (hnonneg : 0 ≤ r.currCount t)
    (hcount : r.currCount t + 1 ≤ later.countP (· = .interrupt)) :
    ∃ before, before <+: later ∧ (r.after before).flag t = true := by
  induction later generalizing r with
  | nil =>
    rw [List.countP_nil] at hcount
    omega
  | cons s later ih =>
    by_cases hint : s = .interrupt
    · subst hint
      rw [List.countP_cons_of_pos (by simp)] at hcount
      by_cases hzero : r.currCount t = 0
      · refine ⟨[.interrupt], by simp, ?_⟩
        show r.rtcHandler.flag t = true
        simp only [rtcHandler, hzero, if_true]
      · have hnext : r.rtcHandler.currCount t = r.currCount t - 1 := by
          rw [rtcHandler_currCount, if_neg hzero]
        obtain ⟨before, hbefore, hflag⟩ := ih (r := r.rtcHandler) (by omega) (by omega)
        exact ⟨.interrupt :: before, List.cons_prefix_cons.mpr ⟨rfl, hbefore⟩, hflag⟩
    · have hnext := apply_currCount hint r
      rw [List.countP_cons_of_neg (by simpa using hint)] at hcount
      rw [← hnext] at hnonneg hcount
      obtain ⟨before, hbefore, hflag⟩ := ih hnonneg hcount
      exact ⟨s :: before, List.cons_prefix_cons.mpr ⟨rfl, hbefore⟩, hflag⟩

theorem Within.waitsAtMost {r : Rtc} (h : r.Within) (t : Term) :
    r.WaitsAtMost t (r.freqCount t + 1) := by
  intro later hlater
  have hwithin := h t
  have hread : (r.rtcRead t).currCount = r.currCount := rfl
  refine flag_raised (r := r.rtcRead t) ?_ ?_
  · rw [hread]
    exact hwithin.1
  · rw [hread]
    omega

/-- The counts keep up with the dividers, and a read waits for one cycle of the
handler at most. -/
def TakesEffect (r : Rtc) : Prop :=
  ∀ t, r.currCount t ≤ r.freqCount t ∧ r.WaitsAtMost t (r.freqCount t + 1)

/-- New rates take effect at once in every state of a history of interrupts and calls
exactly if no call sets a divider below the running count. -/
theorem takesEffect_iff (steps : List Step) :
    (∀ before s, before ++ [s] <+: steps → (init.after (before ++ [s])).TakesEffect) ↔
      ∀ before s, before ++ [s] <+: steps → ¬ Overtakes s (init.after before) := by
  refine forall_steps_iff (I := fun l => (init.after l).Within) ?_ ?_ ?_ steps
  · intro t
    show (0 : Int) ≤ 1 ∧ (1 : Int) ≤ 1
    omega
  · intro l s hwithin hover
    rw [after_concat]
    exact hwithin.apply hover
  · intro l s hwithin
    rw [after_concat]
    constructor
    · intro htakes
      exact not_overtakes fun t => (htakes t).1
    · intro hover t
      have hnext := hwithin.apply hover
      exact ⟨(hnext t).2, hnext.waitsAtMost t⟩

/-- A clock opened at 2 Hz and reloaded once, then set to 1024 Hz: the count of 512 is
still to be counted down, where the divider is 1. -/
theorem stale_count :
    ∃ steps : List Step,
      ¬ ∀ before s, before ++ [s] <+: steps → (init.after (before ++ [s])).TakesEffect := by
  refine ⟨[.openAt 0, .interrupt, .interrupt, .writeAt 0 (some 1024) 4], fun h => ?_⟩
  have hstale := (h [.openAt 0, .interrupt, .interrupt] (.writeAt 0 (some 1024) 4)
    (List.prefix_refl _) 0).1
  exact absurd hstale (by decide)

theorem Matched.rtcWrite {r : Rtc} (h : r.Matched) (t : Term) (value nbytes : Int) :
    (r.rtcWrite t value nbytes).1.Matched := by
  rcases rtcWrite_cases t value nbytes r with ⟨i, hi, -, -, heq⟩ | heq
  · rw [heq]
    exact h.setRate t hi
  · rw [heq]
    exact h

end Rtc

namespace Kernel

/-- In every state of the running system the rate and the divider of every clock
belong together. -/
theorem reaches_matched {ram : Ram} {img : Image} {k₀ k : Kernel}
    (hentry : entry ram img = some k₀) (hrun : Reaches step (fun _ _ => True) k₀ k) :
    k.rtc.Matched := by
  apply hrun.invariant (I := fun k => k.rtc.Matched)
  · intro k e k' hk _ hstep
    rcases step_rtc hstep with ⟨-, hr⟩ | ⟨-, ⟨flag, hr⟩ | hr | ⟨value, nbytes, hr⟩⟩
    · rw [hr]
      exact hk
    · rw [hr]
      exact hk
    · rw [hr]
      exact hk.setRate k.scheduledTerm (i := 1) (by omega)
    · rw [hr]
      exact hk.rtcWrite _ value nbytes
  · show k₀.rtc.Matched
    rw [entry_rtc hentry, Rtc.kernel_init_rtc]
    exact Rtc.after_matched []

end Kernel

end StudentDistrib
