import Mathlib.Logic.Relation
import Mathlib.Logic.Function.Basic

/-!
# A program and the rest of its machine

A routine makes calls and goes on with their answers.  Alone, it runs against a service
that answers from a private state.  In its machine, other moves come between any two of
its calls.  Where those moves leave alone what the service looks at, the routine does in
the machine what it does alone.
-/

namespace Machine

universe u

/-- A program that makes calls. -/
inductive Routine (Call Answer α : Type*)
  | done (a : α)
  | call (c : Call) (next : Answer → Routine Call Answer α)

namespace Routine

section Sequence

variable {Call Answer : Type*} {α β : Type*}

/-- One routine after another. -/
def bind : Routine Call Answer α → (α → Routine Call Answer β) → Routine Call Answer β
  | .done a, f => f a
  | .call c next, f => .call c fun a => (next a).bind f

instance : Monad (Routine Call Answer) where
  pure := .done
  bind := bind

/-- A single call. -/
def perform (c : Call) : Routine Call Answer Answer := .call c .done

end Sequence

variable {Call Answer α V W : Type*}

/-! ## Alone -/

/-- The routine against a service, which is undefined where the answer depends on more
than its state. -/
def run (serve : Call → V → Option (V × Answer)) : Routine Call Answer α → V → Option (V × α)
  | .done a, v => some (v, a)
  | .call c next, v =>
    match serve c v with
    | some (v, a) => run serve (next a) v
    | none => none

/-- The number of calls that it makes. -/
def calls (serve : Call → V → Option (V × Answer)) : Routine Call Answer α → V → Nat
  | .done _, _ => 0
  | .call c next, v =>
    match serve c v with
    | some (v, a) => calls serve (next a) v + 1
    | none => 0

section Alone

variable {serve : Call → V → Option (V × Answer)} {c : Call} {v v' : V} {a : Answer}
  {next : Answer → Routine Call Answer α}

@[simp] theorem run_done (a : α) (v : V) :
    run serve (.done a : Routine Call Answer α) v = some (v, a) := rfl

theorem run_call (h : serve c v = some (v', a)) :
    run serve (.call c next) v = run serve (next a) v' := by
  simp only [run, h]

theorem calls_call (h : serve c v = some (v', a)) :
    calls serve (.call c next) v = calls serve (next a) v' + 1 := by
  simp only [calls, h]

/-- A run that is defined has its first call answered. -/
theorem exists_served {result : V × α} (h : run serve (.call c next) v = some result) :
    ∃ v' a, serve c v = some (v', a) ∧ run serve (next a) v' = some result := by
  cases hserve : serve c v with
  | none => simp only [run, hserve, reduceCtorEq] at h
  | some served =>
    obtain ⟨v', a⟩ := served
    exact ⟨v', a, rfl, by rw [← h, run_call hserve]⟩

end Alone

/-- The routine ends with `a` in state `v'` after `n` calls. -/
structure Completes (serve : Call → V → Option (V × Answer)) (r : Routine Call Answer α) (v : V)
    (n : Nat) (v' : V) (a : α) : Prop where
  run : run serve r v = some (v', a)
  calls : calls serve r v = n

section Completes

variable {serve : Call → V → Option (V × Answer)} {v v' v'' : V} {m n : Nat}

theorem Completes.call {c : Call} {b : Answer} {next : Answer → Routine Call Answer α} {a : α}
    (hserve : serve c v = some (v', b)) (h : Completes serve (next b) v' n v'' a) :
    Completes serve (.call c next) v (n + 1) v'' a := by
  refine ⟨?_, ?_⟩
  · rw [run_call hserve, h.run]
  · rw [calls_call hserve, h.calls]

theorem Completes.bind {α β : Type*} {r : Routine Call Answer α} {f : α → Routine Call Answer β}
    {a : α} {b : β} (h : Completes serve r v m v' a) (hf : Completes serve (f a) v' n v'' b) :
    Completes serve (r.bind f) v (m + n) v'' b := by
  induction r generalizing v m with
  | done a₀ =>
    obtain ⟨rfl, rfl⟩ := Prod.mk.inj (Option.some.inj h.run)
    have hm : 0 = m := h.calls
    rw [← hm, Nat.zero_add]
    exact hf
  | call c next ih =>
    obtain ⟨v₁, b₁, hserve, hnext⟩ := exists_served h.run
    have hm := h.calls
    rw [calls_call hserve] at hm
    rw [← hm, Nat.add_right_comm]
    exact .call hserve (ih b₁ ⟨hnext, rfl⟩)

/-- A part of a routine that may not end, in sequence with the rest. -/
theorem Completes.seq {α β : Type u} {x : OptionT (Routine Call Answer) α}
    {f : α → OptionT (Routine Call Answer) β} {a : α} {b : Option β}
    (h : Completes serve x.run v m v' (some a)) (hf : Completes serve (f a).run v' n v'' b) :
    Completes serve (x >>= f).run v (m + n) v'' b := by
  have hbind : (x >>= f).run = x.run.bind fun o => match o with
      | some a => (f a).run
      | none => .done none := rfl
  rw [hbind]
  exact h.bind hf

end Completes

/-! ## In its machine -/

/-- The moves of a machine in which the routine runs: `acts` answers one of its calls and
`other` is everything else.  The number counts its calls. -/
inductive Runs (acts : Call → W → Answer → W → Prop) (other : W → W → Prop) (w : W)
    (r : Routine Call Answer α) : Nat → W → Routine Call Answer α → Prop
  | start : Runs acts other w r 0 w r
  | other {n : Nat} {w₁ w₂ : W} {r₁ : Routine Call Answer α} :
    Runs acts other w r n w₁ r₁ → other w₁ w₂ → Runs acts other w r n w₂ r₁
  | own {n : Nat} {w₁ w₂ : W} {c : Call} {a : Answer} {next : Answer → Routine Call Answer α} :
    Runs acts other w r n w₁ (.call c next) → acts c w₁ a w₂ →
    Runs acts other w r (n + 1) w₂ (next a)

/-- Moves of the others before the first call. -/
theorem Runs.others {acts : Call → W → Answer → W → Prop} {other : W → W → Prop} {w w' : W}
    {r : Routine Call Answer α} (h : Relation.ReflTransGen other w w') :
    Runs acts other w r 0 w' r := by
  induction h with
  | refl => exact .start
  | tail _ hother ih => exact ih.other hother

/-- Where `ok` holds, the service sees a part of the machine's state which the other moves
leave alone, and every move keeps `ok`. -/
structure Isolated (acts : Call → W → Answer → W → Prop) (other : W → W → Prop) (ok : W → Prop)
    (view : W → V) (serve : Call → V → Option (V × Answer)) : Prop where
  other : ∀ {w w'}, ok w → other w w' → ok w' ∧ view w' = view w
  own : ∀ {c w a w' v' a'}, ok w → acts c w a w' → serve c (view w) = some (v', a') →
    ok w' ∧ view w' = v' ∧ a = a'

section Isolation

variable {acts : Call → W → Answer → W → Prop} {other : W → W → Prop} {ok : W → Prop}
  {view : W → V} {serve : Call → V → Option (V × Answer)} {w w' : W}
  {r r' : Routine Call Answer α} {n : Nat} {result : V × α}

/-- At every moment the rest of the routine is what is left of its run alone. -/
theorem Isolated.rest (h : Isolated acts other ok view serve) (hw : ok w)
    (hruns : Runs acts other w r n w' r') (halone : run serve r (view w) = some result) :
    ok w' ∧ run serve r' (view w') = some result ∧
      n + calls serve r' (view w') = calls serve r (view w) := by
  induction hruns with
  | start => exact ⟨hw, halone, Nat.zero_add _⟩
  | other _ hother ih =>
    obtain ⟨hok, hrest⟩ := ih
    obtain ⟨hok', hview⟩ := h.other hok hother
    rw [hview]
    exact ⟨hok', hrest⟩
  | own _ hacts ih =>
    obtain ⟨hok, hrun, hcalls⟩ := ih
    obtain ⟨v', a', hserve, hnext⟩ := exists_served hrun
    obtain ⟨hok', hview, rfl⟩ := h.own hok hacts hserve
    rw [calls_call hserve] at hcalls
    rw [hview]
    exact ⟨hok', hnext, by omega⟩

end Isolation

end Routine

end Machine
