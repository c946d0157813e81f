import Mathlib.Logic.Relation

/-!
# Guarded runs of a partial transition function

A machine is a partial step function `next : σ → ε → Option σ`, undefined where
the event cannot happen.  A run is guarded by a predicate on the state before
each step and its event, so that a hypothesis on every step of a run is part of
the reachability relation.  `observe` adds a history variable, which watches the
run without steering it.
-/

namespace Machine

variable {σ ε η : Type*}

/-- One step by an event that the guard admits. -/
def Moves (next : σ → ε → Option σ) (ok : σ → ε → Prop) (s t : σ) : Prop :=
  ∃ e, ok s e ∧ next s e = some t

/-- The states reached by finitely many admitted steps. -/
abbrev Reaches (next : σ → ε → Option σ) (ok : σ → ε → Prop) : σ → σ → Prop :=
  Relation.ReflTransGen (Moves next ok)

section Invariants

variable {next : σ → ε → Option σ} {ok : σ → ε → Prop}

theorem Reaches.step {s t u : σ} {e : ε} (h : Reaches next ok s t) (he : ok t e)
    (hu : next t e = some u) : Reaches next ok s u :=
  Relation.ReflTransGen.tail h ⟨e, he, hu⟩

/-- What every admitted step preserves holds at the end of a run from a state in
which it holds. -/
theorem Reaches.invariant {I : σ → Prop}
    (hI : ∀ s e t, I s → ok s e → next s e = some t → I t) {s t : σ}
    (h : Reaches next ok s t) (hs : I s) : I t := by
  induction h with
  | refl => exact hs
  | tail _ hmove ih =>
    obtain ⟨e, he, hu⟩ := hmove
    exact hI _ e _ ih he hu

end Invariants

/-! ## History variables -/

/-- The machine beside a history variable, which `note` updates from the state
before the step, the event and the state after it. -/
def observe (next : σ → ε → Option σ) (note : σ → ε → σ → η → η) (s : σ × η) (e : ε) :
    Option (σ × η) :=
  (next s.1 e).map fun t => (t, note s.1 e t s.2)

variable {next : σ → ε → Option σ} {note : σ → ε → σ → η → η} {ok : σ → ε → Prop}

theorem observe_eq_some {s t : σ × η} {e : ε} :
    observe next note s e = some t ↔ next s.1 e = some t.1 ∧ t.2 = note s.1 e t.1 s.2 := by
  obtain ⟨t, h⟩ := t
  simp only [observe, Option.map_eq_some_iff, Prod.mk.injEq]
  constructor
  · rintro ⟨u, hu, rfl, rfl⟩
    exact ⟨hu, rfl⟩
  · rintro ⟨hu, rfl⟩
    exact ⟨t, hu, rfl, rfl⟩

/-- Forgetting the history variable leaves a run of the machine. -/
theorem Reaches.forget {s t : σ × η}
    (h : Reaches (observe next note) (fun s e => ok s.1 e) s t) :
    Reaches next ok s.1 t.1 := by
  induction h with
  | refl => exact .refl
  | tail _ hmove ih =>
    obtain ⟨e, he, hu⟩ := hmove
    exact ih.step he (observe_eq_some.mp hu).1

/-- Every run of the machine is watched by some run of the observed machine. -/
theorem Reaches.watched {s t : σ} (h : Reaches next ok s t) (a : η) :
    ∃ b, Reaches (observe next note) (fun s e => ok s.1 e) (s, a) (t, b) := by
  induction h with
  | refl => exact ⟨a, .refl⟩
  | @tail _ u _ hmove ih =>
    obtain ⟨e, he, hu⟩ := hmove
    obtain ⟨b, hb⟩ := ih
    exact ⟨note _ e u b, Reaches.step hb he (observe_eq_some.mpr ⟨hu, rfl⟩)⟩

/-- The history variable watches the runs of the machine and does not steer them. -/
theorem reaches_iff_watched {s t : σ} (a : η) :
    Reaches next ok s t ↔ ∃ b, Reaches (observe next note) (fun s e => ok s.1 e) (s, a) (t, b) := by
  constructor
  · intro h
    exact h.watched a
  · rintro ⟨b, h⟩
    exact h.forget

end Machine
