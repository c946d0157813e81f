import Mathlib.Data.List.Infix

/-!
# The steps of a list

A list of inputs read from its start: a step is an input with those before it.
Properties of every step of a list are compared through an invariant of the inputs
read so far.
-/

namespace Machine

variable {α : Type*} {P Q : List α → α → Prop} {I : List α → Prop}

theorem forall_steps_nil : ∀ before a, before ++ [a] <+: ([] : List α) → P before a := by
  intro before a hpre
  simp at hpre

/-- The steps of a list with one more input. -/
theorem forall_steps_concat {l : List α} {b : α} :
    (∀ before a, before ++ [a] <+: l ++ [b] → P before a) ↔
      (∀ before a, before ++ [a] <+: l → P before a) ∧ P l b := by
  constructor
  · intro h
    exact ⟨fun before a hpre => h before a (hpre.trans (List.prefix_append _ _)),
      h l b (List.prefix_refl _)⟩
  · intro h before a hpre
    obtain ⟨hl, hb⟩ := h
    rcases List.prefix_concat_iff.mp hpre with heq | hpre
    · obtain ⟨rfl, ha⟩ := List.append_inj' heq rfl
      rw [List.singleton_inj.mp ha]
      exact hb
    · exact hl before a hpre

/-- The steps of a list by its first input. -/
theorem forall_steps_cons {l : List α} {b : α} :
    (∀ before a, before ++ [a] <+: b :: l → P before a) ↔
      P [] b ∧ ∀ before a, before ++ [a] <+: l → P (b :: before) a := by
  constructor
  · intro h
    refine ⟨h [] b ?_, fun before a hpre => h (b :: before) a ?_⟩
    · simp
    · exact List.cons_prefix_cons.mpr ⟨rfl, hpre⟩
  · intro h before a hpre
    obtain ⟨hb, hl⟩ := h
    cases before with
    | nil =>
      obtain ⟨rfl, -⟩ := List.cons_prefix_cons.mp hpre
      exact hb
    | cons c before =>
      obtain ⟨rfl, hrest⟩ := List.cons_prefix_cons.mp hpre
      exact hl before a hrest

/-- Where a property fails there is a first step at which it does. -/
theorem exists_first_step {l : List α} (h : ¬ ∀ before a, before ++ [a] <+: l → P before a) :
    ∃ before a, before ++ [a] <+: l ∧ (∀ b c, b ++ [c] <+: before → P b c) ∧ ¬ P before a := by
  induction l using List.reverseRecOn with
  | nil => exact absurd forall_steps_nil h
  | append_singleton l a ih =>
    rw [forall_steps_concat] at h
    by_cases hl : ∀ before a, before ++ [a] <+: l → P before a
    · exact ⟨l, a, List.prefix_refl _, hl, fun ha => h ⟨hl, ha⟩⟩
    · obtain ⟨before, b, hpre, hbefore, hb⟩ := ih hl
      exact ⟨before, b, hpre.trans (List.prefix_append _ _), hbefore, hb⟩

/-- What holds before the first input and is kept by every step that `Q` admits. -/
theorem steps_invariant (hnil : I []) (hstep : ∀ l a, I l → Q l a → I (l ++ [a])) {l : List α}
    (h : ∀ before a, before ++ [a] <+: l → Q before a) : I l := by
  induction l using List.reverseRecOn with
  | nil => exact hnil
  | append_singleton l a ih =>
    obtain ⟨hl, ha⟩ := forall_steps_concat.mp h
    exact hstep l a (ih hl) ha

/-- Two properties that agree where the invariant holds, one of which keeps it, hold
of every step together. -/
theorem forall_steps_iff (hnil : I []) (hstep : ∀ l a, I l → Q l a → I (l ++ [a]))
    (hiff : ∀ l a, I l → (P l a ↔ Q l a)) (l : List α) :
    (∀ before a, before ++ [a] <+: l → P before a) ↔
      ∀ before a, before ++ [a] <+: l → Q before a := by
  induction l using List.reverseRecOn with
  | nil => exact iff_of_true forall_steps_nil forall_steps_nil
  | append_singleton l a ih =>
    rw [forall_steps_concat, forall_steps_concat, ih]
    exact and_congr_right fun hl => hiff l a (steps_invariant hnil hstep hl)

end Machine
