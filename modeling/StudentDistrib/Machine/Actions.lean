import Mathlib.Tactic.TypeStar

/-!
# Sequences of actions

A routine that goes straight through is a list of actions, each a function on the
state.  `calls` pairs every action with the state in which it is carried out, so
that a property of all the moments of a routine is a property of its calls.
-/

namespace Machine

variable {σ α : Type*} (act : α → σ → σ)

/-- The actions carried out in order. -/
def perform : List α → σ → σ
  | [], s => s
  | a :: l, s => perform l (act a s)

/-- Each action with the state in which it is carried out. -/
def calls : List α → σ → List (σ × α)
  | [], _ => []
  | a :: l, s => (s, a) :: calls l (act a s)

theorem perform_append (l m : List α) (s : σ) :
    perform act (l ++ m) s = perform act m (perform act l s) := by
  induction l generalizing s with
  | nil => rfl
  | cons a l ih => exact ih (act a s)

theorem mem_calls_snd {l : List α} {s : σ} {p : σ × α} (h : p ∈ calls act l s) : p.2 ∈ l := by
  induction l generalizing s with
  | nil => cases h
  | cons a l ih =>
    rcases List.mem_cons.mp h with rfl | h
    · exact List.mem_cons_self
    · exact List.mem_cons_of_mem _ (ih h)

theorem exists_call {l : List α} {a : α} (h : a ∈ l) (s : σ) :
    ∃ t, (t, a) ∈ calls act l s := by
  induction l generalizing s with
  | nil => cases h
  | cons b l ih =>
    rcases List.mem_cons.mp h with rfl | h
    · exact ⟨s, List.mem_cons_self⟩
    · obtain ⟨t, ht⟩ := ih h (act b s)
      exact ⟨t, List.mem_cons_of_mem _ ht⟩

variable {act}

section Invariants

variable {I : σ → Prop} {s : σ}

/-- What every call preserves holds after the sequence. -/
theorem perform_invariant {l : List α} (hI : ∀ p ∈ calls act l s, I p.1 → I (act p.2 p.1))
    (hs : I s) : I (perform act l s) := by
  induction l generalizing s with
  | nil => exact hs
  | cons a l ih =>
    refine ih (fun p hp => hI p (List.mem_cons_of_mem _ hp)) ?_
    exact hI (s, a) List.mem_cons_self hs

/-- What every call preserves holds at every call. -/
theorem calls_invariant {l : List α} (hI : ∀ p ∈ calls act l s, I p.1 → I (act p.2 p.1))
    (hs : I s) : ∀ p ∈ calls act l s, I p.1 := by
  induction l generalizing s with
  | nil => exact fun p hp => nomatch hp
  | cons a l ih =>
    intro p hp
    rcases List.mem_cons.mp hp with rfl | hp
    · exact hs
    · exact ih (fun q hq => hI q (List.mem_cons_of_mem _ hq)) (hI (s, a) List.mem_cons_self hs) p hp

/-- Where `bad` names exactly the steps that leave `I`, a sequence stays in `I` just
as long as it has no bad step. -/
theorem prefixes_invariant_iff {J : σ → Prop} {bad : σ → α → Prop}
    (hJ : ∀ t a, J t → J (act a t)) (hI : ∀ t a, J t → I t → (I (act a t) ↔ ¬ bad t a))
    (hs : J s) (hIs : I s) (l : List α) :
    (∀ m, m <+: l → I (perform act m s)) ↔ ∀ p ∈ calls act l s, ¬ bad p.1 p.2 := by
  induction l generalizing s with
  | nil =>
    constructor
    · intro _ p hp
      cases hp
    · intro _ m hm
      rw [List.prefix_nil.mp hm]
      exact hIs
  | cons a l ih =>
    constructor
    · intro h
      have ha : I (act a s) := h [a] (List.prefix_append [a] l)
      have hrest := (ih (hJ s a hs) ha).mp fun m hm => h (a :: m) ((List.prefix_cons_inj a).mpr hm)
      intro p hp
      rcases List.mem_cons.mp hp with rfl | hp
      · exact (hI s a hs hIs).mp ha
      · exact hrest p hp
    · intro h
      have ha := (hI s a hs hIs).mpr (h (s, a) List.mem_cons_self)
      have hrest := (ih (hJ s a hs) ha).mpr fun p hp => h p (List.mem_cons_of_mem _ hp)
      intro m hm
      cases m with
      | nil => exact hIs
      | cons b m =>
        obtain ⟨hb, htail⟩ := List.cons_prefix_cons.mp hm
        rw [hb]
        exact hrest m htail

end Invariants

end Machine
