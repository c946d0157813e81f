import Mathlib.Data.List.Nodup
import Mathlib.Data.List.Chain
import Mathlib.Logic.Function.Basic

/-!
# Chains of parent pointers

A table of parent pointers is a function `parent : α → α`.  `ParentChain parent
root l` says that `l` is the path that starts at its head, follows `parent` from
each entry to the next and ends at `root`, without visiting an entry twice.
`ParentForest` is a family of disjoint chains which hold the entries in use and no
others.  Allocation pushes an entry that is on no chain, release pops a head.
-/

namespace Machine

variable {α : Type*}

/-- The path of parent pointers from the head of `l` to `root`. -/
structure ParentChain (parent : α → α) (root : α) (l : List α) : Prop where
  links : l.IsChain fun a b => parent a = b
  ends : l.getLast? = some root
  nodup : l.Nodup
  root_self : parent root = root

namespace ParentChain

variable {parent parent' : α → α} {root : α} {l : List α}

theorem singleton (h : parent root = root) : ParentChain parent root [root] :=
  ⟨.singleton _, rfl, List.nodup_singleton _, h⟩

theorem ne_nil (h : ParentChain parent root l) : l ≠ [] := by
  rintro rfl
  cases h.ends

theorem root_mem (h : ParentChain parent root l) : root ∈ l :=
  List.mem_of_getLast? h.ends

/-- Only the pointers of the entries on the chain matter. -/
theorem congr (h : ParentChain parent root l) (heq : ∀ a ∈ l, parent' a = parent a) :
    ParentChain parent' root l where
  links := by
    refine h.links.imp_of_mem_imp fun a b ha _ hab => ?_
    rw [heq a ha, hab]
  ends := h.ends
  nodup := h.nodup
  root_self := by rw [heq root h.root_mem, h.root_self]

/-- Pushing an entry that points to the head of the chain. -/
theorem push {a b : α} (h : ParentChain parent root (b :: l)) (ha : a ∉ b :: l)
    (hab : parent a = b) : ParentChain parent root (a :: b :: l) where
  links := List.isChain_cons_cons.mpr ⟨hab, h.links⟩
  ends := by rw [List.getLast?_cons_cons]; exact h.ends
  nodup := List.nodup_cons.mpr ⟨ha, h.nodup⟩
  root_self := h.root_self

/-- Popping the head of a chain of more than its root. -/
theorem pop {a : α} (h : ParentChain parent root (a :: l)) (hne : a ≠ root) :
    ParentChain parent root l := by
  cases l with
  | nil =>
    have := h.ends
    simp only [List.getLast?_singleton, Option.some.injEq] at this
    exact absurd this hne
  | cons b l =>
    exact
      { links := (List.isChain_cons_cons.mp h.links).2
        ends := by rw [← h.ends, List.getLast?_cons_cons]
        nodup := (List.nodup_cons.mp h.nodup).2
        root_self := h.root_self }

/-- Above the root, the head of a chain points to the second entry. -/
theorem exists_next {a : α} (h : ParentChain parent root (a :: l)) (hne : a ≠ root) :
    ∃ l', l = parent a :: l' := by
  cases l with
  | nil => exact absurd (h.pop hne).ne_nil (by simp)
  | cons b l => exact ⟨l, by rw [(List.isChain_cons_cons.mp h.links).1]⟩

/-- The root is the head only of the chain that consists of it alone. -/
theorem eq_singleton (h : ParentChain parent root (root :: l)) : l = [] := by
  cases l with
  | nil => rfl
  | cons b l =>
    have hlast : (b :: l).getLast? = some root := by rw [← h.ends, List.getLast?_cons_cons]
    exact absurd (List.mem_of_getLast? hlast) (List.nodup_cons.mp h.nodup).1

end ParentChain

/-! ## Families of chains -/

variable {ι : Type*}

/-- The chains `head i :: above i` are disjoint and hold the entries in use. -/
structure ParentForest (parent : α → α) (root : ι → α) (live : α → Prop) (head : ι → α)
    (above : ι → List α) : Prop where
  path : ∀ i, ParentChain parent (root i) (head i :: above i)
  disjoint : ∀ i j, i ≠ j → (head i :: above i).Disjoint (head j :: above j)
  live_iff : ∀ a, live a ↔ ∃ i, a ∈ head i :: above i

namespace ParentForest

variable {parent : α → α} {root : ι → α} {live live' : α → Prop} {head : ι → α}
  {above : ι → List α}

theorem live_of_mem (h : ParentForest parent root live head above) {a : α} {i : ι}
    (ha : a ∈ head i :: above i) : live a := (h.live_iff a).mpr ⟨i, ha⟩

theorem live_head (h : ParentForest parent root live head above) (i : ι) : live (head i) :=
  h.live_of_mem List.mem_cons_self

theorem live_root (h : ParentForest parent root live head above) (i : ι) : live (root i) :=
  h.live_of_mem (h.path i).root_mem

/-- The head of a chain is no other chain's root. -/
theorem eq_of_head_eq_root (h : ParentForest parent root live head above) {i j : ι}
    (hij : head i = root j) : i = j := by
  by_contra hne
  exact h.disjoint i j hne List.mem_cons_self (hij ▸ (h.path j).root_mem)

theorem head_injective (h : ParentForest parent root live head above) :
    Function.Injective head := by
  intro i j hij
  by_contra hne
  exact h.disjoint i j hne List.mem_cons_self (hij ▸ List.mem_cons_self)

variable [DecidableEq ι]

/-- An unused entry pushed on a chain. -/
theorem push [DecidableEq α] (h : ParentForest parent root live head above) {a : α}
    (hfree : ¬ live a) (i : ι) (hlive : ∀ b, live' b ↔ b = a ∨ live b) :
    ParentForest (Function.update parent a (head i)) root live' (Function.update head i a)
      (Function.update above i (head i :: above i)) := by
  have hout : ∀ j, a ∉ head j :: above j := fun j ha => hfree (h.live_of_mem ha)
  have hold : ∀ j, ParentChain (Function.update parent a (head i)) (root j)
      (head j :: above j) := by
    intro j
    refine (h.path j).congr fun b hb => Function.update_of_ne ?_ _ _
    rintro rfl
    exact hout j hb
  have hchain : ∀ j, Function.update head i a j :: Function.update above i (head i :: above i) j
      = if j = i then a :: head i :: above i else head j :: above j := by
    intro j
    by_cases hj : j = i
    · rw [if_pos hj, hj, Function.update_self, Function.update_self]
    · rw [if_neg hj, Function.update_of_ne hj, Function.update_of_ne hj]
  have hcons : ∀ {l : List α}, (head i :: above i).Disjoint l → a ∉ l →
      (a :: head i :: above i).Disjoint l := fun hdisj ha =>
    List.disjoint_cons_left.mpr ⟨ha, hdisj⟩
  refine ⟨fun j => ?_, fun j m hne => ?_, fun b => ?_⟩
  · rw [hchain]
    split
    · rename_i hj
      rw [hj]
      exact (hold i).push (hout i) (Function.update_self ..)
    · exact hold j
  · rw [hchain, hchain]
    by_cases hj : j = i
    · rw [if_pos hj, if_neg fun hm => hne (hj.trans hm.symm)]
      exact hcons (hj ▸ h.disjoint j m hne) (hout m)
    · rw [if_neg hj]
      by_cases hm : m = i
      · rw [if_pos hm]
        exact List.disjoint_symm (hcons (hm ▸ List.disjoint_symm (h.disjoint j m hne)) (hout j))
      · rw [if_neg hm]
        exact h.disjoint j m hne
  · rw [hlive, h.live_iff]
    constructor
    · rintro (rfl | ⟨j, hj⟩)
      · refine ⟨i, ?_⟩
        rw [hchain, if_pos rfl]
        exact List.mem_cons_self
      · refine ⟨j, ?_⟩
        rw [hchain]
        split
        · rename_i hji
          exact List.mem_cons_of_mem _ (hji ▸ hj)
        · exact hj
    · rintro ⟨j, hj⟩
      rw [hchain] at hj
      split at hj
      · rcases List.mem_cons.mp hj with hb | hb
        · exact Or.inl hb
        · exact Or.inr ⟨i, hb⟩
      · exact Or.inr ⟨j, hj⟩

/-- The head of a chain of more than its root popped. -/
theorem pop (h : ParentForest parent root live head above) {i : ι} (hroot : head i ≠ root i)
    (hlive : ∀ b, live' b ↔ b ≠ head i ∧ live b) :
    ParentForest parent root live' (Function.update head i (parent (head i)))
      (Function.update above i (above i).tail) := by
  obtain ⟨l, hl⟩ := (h.path i).exists_next hroot
  have hrest : parent (head i) :: (above i).tail = above i := by
    rw [hl]
    rfl
  have hchain : ∀ j, Function.update head i (parent (head i)) j
      :: Function.update above i (above i).tail j
        = if j = i then above i else head j :: above j := by
    intro j
    by_cases hj : j = i
    · rw [if_pos hj, hj, Function.update_self, Function.update_self, hrest]
    · rw [if_neg hj, Function.update_of_ne hj, Function.update_of_ne hj]
  have hsub : ∀ {m}, m ≠ i → (above i).Disjoint (head m :: above m) := fun hm =>
    (List.disjoint_cons_left.mp (h.disjoint i _ (Ne.symm hm))).2
  refine ⟨fun j => ?_, fun j m hne => ?_, fun b => ?_⟩
  · rw [hchain]
    split
    · rename_i hj
      rw [hj]
      exact (h.path i).pop hroot
    · exact h.path j
  · rw [hchain, hchain]
    by_cases hj : j = i
    · rw [if_pos hj, if_neg fun hm => hne (hj.trans hm.symm)]
      exact hsub fun hm => hne (hj.trans hm.symm)
    · rw [if_neg hj]
      by_cases hm : m = i
      · rw [if_pos hm]
        exact List.disjoint_symm (hsub hj)
      · rw [if_neg hm]
        exact h.disjoint j m hne
  · rw [hlive, h.live_iff]
    constructor
    · rintro ⟨hne, j, hj⟩
      refine ⟨j, ?_⟩
      rw [hchain]
      split
      · rename_i hji
        rcases List.mem_cons.mp (hji ▸ hj : b ∈ head i :: above i) with hb | hb
        · exact absurd hb hne
        · exact hb
      · exact hj
    · rintro ⟨j, hj⟩
      rw [hchain] at hj
      split at hj
      · refine ⟨?_, i, List.mem_cons_of_mem _ hj⟩
        rintro rfl
        exact (List.nodup_cons.mp (h.path i).nodup).1 hj
      · rename_i hji
        refine ⟨?_, j, hj⟩
        rintro rfl
        exact h.disjoint j i hji hj List.mem_cons_self

end ParentForest

end Machine
