import Mathlib.Algebra.BigOperators.Group.Finset.Piecewise
import Mathlib.Algebra.BigOperators.Ring.Finset
import Mathlib.Algebra.Order.BigOperators.Group.Finset
import ShaderTree.IndexSet

/-! Sets of indices by inclusion, and how many members they can have. -/
namespace ShaderTree.IndexSet

instance : LE IndexSet := ⟨fun s t => ∀ i, s.mem i = true → t.mem i = true⟩

theorem le_refl (s : IndexSet) : s ≤ s := fun _ h => h

theorem le_trans {s t u : IndexSet} (first : s ≤ t) (second : t ≤ u) : s ≤ u :=
  fun i h => second i (first i h)

theorem empty_le (s : IndexSet) : empty ≤ s := by
  intro i h
  simp at h

theorem le_union_left (s t : IndexSet) : s ≤ s.union t := by
  intro i h
  simp [h]

theorem le_union_right (s t : IndexSet) : t ≤ s.union t := by
  intro i h
  simp [h]

theorem union_le {s t u : IndexSet} (left : s ≤ u) (right : t ≤ u) : s.union t ≤ u := by
  intro i h
  rw [mem_union, Bool.or_eq_true] at h
  rcases h with h | h
  · exact left i h
  · exact right i h

theorem eq_of_mem {s t : IndexSet} (same : ∀ i, s.mem i = t.mem i) : s = t := by
  obtain ⟨a⟩ := s
  obtain ⟨b⟩ := t
  exact congrArg IndexSet.mk (Nat.eq_of_testBit_eq same)

theorem le_antisymm {s t : IndexSet} (left : s ≤ t) (right : t ≤ s) : s = t := by
  apply eq_of_mem
  intro i
  rw [Bool.eq_iff_iff]
  exact ⟨left i, right i⟩

theorem union_eq_self {s t : IndexSet} : s.union t = s ↔ t ≤ s := by
  constructor
  · intro same
    rw [← same]
    exact le_union_right s t
  · intro le
    exact le_antisymm (union_le (le_refl s) le) (le_union_left s t)

/-- All members are below a bound. -/
def Below (s : IndexSet) (bound : Nat) : Prop := ∀ i, s.mem i = true → i < bound

theorem below_empty (bound : Nat) : empty.Below bound := by
  intro i h
  simp at h

theorem Below.union {s t : IndexSet} {bound : Nat} (left : s.Below bound) (right : t.Below bound) :
    (s.union t).Below bound := by
  intro i h
  rw [mem_union, Bool.or_eq_true] at h
  rcases h with h | h
  · exact left i h
  · exact right i h

/-- How many members are below a bound. -/
def count (s : IndexSet) (bound : Nat) : Nat := ((Finset.range bound).filter (s.mem ·)).card

theorem count_le (s : IndexSet) (bound : Nat) : s.count bound ≤ bound := by
  have all := Finset.card_filter_le (Finset.range bound) (s.mem ·)
  rwa [Finset.card_range] at all

theorem count_mono {s t : IndexSet} (le : s ≤ t) (bound : Nat) : s.count bound ≤ t.count bound := by
  apply Finset.card_le_card
  intro i member
  rw [Finset.mem_filter] at member ⊢
  exact ⟨member.1, le i member.2⟩

/-- A set that grows has more members. -/
theorem count_lt {s t : IndexSet} {bound : Nat} (le : s ≤ t) (other : s ≠ t)
    (below : t.Below bound) : s.count bound < t.count bound := by
  have more : ∃ i, t.mem i = true ∧ s.mem i = false := by
    by_contra none
    apply other
    refine le_antisymm le fun i h => ?_
    cases mem : s.mem i with
    | true => rfl
    | false => exact absurd ⟨i, h, mem⟩ none
  obtain ⟨i, inside, outside⟩ := more
  apply Finset.card_lt_card
  refine ⟨?_, ?_⟩
  · intro j member
    rw [Finset.mem_filter] at member ⊢
    exact ⟨member.1, le j member.2⟩
  · intro subset
    have new := subset (Finset.mem_filter.2 ⟨Finset.mem_range.2 (below i inside), inside⟩)
    rw [Finset.mem_filter, outside] at new
    cases new.2

end ShaderTree.IndexSet
