import Mathlib.Data.Finset.Card
import Mathlib.Data.Finset.Range
import ShaderTree.Proofs.Grammar.Derivation

/-! Nonterminals at the edge of what other nonterminals derive. Without cycles a nonterminal is above
all that it derives beside nothing, and without hidden left recursion above all that it derives
behind something that can vanish; both orders have ranks. -/
namespace ShaderTree.Grammar

open Relation (ReflTransGen TransGen)

variable {g : Grammar} {xs ys : List Symbol} {a b c : Nat}

/-- A string of symbols derives the empty word. -/
def Vanishes (g : Grammar) (xs : List Symbol) : Prop := ∃ ps, g.Parses xs [] ps

theorem vanishes_nil : g.Vanishes [] := ⟨[], .nil⟩

theorem Vanishes.append (first : g.Vanishes xs) (second : g.Vanishes ys) :
    g.Vanishes (xs ++ ys) := by
  obtain ⟨ps, parses⟩ := first
  obtain ⟨qs, parses'⟩ := second
  exact ⟨ps ++ qs, parses.append parses'⟩

theorem vanishes_of_forall (each : ∀ x ∈ xs, g.Vanishes [x]) : g.Vanishes xs := by
  induction xs with
  | nil => exact vanishes_nil
  | cons x xs ih =>
    exact (each x (.head _)).append (ih fun y member => each y (.tail _ member))

theorem Vanishes.symbol {p : Nat} {production : Production} (rule : g.IsRule p production)
    (rhs : g.Vanishes production.rhs) : g.Vanishes [.nonterminal production.lhs] := by
  obtain ⟨ps, parses⟩ := rhs
  exact ⟨_, .nonterminal rule parses .nil⟩

/-- What a production of one nonterminal has another one between. -/
structure Between (g : Grammar) (a b : Nat) (front back : List Symbol) : Prop where
  inside : b < g.nonterminals.size
  rule : ∃ p production, g.IsRule p production ∧ production.lhs = a ∧
    production.rhs = front ++ .nonterminal b :: back

/-- One nonterminal derives another one and nothing else. -/
def Reproduces (g : Grammar) (a b : Nat) : Prop :=
  ∃ front back, g.Between a b front back ∧ g.Vanishes front ∧ g.Vanishes back

/-- What one nonterminal derives can start with another one. -/
def Corner (g : Grammar) (a b : Nat) : Prop :=
  ∃ front back, g.Between a b front back ∧ g.Vanishes front

/-- The same behind something that vanishes. -/
def HiddenCorner (g : Grammar) (a b : Nat) : Prop :=
  ∃ front back, g.Between a b front back ∧ g.Vanishes front ∧ front ≠ []

/-- What one nonterminal derives can have another one behind something that vanishes. -/
def Behind (g : Grammar) (a b : Nat) : Prop :=
  ∃ m, ReflTransGen g.Corner a m ∧ g.HiddenCorner m b

/-- No nonterminal derives itself and nothing else. -/
def Acyclic (g : Grammar) : Prop := ∀ a, ¬ TransGen g.Reproduces a a

/-- No nonterminal comes again behind something that vanishes. -/
def NoHiddenRecursion (g : Grammar) : Prop :=
  ∀ a b, g.HiddenCorner a b → ¬ ReflTransGen g.Corner b a

theorem HiddenCorner.corner (hidden : g.HiddenCorner a b) : g.Corner a b := by
  obtain ⟨front, back, between, vanishes, _⟩ := hidden
  exact ⟨front, back, between, vanishes⟩

open Classical in
/-- How many of the first numbers a number is related to. -/
noncomputable def reach (r : Nat → Nat → Prop) (bound a : Nat) : Nat :=
  ((Finset.range bound).filter (r a)).card

theorem reach_le (r : Nat → Nat → Prop) (bound a : Nat) : reach r bound a ≤ bound := by
  classical
  unfold reach
  have all := Finset.card_filter_le (Finset.range bound) (r a)
  rwa [Finset.card_range] at all

theorem reach_mono {r : Nat → Nat → Prop} {bound : Nat} (further : ∀ c, r b c → r a c) :
    reach r bound b ≤ reach r bound a := by
  classical
  refine Finset.card_le_card fun c member => ?_
  rw [Finset.mem_filter] at member ⊢
  exact ⟨member.1, further c member.2⟩

theorem reach_lt {r : Nat → Nat → Prop} {bound : Nat} (further : ∀ c, r b c → r a c)
    (inside : c < bound) (new : r a c) (old : ¬ r b c) : reach r bound b < reach r bound a := by
  classical
  refine Finset.card_lt_card ⟨fun d member => ?_, fun subset => ?_⟩
  · rw [Finset.mem_filter] at member ⊢
    exact ⟨member.1, further d member.2⟩
  · have member := subset (Finset.mem_filter.2 ⟨Finset.mem_range.2 inside, new⟩)
    exact old (Finset.mem_filter.1 member).2

/-- Without cycles there are ranks that fall from a nonterminal to what it derives beside nothing. -/
theorem Acyclic.exists_rank (acyclic : g.Acyclic) :
    ∃ rank : Nat → Nat, (∀ a, rank a ≤ g.nonterminals.size) ∧
      ∀ a b, g.Reproduces a b → rank b < rank a := by
  refine ⟨reach (TransGen g.Reproduces) g.nonterminals.size, reach_le _ _, ?_⟩
  intro a b reproduces
  obtain ⟨_, _, between, _⟩ := id reproduces
  exact reach_lt (fun c later => .head reproduces later) between.inside (.single reproduces)
    (acyclic b)

/-- Without hidden left recursion there are ranks that do not rise from a nonterminal to its corners
and fall to its hidden ones. -/
theorem NoHiddenRecursion.exists_rank (none : g.NoHiddenRecursion) :
    ∃ rank : Nat → Nat, (∀ a, rank a ≤ g.nonterminals.size) ∧
      (∀ a b, g.Corner a b → rank b ≤ rank a) ∧ ∀ a b, g.HiddenCorner a b → rank b < rank a := by
  have further {a b : Nat} (corner : g.Corner a b) (c : Nat) (later : g.Behind b c) :
      g.Behind a c := by
    obtain ⟨m, corners, hidden⟩ := later
    exact ⟨m, .head corner corners, hidden⟩
  refine ⟨reach g.Behind g.nonterminals.size, reach_le _ _, ?_, ?_⟩
  · intro a b corner
    exact reach_mono (further corner)
  · intro a b hidden
    obtain ⟨_, _, between, _⟩ := id hidden
    refine reach_lt (further hidden.corner) between.inside ⟨a, .refl, hidden⟩ ?_
    rintro ⟨m, corners, again⟩
    exact none m b again corners

end ShaderTree.Grammar
