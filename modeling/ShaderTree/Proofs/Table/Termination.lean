import ShaderTree.Proofs.Table.Columns
import ShaderTree.Proofs.Table.Drive

/-! The construction of a table comes to its end: each of its loops, taken step by step without a bound,
stops with the result that the bounded function returns, and nothing that it looks up on the way is
missing. -/
namespace ShaderTree

open Relation (ReflTransGen)

namespace Analysis

variable {g : Grammar} {known : Lookaheads} {state : Nat}

/-- One round over the states, if it changes anything. -/
def nextRound (g : Grammar) (known : Lookaheads) : Option Lookaheads :=
  let next := (List.range (Automaton.ofGrammar g).states.size).foldl (Analysis.ofGrammar g).passState known
  if next = known then none else some next

/-- One set of lookaheads is come to from another by rounds. -/
def Rounds (g : Grammar) : Lookaheads → Lookaheads → Prop :=
  ReflTransGen fun known known' => nextRound g known = some known'

theorem rounds_saturate (n : Nat) (known : Lookaheads) :
    Rounds g known ((Analysis.ofGrammar g).saturate n known) := by
  induction n generalizing known with
  | zero => exact .refl
  | succ n ih =>
    unfold saturate
    dsimp only
    split
    · exact .refl
    · rename_i changed
      exact .head (if_neg changed) (ih _)

theorem stops_lookaheads (terminals : Spread.FirstBelow g) :
    Stops (nextRound g) (Analysis.ofGrammar g).initialLookaheads (Analysis.ofGrammar g).lookaheads :=
  ⟨rounds_saturate _ _, if_pos (lookaheads_fixed terminals)⟩

theorem Sound.rounds (terminals : Spread.FirstBelow g) {known' : Lookaheads} (sound : Sound g known)
    (rounds : Rounds g known known') : Sound g known' := by
  induction rounds with
  | refl => exact sound
  | tail _ step ih =>
    unfold nextRound at step
    dsimp only at step
    split at step
    · cases step
    · exact Option.some.inj step ▸ ih.round terminals _

/-- A pass over one state comes to the end of its work, and finds what it looks up for each item in
front of a symbol: the state that the symbol leads to, the place of the item behind the symbol in its
kernel, and the lookaheads kept for that place. -/
structure Passes (g : Grammar) (known : Lookaheads) (state : Nat) : Prop where
  work : Stops (Spread.workNext (.ofGrammar g) (ownIn (knownKernel g known state)))
    (((Analysis.ofGrammar g).kernelOf state).reverse, .empty g.nonterminals.size)
    ([], spreadOf g (knownKernel g known state))
  lookups : ∀ front entry back x,
    (Analysis.ofGrammar g).itemsWith known state = front ++ entry :: back → g.next? entry.1 = some x →
    ∃ target slot set, (Analysis.ofGrammar g).target? state x = some target ∧
      ((Analysis.ofGrammar g).kernelOf target).findIdx? (· = entry.1.advance) = some slot ∧
      setAt (front.foldl ((Analysis.ofGrammar g).passItem state) known) target slot = some set

theorem Sound.passes (terminals : Spread.FirstBelow g) (sound : Sound g known) (state : Nat) :
    Passes g known state := by
  constructor
  · obtain ⟨_, _, work⟩ := settled_spreadOf (isKnown_knownKernel sound state) terminals
    rwa [items_knownKernel sound] at work
  · intro front entry back x split next
    have inside : entry ∈ (Analysis.ofGrammar g).itemsWith known state := by simp [split]
    have holds : g.Holds state entry.1 := itemsWith_sound inside
    obtain ⟨target, leads⟩ := Grammar.exists_leads holds next
    have member := (leads.kernel.2 entry.1.advance).2 ⟨entry.1, holds, next, rfl⟩
    have partial' : Sound g (front.foldl ((Analysis.ofGrammar g).passItem state) known) := by
      apply foldl_induction sound
      intro now before here next
      have inside : before ∈ (Analysis.ofGrammar g).itemsWith known state := by simp [split, here]
      exact next.passItem (fun _ mem => itemsWith_looks sound inside mem)
        (itemsWith_below terminals sound inside)
    cases index : ((Analysis.ofGrammar g).kernelOf target).findIdx? (· = entry.1.advance) with
    | none =>
      have absent := List.findIdx?_eq_none_iff.1 index _ member
      simp at absent
    | some slot =>
      obtain ⟨bound, is, _⟩ := List.findIdx?_eq_some_iff_getElem.1 index
      obtain ⟨set, there⟩ := setAt_eq_some partial' (List.getElem?_eq_getElem bound)
      exact ⟨target, slot, set, Grammar.target?_eq.2 leads, index, there⟩

end Analysis

namespace Automaton

variable {g : Grammar}

theorem kernels_eq {kernels : Array (List Item)} {starts : Nat → List Item}
    {done : Array AutomatonState} (explored : Explored g starts kernels done)
    (size : kernels.size = done.size) : kernels = done.map (·.kernel) := by
  apply Array.ext (by simpa using size)
  intro i inside bound
  rw [Array.size_map] at bound
  have here := explored.kernel i _ (Array.getElem?_eq_getElem bound)
  rw [Array.getElem?_eq_getElem inside] at here
  simpa using Option.some.inj here

end Automaton

namespace Grammar

variable {g : Grammar}

/-- The construction of the table of a valid grammar stops. The exploration finds finitely many kernels,
none of them twice, and a row of transitions for each; the queue of every closure and the work on the
lookaheads of every state run empty; the rounds reach lookaheads that another round leaves as they are;
and every pass of a round finds what it looks up. -/
theorem construction_stops (valid : g.validate = .ok ()) :
    (∃ kernels, Stops (Automaton.exploreNext g) (#[[g.startItem]], #[])
        (kernels, (Automaton.ofGrammar g).states) ∧
      kernels = (Automaton.ofGrammar g).states.map (·.kernel) ∧ kernels.toList.Nodup ∧
      kernels.size ≤ 2 ^ Automaton.itemCount g) ∧
    (∀ kernel, ∃ seen, Stops g.closeNext ([], kernel, .empty)
      (g.closure (Analysis.ofGrammar g).startsOf kernel, [], seen)) ∧
    Stops (Analysis.nextRound g) (Analysis.ofGrammar g).initialLookaheads
      (Analysis.ofGrammar g).lookaheads ∧
    ∀ known, Analysis.Rounds g (Analysis.ofGrammar g).initialLookaheads known →
      ∀ before state after,
        List.range (Automaton.ofGrammar g).states.size = before ++ state :: after →
        Analysis.Passes g (before.foldl (Analysis.ofGrammar g).passState known) state := by
  have terminals := firstBelow valid
  obtain ⟨kernels, explored, found, size, stops⟩ :=
    Automaton.stops_ofGrammar (Automaton.inductive_isStateKernel g)
  refine ⟨⟨kernels, stops, Automaton.kernels_eq explored size, found.distinct, ?_⟩, stops_closure,
    Analysis.stops_lookaheads terminals, ?_⟩
  · exact length_kernels_le found.distinct found.known
  · intro known rounds before state after _
    have sound := (Analysis.sound_initialLookaheads g).rounds terminals rounds
    exact (sound.round terminals before).passes terminals state

theorem construction_stops_sums : sums.validate = .ok () ∧
    (∃ kernels, Stops (Automaton.exploreNext sums) (#[[sums.startItem]], #[])
      (kernels, (Automaton.ofGrammar sums).states) ∧ kernels.size = 5) ∧
    Analysis.Passes sums (Analysis.ofGrammar sums).initialLookaheads 0 := by
  have valid : sums.validate = .ok () := by decide
  obtain ⟨⟨kernels, stops, rfl, _⟩, _, _, passes⟩ := construction_stops valid
  have five : (Automaton.ofGrammar sums).states.size = 5 := by with_unfolding_all decide
  refine ⟨valid, ⟨_, stops, by simpa using five⟩, ?_⟩
  exact passes _ .refl [] 0 [1, 2, 3, 4] (by rw [five]; rfl)

end Grammar

end ShaderTree
