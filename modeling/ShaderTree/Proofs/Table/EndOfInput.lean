import ShaderTree.Proofs.Table.Completeness
import ShaderTree.Proofs.Table.Conflicts

/-! What a built table does at the end of input. Nothing is shifted there, so the levels have only
complete items to choose from: behind the start symbol the table accepts, and in front of it the
table reduces what makes the start symbol from nothing. A start symbol that stands in no production
is reduced nowhere else. -/
namespace ShaderTree

namespace Grammar

variable {g : Grammar} {state : Nat}

theorem shiftOn_eof (valid : g.validate = .ok ()) (state : Nat) : g.shiftOn state .eof = .error :=
  shiftOn_eq_error.2 fun _ leads => ne_eof_of_leads valid leads rfl

/-- The complete start item offers acceptance. -/
theorem accept_mem_offers (valid : g.validate = .ok ())
    (leads : g.Leads 0 (.nonterminal g.start) state) : .accept ∈ g.offers state .eof := by
  refine (mem_offers valid).2
    ⟨g.startItem.advance, .pass .start g.next?_startItem leads, ?_, ?_⟩
  · simp [IsComplete, rhs, startItem, startRule, Item.advance]
  · exact (if_pos rfl).symm

/-- A production that makes the start symbol from nothing is offered in the first state. -/
theorem reduce_mem_offers_start (valid : g.validate = .ok ()) {p : Nat} {production : Production}
    (rule : g.IsRule p production) (lhs : production.lhs = g.start) (empty : production.rhs = []) :
    .reduce p ∈ g.offers 0 .eof := by
  have inside := (Array.getElem?_eq_some_iff.1 rule.1).1
  have behind : (g.rhs g.startRule).drop 0 = [.nonterminal production.lhs] := by
    simp [Grammar.rhs, startRule, lhs]
  refine (reduce_mem_offers valid).2 ⟨Nat.ne_of_lt inside, 0, ?_, ?_⟩
  · have input : [] ++ [Kind.eof] = [.eof] := rfl
    exact looks_start behind rule .start .nil input
  · rw [rhs, rule.1]
    exact Nat.le_of_eq (congrArg List.length empty)

section Outside

/-! A start symbol that stands in no right-hand side -/

variable {i : Item} (outside : ∀ p ∈ g.productions.toList, .nonterminal g.start ∉ p.rhs)

include outside

theorem eq_startItem_of_next (holds : g.Holds state i)
    (next : g.next? i = some (.nonterminal g.start)) : i = g.startItem := by
  rcases Nat.lt_or_eq_of_le (isItem_of_holds holds).1 with inside | isStart
  · have known := Array.getElem?_eq_getElem inside
    refine absurd (List.mem_of_getElem? next) ?_
    rw [rhs, known]
    exact outside _ (Array.mem_toList_iff.2 (Array.getElem_mem inside))
  · obtain ⟨production, dot⟩ := i
    subst isStart
    have bound := (List.getElem?_eq_some_iff.1 next).1
    simp only [rhs, startRule, Array.getElem?_size, List.length_singleton, Nat.lt_one_iff] at bound
    exact congrArg _ bound

/-- Only the end of input follows the start symbol. -/
theorem eof_of_looks {c : Nat} (looks : g.Looks state i c) (own : i.production = g.startRule ∨
    ∃ production, g.productions[i.production]? = some production ∧ production.lhs = g.start) :
    c = Kind.eof.index := by
  have above {i j : Item} {n state : Nat} (holds : g.Holds state i)
      (next : g.next? i = some (.nonterminal n)) (start : j ∈ (Analysis.ofGrammar g).startsOf n)
      (own : j.production = g.startRule ∨
        ∃ production, g.productions[j.production]? = some production ∧ production.lhs = g.start) :
      i = g.startItem := by
    obtain ⟨_, production, known, lhs⟩ := Analysis.startsOf_ofGrammar start
    rcases own with isStart | ⟨production', known', lhs'⟩
    · exact absurd isStart (Analysis.production_ne_startRule start)
    · obtain rfl := Option.some.inj (known.symm.trans known')
      exact eq_startItem_of_next outside holds (next.trans (by rw [← lhs, lhs']))
  induction looks with
  | start => rfl
  | first holds next start first =>
    obtain rfl := above holds next start own
    simp [Spread.behind, Analysis.ofGrammar, rhs, startItem, startRule, First.ofSymbols, First.empty]
      at first
  | inherit looks next start _ ih =>
    exact ih (.inl (congrArg Item.production (above looks.holds next start own)))
  | pass _ _ _ ih => exact ih own

/-- A production of the start symbol starts where the parse does. -/
theorem holds_startItem_of_start {p : Nat} {production : Production} (rule : g.IsRule p production)
    (lhs : production.lhs = g.start) (holds : g.Holds state ⟨p, 0⟩) : g.Holds state g.startItem := by
  unfold Holds at holds
  cases holds with
  | kernel member =>
    rcases (g.isStateKernel_kernelOf state).inside _ member with moved | isStart
    · exact absurd rfl moved
    · exact absurd isStart (Nat.ne_of_lt (Array.getElem?_eq_some_iff.1 rule.1).1)
  | @start i _ n before next start =>
    obtain ⟨_, production', known, lhs'⟩ := Analysis.startsOf_ofGrammar start
    obtain rfl := Option.some.inj (known.symm.trans rule.1)
    rw [← lhs', lhs] at next
    exact eq_startItem_of_next outside before next ▸ before

end Outside

end Grammar

namespace Table

variable {g : Grammar} {t : Table} {state : Nat} {a : Action}

/-- What an entry reduces is complete in the state, and the terminal can follow it there. -/
theorem completes_of_reduce (built : t.BuiltFrom g) {k : Kind} {p : Nat}
    (action : t.action state k = .reduce p) : g.Completes state k p := by
  obtain ⟨row, found, entry⟩ := action_eq (by simp) action
  obtain ⟨e, member, complete, lookahead, is⟩ :=
    buildRow_justified (built.row state row found) k.index _ entry
  have sound := Analysis.sound_lookaheads (Grammar.firstBelow built.valid)
  refine (Grammar.reduce_mem_offers built.valid).1 ((Grammar.mem_offers built.valid).2 ?_)
  exact ⟨e.1, Analysis.itemsWith_looks sound member lookahead, complete, is⟩

/-- At the end of input an entry is one of the actions that are offered. -/
theorem settled_eof (built : t.BuiltFrom g) (offered : a ∈ g.offers state .eof) :
    g.Settled .eof .error (g.offers state .eof) (t.action state .eof) := by
  obtain ⟨i, looks, _, _⟩ := (Grammar.mem_offers built.valid).1 offered
  obtain ⟨s, known⟩ := Grammar.exists_of_holds looks.holds
  rw [← Grammar.shiftOn_eof built.valid state]
  exact settled_action built known (by decide) fun p target leads =>
    absurd rfl (Grammar.ne_eof_of_leads built.valid leads)

theorem action_eof_ne_error (built : t.BuiltFrom g) (offered : a ∈ g.offers state .eof) :
    t.action state .eof ≠ .error := by
  intro none
  have settled := settled_eof built offered
  rw [none] at settled
  exact List.ne_nil_of_mem offered settled.2

/-- Behind the start symbol the table accepts. -/
theorem action_eof_accept (built : t.BuiltFrom g) (leads : g.Leads 0 (.nonterminal g.start) state) :
    t.action state .eof = .accept := by
  have offered := Grammar.accept_mem_offers built.valid leads
  have settled := settled_eof built offered
  cases entry : t.action state .eof with
  | accept => rfl
  | error => exact absurd entry (action_eof_ne_error built offered)
  | shift target =>
    rw [entry] at settled
    cases settled.1
  | reduce p =>
    rw [entry] at settled
    obtain ⟨q, is, _⟩ := settled.2.1 .accept offered (by simp)
    cases is

/-- In front of the start symbol the table reduces the only production that needs no symbols. -/
theorem action_eof_reduce (built : t.BuiltFrom g) {p : Nat} {production : Production}
    (rule : g.IsRule p production) (lhs : production.lhs = g.start) (empty : production.rhs = [])
    (only : ∀ q, g.rhs q = [] → q = p) : t.action 0 .eof = .reduce p := by
  have offered := Grammar.reduce_mem_offers_start built.valid rule lhs empty
  have settled := settled_eof built offered
  cases entry : t.action 0 .eof with
  | error => exact absurd entry (action_eof_ne_error built offered)
  | shift target =>
    rw [entry] at settled
    cases settled.1
  | accept =>
    rw [entry] at settled
    cases settled.2.2 _ offered
  | reduce q =>
    rw [entry] at settled
    obtain ⟨_, d, looks, complete⟩ := (Grammar.reduce_mem_offers built.valid).1 settled.1
    have dot : d = 0 := Grammar.dot_eq_zero looks.holds
    rw [dot, Nat.le_zero, List.length_eq_zero_iff] at complete
    rw [only q complete]

end Table

end ShaderTree
