import ShaderTree.Language
import ShaderTree.Proofs.Grammar.Expansion
import ShaderTree.Proofs.Grammar.Productivity
import ShaderTree.Proofs.Grammar.Validity
import ShaderTree.Proofs.Table.EndOfInput
import ShaderTree.Proofs.Table.Meetings

/-! The built-in grammar has a table: it is valid, and no two items that meet in one of its states
are in conflict, apart from those that its levels settle. -/
namespace ShaderTree.Metal

set_option maxRecDepth 10000 in
theorem validate_grammar : grammar.validate = .ok () := by
  have rounds : 2 ≤ grammar.nonterminals.size ∧ 7 ≤ grammar.nonterminals.size := by decide
  exact Grammar.validate_eq_ok (by decide) (by decide) rounds.1 rounds.2
    (by decide +kernel) (by decide +kernel)

set_option maxRecDepth 20000 in
theorem covers_ahead : (Ahead.ofGrammar grammar).Covers grammar = true := by decide

set_option maxRecDepth 20000 in
theorem declared : grammar.Declared := ⟨by decide, by decide, by decide⟩

def meetings : Meetings := .ofGrammar grammar

set_option maxRecDepth 10000 in
/-- There are no conflicts in the grammar that its levels leave open. -/
theorem checks_meetings : meetings.Checks (.ofGrammar grammar) grammar = true := by decide

set_option maxRecDepth 10000 in
theorem fitsWords_grammar : Table.fitsWords grammar = true := by decide

theorem exists_table : ∃ t, table = .ok t :=
  Meetings.exists_build validate_grammar fitsWords_grammar covers_ahead checks_meetings

theorem namesNodes : grammar.NamesNodes := by
  have kinds : (grammar.nonterminals.toList.filterMap (·.node?)).Nodup := by decide
  have own : ∀ k ∈ grammar.nonterminals.toList.filterMap (·.node?),
      k ≠ .error ∧ k ≠ .missing ∧ k ≠ .sourceFile := by decide
  exact Grammar.namesNodes_of_nodup kinds own

set_option maxRecDepth 2000 in
/-- The production of the empty program. -/
theorem isRule_program : grammar.IsRule 0 ⟨grammar.start, [], none⟩ := ⟨rfl, by decide⟩

set_option maxRecDepth 20000 in
/-- No other production needs no symbols. -/
theorem eq_zero_of_rhs {p : Nat} (empty : grammar.rhs p = []) : p = 0 := by
  have others : ∀ r ∈ grammar.productions.toList.drop 1, r.rhs ≠ [] := by decide
  unfold Grammar.rhs at empty
  cases known : grammar.productions[p]? with
  | none =>
    rw [known] at empty
    cases empty
  | some r =>
    rw [known] at empty
    cases p with
    | zero => rfl
    | succ p =>
      rw [← Array.getElem?_toList] at known
      refine absurd empty (others r (List.mem_of_getElem? (i := p) ?_))
      rw [List.getElem?_drop, Nat.add_comm, known]

variable {t : Table}

theorem action_start_eof (built : table = .ok t) : t.action 0 .eof = .reduce 0 :=
  Table.action_eof_reduce (Table.build_ok built) isRule_program rfl rfl fun _ => eq_zero_of_rhs

end ShaderTree.Metal
