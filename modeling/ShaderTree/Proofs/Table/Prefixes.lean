import ShaderTree.Proofs.Grammar.Productivity
import ShaderTree.Proofs.Table.Chains
import ShaderTree.Proofs.Table.Propagation

/-! What the machine of a built table has read can always be continued to a word of the language:
the symbols on its stack begin a sentential form, and what is missing derives some word. -/
namespace ShaderTree

namespace Grammar

open Relation (ReflTransGen)

variable {g : Grammar} {path : List Symbol} {state : Nat} {i : Item}

/-- Symbols that begin a sentential form, all of whose other symbols are the grammar's own. -/
def Begins (g : Grammar) (xs : List Symbol) : Prop :=
  ∃ ys, ReflTransGen g.Produces [.nonterminal g.start] (xs ++ ys) ∧ ∀ y ∈ ys, g.declares y = true

/-- Replacing the nonterminal behind some symbols of a sentential form. -/
theorem Begins.replace {xs ys : List Symbol} {p : Nat} {production : Production}
    (begins : g.Begins (xs ++ .nonterminal production.lhs :: ys)) (rule : g.IsRule p production) :
    g.Begins (xs ++ production.rhs ++ ys) := by
  obtain ⟨zs, derives, own⟩ := begins
  refine ⟨zs, derives.tail ?_, own⟩
  simpa only [List.append_assoc, List.cons_append] using
    Produces.replace rule xs (ys ++ zs)

/-- What is left of a sentential form may be counted as what is missing. -/
theorem Begins.of_append {xs ys : List Symbol} (begins : g.Begins (xs ++ ys))
    (own : ∀ y ∈ ys, g.declares y = true) : g.Begins xs := by
  obtain ⟨zs, derives, own'⟩ := begins
  refine ⟨ys ++ zs, by rwa [List.append_assoc] at derives, fun y member => ?_⟩
  rcases List.mem_append.1 member with inside | inside
  · exact own y inside
  · exact own' y inside

theorem rhs_eq_cons_of_next {x : Symbol} (next : g.next? i = some x) :
    (g.rhs i.production).drop i.dot = x :: (g.rhs i.production).drop (i.dot + 1) := by
  obtain ⟨bound, is⟩ := List.getElem?_eq_some_iff.1 next
  rw [List.drop_eq_getElem_cons bound, is]

/-- A start of a nonterminal is an item of a production for it, with nothing read. -/
theorem rule_of_mem_startsOf {n : Nat} (start : i ∈ (Analysis.ofGrammar g).startsOf n) :
    i.dot = 0 ∧ ∃ production, g.IsRule i.production production ∧ production.lhs = n ∧
      g.rhs i.production = production.rhs := by
  by_cases bound : n < g.nonterminals.size
  · obtain ⟨dot, production, known, lhs⟩ := (mem_startsOf bound).1 start
    exact ⟨dot, production, ⟨known, lhs ▸ bound⟩, lhs, by simp [Grammar.rhs, known]⟩
  · rw [startsOf_eq_nil bound] at start
    cases start

theorem Declared.declares_rhs (declared : g.Declared) (p : Nat) : ∀ x ∈ g.rhs p, g.declares x = true := by
  intro x member
  unfold Grammar.rhs at member
  cases known : g.productions[p]? with
  | some production =>
    rw [known] at member
    exact declared.rhs _ (Array.mem_toList_iff.2 (Array.mem_of_getElem? known)) x member
  | none =>
    rw [known] at member
    obtain rfl := List.mem_singleton.1 member
    exact decide_eq_true declared.start

/-- If what was read begins a sentential form with what is left of the items of the kernel, it does
so with what is left of the other items of the state. -/
theorem Holds.begins (declared : g.Declared) {xs : List Symbol} (holds : g.Holds state i)
    (kernel : ∀ j ∈ (Analysis.ofGrammar g).kernelOf state,
      g.Begins (xs ++ (g.rhs j.production).drop j.dot)) :
    g.Begins (xs ++ (g.rhs i.production).drop i.dot) := by
  induction holds with
  | kernel member => exact kernel _ member
  | @start i j n before next member ih =>
    obtain ⟨dot, production, rule, lhs, rhs⟩ := rule_of_mem_startsOf member
    rw [rhs_eq_cons_of_next next, ← lhs] at ih
    rw [dot, List.drop_zero, rhs]
    exact (ih.replace rule).of_append fun y member =>
      declared.declares_rhs _ y (List.mem_of_mem_drop member)

/-- Symbols that lead to a state begin a sentential form with what is left of each of its items. -/
theorem Reaches.begins (declared : g.Declared) (reaches : g.Reaches path state)
    (holds : g.Holds state i) : g.Begins (path.reverse ++ (g.rhs i.production).drop i.dot) := by
  induction reaches generalizing i with
  | start =>
    refine holds.begins declared fun j member => ?_
    rw [Analysis.kernelOf_zero, List.mem_singleton] at member
    subst member
    exact ⟨[], by simpa [Grammar.rhs, startItem, startRule] using ReflTransGen.refl, by simp⟩
  | @step path state target x before leads ih =>
    refine holds.begins declared fun j member => ?_
    obtain ⟨i, inside, next, rfl⟩ := (leads.kernel.2 j).1 member
    have front := ih inside
    rw [rhs_eq_cons_of_next next] at front
    simpa [Item.advance] using front

/-- Whatever leads to a state begins a sentential form. -/
theorem Reaches.viable (declared : g.Declared) (reaches : g.Reaches path state) :
    g.Begins path.reverse := by
  have some : ∃ i, g.Holds state i := by
    cases reaches with
    | start => exact ⟨_, holds_startItem g⟩
    | step _ leads =>
      obtain ⟨p, d, holds, _⟩ := leads.exists_moved
      exact ⟨_, holds⟩
  obtain ⟨i, holds⟩ := some
  exact (reaches.begins declared holds).of_append fun y member =>
    declared.declares_rhs _ y (List.mem_of_mem_drop member)

/-- A word derived from the beginning of a sentential form goes on to a word of the language. -/
theorem Begins.exists_derives (valid : g.validate = .ok ()) (declared : g.Declared)
    {xs : List Symbol} {w : List Kind} (begins : g.Begins xs)
    (derives : ReflTransGen g.Produces xs (terminalWord w)) : ∃ u, g.Generates (w ++ u) := by
  obtain ⟨ys, sentence, own⟩ := begins
  obtain ⟨u, ps, parses⟩ := exists_parses_of_yields fun y member =>
    yields_of_validate valid declared (own y member)
  have front : ReflTransGen g.Produces (xs ++ ys) (terminalWord w ++ ys) := by
    simpa using derives_within derives [] ys
  have back : ReflTransGen g.Produces (terminalWord w ++ ys) (terminalWord w ++ terminalWord u) := by
    simpa using derives_within parses.derives (terminalWord w) []
  exact ⟨u, by simpa [Generates] using (sentence.trans front).trans back⟩

end Grammar

namespace Table

variable {g : Grammar} {t : Table}

/-- The valid prefix property: whatever comes behind them and however the table's conflicts were
settled, the terminals that the machine has shifted begin a word of the language. -/
theorem exists_continuation (built : Table.build g = .ok t) (declared : g.Declared)
    {read rest : List Kind} {states ps : List Nat}
    (runs : t.Runs states rest [0] (read ++ rest) ps) : ∃ u, g.Generates (read ++ u) := by
  have from_ := build_ok built
  obtain ⟨path, read', spells, whole, derives⟩ := Grammar.rightDerives_of_runs from_ runs .start
  obtain rfl := List.append_cancel_right whole
  obtain ⟨top, below, rfl⟩ := spells.exists_cons
  exact (spells.reaches.viable declared).exists_derives from_.valid declared derives.produces

/-- A sum that breaks off behind its operator. -/
theorem exists_continuation_sums : ∃ t, Table.build .sums = .ok t ∧
    t.Runs [3, 1, 0] [.semicolon] [0] [.ident, .plus, .semicolon] [1] ∧
      ∃ u, Grammar.sums.Generates ([.ident, .plus] ++ u) := by
  obtain ⟨t, built, ident, name, reduced, plus⟩ := exists_built (g := .sums) (P := fun t =>
    t.action 0 .ident = .shift 2 ∧ t.action 2 .plus = .reduce 1 ∧
      t.reduceStates 1 [2, 0] = some [1, 0] ∧ t.action 1 .plus = .shift 3) (by with_unfolding_all decide)
  have runs : t.Runs [3, 1, 0] [.semicolon] [0] [.ident, .plus, .semicolon] [1] :=
    .shift ident (.reduce name reduced (.shift plus .refl))
  have declared : Grammar.sums.Declared := ⟨by decide, by decide, by decide⟩
  exact ⟨t, built, runs, @exists_continuation _ t built declared [.ident, .plus] _ _ _ runs⟩

end Table

end ShaderTree
