import ShaderTree.Proofs.Grammar.Derivation
import ShaderTree.Proofs.Table.States
import ShaderTree.Table.Drive

/-! What the plain machine of a built table accepts is generated by the grammar: the states on its
stack spell the symbols read, and undoing its actions is a rightmost derivation. -/
namespace ShaderTree

namespace Table

variable {t : Table} {states states' states'' : List Nat} {input input' input'' : List Kind}
  {ps qs : List Nat}

theorem reduceStates_ok {p : Nat} {after : List Nat} (h : t.reduceStates p states = some after) :
    ∃ r base below next, t.reductions[p]? = some r ∧ states.drop r.length = base :: below ∧
      t.goto? base r.lhs = some next ∧ after = next :: base :: below := by
  unfold reduceStates at h
  obtain ⟨r, known, h⟩ := Option.bind_eq_some_iff.1 h
  obtain ⟨base, head, h⟩ := Option.bind_eq_some_iff.1 h
  obtain ⟨next, goto, h⟩ := Option.bind_eq_some_iff.1 h
  obtain ⟨below, dropped⟩ := List.head?_eq_some_iff.1 head
  obtain rfl := Option.some.inj h
  exact ⟨r, base, below, next, known, dropped, goto, by rw [dropped]⟩

theorem reduceStates_eq {p base next : Nat} {below : List Nat} {r : Reduction}
    (known : t.reductions[p]? = some r) (dropped : states.drop r.length = base :: below)
    (goto : t.goto? base r.lhs = some next) :
    t.reduceStates p states = some (next :: base :: below) := by
  unfold reduceStates
  rw [known]
  simp only [Option.bind_eq_bind, Option.bind_some, dropped, List.head?_cons, goto, Option.pure_def]

/-- The machine goes from one stack and input to others, reducing productions in their order. -/
inductive Runs (t : Table) (states' : List Nat) (input' : List Kind) :
    List Nat → List Kind → List Nat → Prop
  | refl : Runs t states' input' states' input' []
  | shift {top next : Nat} {below ps : List Nat} {k : Kind} {input : List Kind}
      (action : t.action top k = .shift next)
      (later : Runs t states' input' (next :: top :: below) input ps) :
      Runs t states' input' (top :: below) (k :: input) ps
  | reduce {top p : Nat} {below after ps : List Nat} {k : Kind} {input : List Kind}
      (action : t.action top k = .reduce p) (reduced : t.reduceStates p (top :: below) = some after)
      (later : Runs t states' input' after (k :: input) ps) :
      Runs t states' input' (top :: below) (k :: input) (p :: ps)

theorem Runs.trans (first : t.Runs states' input' states input ps)
    (second : t.Runs states'' input'' states' input' qs) :
    t.Runs states'' input'' states input (ps ++ qs) := by
  induction first with
  | refl => exact second
  | shift action later ih => exact .shift action ih
  | reduce action reduced later ih => exact .reduce action reduced ih

/-- The machine accepts after some run, and reports what the run reduced. -/
theorem drive_eq_some {fuel : Nat} (h : t.drive fuel states input = some ps) :
    ∃ top below k rest, t.Runs (top :: below) (k :: rest) states input ps ∧
      t.action top k = .accept := by
  fun_induction drive t fuel states input generalizing ps with
  | case1 fuel top below k input next action ih =>
    obtain ⟨last, under, a, rest, runs, accept⟩ := ih h
    exact ⟨last, under, a, rest, .shift action runs, accept⟩
  | case2 fuel top below k input p action ih =>
    obtain ⟨after, reduced, h⟩ := Option.bind_eq_some_iff.1 h
    obtain ⟨qs, driven, h⟩ := Option.bind_eq_some_iff.1 h
    obtain rfl := Option.some.inj h
    obtain ⟨last, under, a, rest, runs, accept⟩ := ih after driven
    exact ⟨last, under, a, rest, .reduce action reduced runs, accept⟩
  | case3 fuel top below k input action =>
    obtain rfl := Option.some.inj h
    exact ⟨top, below, k, input, .refl, action⟩
  | case4 => cases h
  | case5 => cases h

/-- A run that ends in acceptance is found with enough fuel. -/
theorem Runs.drive {top : Nat} {below : List Nat} {k : Kind} {rest : List Kind}
    (runs : t.Runs (top :: below) (k :: rest) states input ps) (accept : t.action top k = .accept) :
    ∃ fuel, t.drive fuel states input = some ps := by
  induction runs with
  | refl => exact ⟨1, by simp [Table.drive, accept]⟩
  | shift action later ih =>
    obtain ⟨fuel, driven⟩ := ih
    exact ⟨fuel + 1, by simp [Table.drive, action, driven]⟩
  | reduce action reduced later ih =>
    obtain ⟨fuel, driven⟩ := ih
    exact ⟨fuel + 1, by simp [Table.drive, action, reduced, driven]⟩

end Table

namespace Grammar

variable {g : Grammar} {t : Table} {path : List Symbol} {states : List Nat} {n : Nat}

/-- A stack of states that symbols, the last one first, lead to one after the other. -/
inductive Spells (g : Grammar) : List Symbol → List Nat → Prop
  | start : Spells g [] [0]
  | step {path : List Symbol} {state target : Nat} {below : List Nat} {x : Symbol}
      (before : Spells g path (state :: below)) (leads : g.Leads state x target) :
      Spells g (x :: path) (target :: state :: below)

theorem Spells.length (spells : g.Spells path states) : states.length = path.length + 1 := by
  induction spells with
  | start => rfl
  | step before leads ih => rw [List.length_cons, ih, List.length_cons]

theorem Spells.reaches {state : Nat} {below : List Nat} (spells : g.Spells path (state :: below)) :
    g.Reaches path state := by
  generalize stack : state :: below = states at spells
  induction spells generalizing state below with
  | start =>
    obtain ⟨rfl, rfl⟩ := List.cons.inj stack
    exact .start
  | step before leads ih =>
    obtain ⟨rfl, _⟩ := List.cons.inj stack
    exact .step (ih rfl) leads

theorem Spells.drop (spells : g.Spells path states) (inside : n ≤ path.length) :
    g.Spells (path.drop n) (states.drop n) := by
  induction spells generalizing n with
  | start =>
    obtain rfl := Nat.le_zero.1 inside
    exact .start
  | step before leads ih =>
    cases n with
    | zero => exact .step before leads
    | succ n => exact ih (Nat.le_of_succ_le_succ inside)

/-- A reduction replaces the right-hand side of a production at the end of what the stack spells. -/
theorem Spells.reduce {p top : Nat} {below after : List Nat} {k : Kind} (built : t.BuiltFrom g)
    (spells : g.Spells path (top :: below)) (action : t.action top k = .reduce p)
    (reduced : t.reduceStates p (top :: below) = some after) :
    ∃ production front, g.IsRule p production ∧ path.reverse = front ++ production.rhs ∧
      g.Spells (.nonterminal production.lhs :: front.reverse) after := by
  obtain ⟨r, base, under, next, known, dropped, goto, rfl⟩ := Table.reduceStates_ok reduced
  obtain ⟨production, found, lhs, length, rhs, _⟩ := Table.reduction_eq built known
  obtain ⟨d, holds, complete, _⟩ := Table.holds_of_reduce built action
  obtain ⟨bound, _, _⟩ := spells.reaches.read holds
  obtain ⟨same, read, _⟩ := spells.reaches.read_complete holds complete
  obtain ⟨inside, leads⟩ := Table.leads_of_goto built goto
  have count : r.length = d := by rw [length, ← rhs, same]
  have beneath := spells.drop bound
  rw [← count, dropped] at beneath
  refine ⟨production, (path.drop d).reverse, ⟨found, lhs ▸ inside⟩, ?_, ?_⟩
  · rw [← rhs, ← read, ← List.reverse_append, List.take_append_drop]
  · rw [List.reverse_reverse, ← lhs, ← count]
    exact .step beneath leads

/-- One more replacement at the end of a derivation. -/
theorem RightDerives.concat {p : Nat} {production : Production} {ps : List Nat}
    {xs front : List Symbol} {w : List Kind}
    (derives : g.RightDerives ps xs (front ++ .nonterminal production.lhs :: terminalWord w))
    (rule : g.IsRule p production) :
    g.RightDerives (ps ++ [p]) xs (front ++ production.rhs ++ terminalWord w) := by
  generalize whole : front ++ .nonterminal production.lhs :: terminalWord w = ys at derives
  induction derives with
  | refl xs =>
    subst whole
    exact .step rule (.refl _)
  | step first later ih => exact .step first (ih whole)

/-- Undone, a run is a rightmost derivation of what it read from what the stack spells at its
end. -/
theorem rightDerives_of_runs {states' ps : List Nat} {input input' : List Kind}
    (built : t.BuiltFrom g) (runs : t.Runs states' input' states input ps)
    (spells : g.Spells path states) :
    ∃ path' read, g.Spells path' states' ∧ input = read ++ input' ∧
      g.RightDerives ps.reverse path'.reverse (path.reverse ++ terminalWord read) := by
  induction runs generalizing path with
  | refl =>
    refine ⟨path, [], spells, rfl, ?_⟩
    rw [terminalWord_nil, List.append_nil]
    exact .refl _
  | @shift top next below ps k input action later ih =>
    obtain ⟨path', read, spells', rfl, derives⟩ :=
      ih (.step spells (Table.leads_of_shift built action))
    refine ⟨path', k :: read, spells', rfl, ?_⟩
    rwa [List.reverse_cons, List.append_assoc] at derives
  | @reduce top p below after ps k input action reduced later ih =>
    obtain ⟨production, front, rule, whole, spelled⟩ := spells.reduce built action reduced
    obtain ⟨path', read, spells', is, derives⟩ := ih spelled
    refine ⟨path', read, spells', is, ?_⟩
    rw [List.reverse_cons, List.reverse_reverse, List.append_assoc] at derives
    rw [List.reverse_cons, whole]
    exact derives.concat rule

/-- Where the table accepts, the start symbol was read. -/
theorem Reaches.eq_of_accept {top : Nat} {k : Kind} (built : t.BuiltFrom g)
    (reaches : g.Reaches path top) (action : t.action top k = .accept) :
    path = [.nonterminal g.start] := by
  obtain ⟨d, holds, started⟩ := Table.holds_of_accept built action
  have rhs : g.rhs g.startRule = [.nonterminal g.start] := by
    simp [Grammar.rhs, Grammar.startRule]
  obtain ⟨_, read, base, further, start⟩ :=
    reaches.read_complete holds (by simpa [rhs] using started)
  have behind : path.drop d = [] := further.eq_nil_of_startItem start
  have whole : path.reverse = [.nonterminal g.start] := by
    rw [← List.take_append_drop d path, behind, List.append_nil, read, rhs]
  simpa using whole

theorem Spells.eq_of_accept {top : Nat} {below : List Nat} {k : Kind} (built : t.BuiltFrom g)
    (spells : g.Spells path (top :: below)) (action : t.action top k = .accept) :
    path = [.nonterminal g.start] :=
  spells.reaches.eq_of_accept built action

end Grammar

/-- A list that ends with its only mark is cut at the mark in one way only. -/
theorem eq_of_append_mark {α : Type} {mark : α} {xs ys zs : List α} (absent : mark ∉ xs)
    (same : xs ++ [mark] = ys ++ mark :: zs) : ys = xs := by
  induction xs generalizing ys with
  | nil =>
    cases ys with
    | nil => rfl
    | cons y ys => simp at same
  | cons x xs ih =>
    rw [List.mem_cons, not_or] at absent
    cases ys with
    | nil => exact absurd (List.cons.inj same).1.symm absent.1
    | cons y ys =>
      obtain ⟨rfl, rest⟩ := List.cons.inj same
      rw [ih absent.2 rest]

namespace Table

open Grammar (terminalWord)

variable {g : Grammar} {t : Table}

/-- Soundness of built tables, however their conflicts were settled: what the machine accepts is
generated, and the productions it reduced, the last one first, are a rightmost derivation of it. -/
theorem rightDerives_of_drive (built : Table.build g = .ok t) {fuel : Nat} {w : List Kind}
    {ps : List Nat} (plain : .eof ∉ w) (accepted : t.drive fuel [0] (w ++ [.eof]) = some ps) :
    g.RightDerives ps.reverse [.nonterminal g.start] (terminalWord w) ∧ g.Generates w := by
  have from_ := build_ok built
  obtain ⟨top, below, k, rest, runs, action⟩ := drive_eq_some accepted
  obtain ⟨path, read, spells, whole, derives⟩ := Grammar.rightDerives_of_runs from_ runs .start
  obtain rfl := eof_of_accept built action
  obtain rfl := eq_of_append_mark plain whole
  obtain rfl := spells.eq_of_accept from_ action
  rw [List.reverse_singleton, List.reverse_nil, List.nil_append] at derives
  exact ⟨derives, derives.produces⟩

end Table

/-- A grammar's table by its evaluation. -/
theorem Table.exists_built {g : Grammar} {P : Table → Prop} [DecidablePred P]
    (evaluates : ((Table.build g).toOption.any fun t => decide (P t)) = true) :
    ∃ t, Table.build g = .ok t ∧ P t := by
  cases built : Table.build g with
  | error e =>
    rw [built] at evaluates
    cases evaluates
  | ok t =>
    rw [built] at evaluates
    exact ⟨t, rfl, of_decide_eq_true evaluates⟩

/-! A language that a precedence level makes unambiguous -/

def Grammar.sums : Grammar :=
  { nonterminals := #[.hidden "sum"]
    levels := #[⟨.left, [.plus]⟩]
    productions := #[⟨0, [.nonterminal 0, .terminal .plus, .nonterminal 0], none⟩,
      ⟨0, [.terminal .ident], none⟩]
    start := 0 }

theorem Table.rightDerives_of_drive_sums : ∃ t, Table.build .sums = .ok t ∧
    t.drive 11 [0] [.ident, .plus, .ident, .plus, .ident, .eof] = some [1, 1, 0, 1, 0] ∧
    Grammar.sums.RightDerives [0, 1, 0, 1, 1] [.nonterminal 0]
      (Grammar.terminalWord [.ident, .plus, .ident, .plus, .ident]) := by
  obtain ⟨t, built, runs⟩ := exists_built (g := .sums) (P := fun t =>
    t.drive 11 [0] [.ident, .plus, .ident, .plus, .ident, .eof] = some [1, 1, 0, 1, 0])
    (by with_unfolding_all decide)
  have plain : Kind.eof ∉ [Kind.ident, .plus, .ident, .plus, .ident] := by decide
  exact ⟨t, built, runs, (rightDerives_of_drive built plain runs).1⟩

end ShaderTree
