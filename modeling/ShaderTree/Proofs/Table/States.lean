import ShaderTree.Proofs.Table.Items

/-! Items and transitions of the states of a grammar's automaton, and what the entries of a built
table say about them. -/
namespace ShaderTree

namespace Grammar

variable {g : Grammar} {state target : Nat} {x : Symbol} {i : Item}

/-- An item of a state. -/
def Holds (g : Grammar) (state : Nat) (i : Item) : Prop :=
  g.InClosure (Analysis.ofGrammar g).startsOf ((Analysis.ofGrammar g).kernelOf state) i

/-- A transition of a state. -/
def Leads (g : Grammar) (state : Nat) (x : Symbol) (target : Nat) : Prop :=
  ∃ s, (Automaton.ofGrammar g).states[state]? = some s ∧ (x, target) ∈ s.transitions

theorem kernelOf_eq {s : AutomatonState} (found : (Automaton.ofGrammar g).states[state]? = some s) :
    (Analysis.ofGrammar g).kernelOf state = s.kernel := by
  unfold Analysis.kernelOf
  rw [show (Analysis.ofGrammar g).automaton = Automaton.ofGrammar g from rfl, found]

/-- An item is in the kernel of its state or starts a nonterminal. -/
theorem Holds.cases (h : g.Holds state i) :
    i ∈ (Analysis.ofGrammar g).kernelOf state ∨ ∃ n, i ∈ (Analysis.ofGrammar g).startsOf n := by
  cases h with
  | kernel member => exact .inl member
  | start before next member => exact .inr ⟨_, member⟩

theorem exists_of_holds (h : g.Holds state i) :
    ∃ s, (Automaton.ofGrammar g).states[state]? = some s := by
  cases found : (Automaton.ofGrammar g).states[state]? with
  | some s => exact ⟨s, rfl⟩
  | none =>
    have empty : (Analysis.ofGrammar g).kernelOf state = [] := by
      unfold Analysis.kernelOf
      rw [show (Analysis.ofGrammar g).automaton = Automaton.ofGrammar g from rfl, found]
    unfold Holds at h
    rw [empty] at h
    induction h with
    | kernel member => cases member
    | start before next member ih => exact ih

/-- An item whose dot has moved comes from the state in front. -/
theorem Leads.before {p d : Nat} (leads : g.Leads state x target)
    (h : g.Holds target ⟨p, d + 1⟩) : g.Holds state ⟨p, d⟩ ∧ (g.rhs p)[d]? = some x := by
  obtain ⟨s, found, transition⟩ := leads
  obtain ⟨s', there⟩ := exists_of_holds h
  rcases h.cases with member | ⟨n, start⟩
  · rw [kernelOf_eq there] at member
    obtain ⟨k, inside, next, is⟩ := (Automaton.transition_sound found transition there).2 _ member
    obtain ⟨p', d'⟩ := k
    simp only [Item.advance, Item.mk.injEq, Nat.add_right_cancel_iff] at is
    obtain ⟨rfl, rfl⟩ := is
    unfold Holds
    rw [kernelOf_eq found]
    exact ⟨inside, next⟩
  · have dot := (Analysis.startsOf_ofGrammar start).1
    cases dot

/-- No transition leads to a state with the start item. -/
theorem Leads.not_startItem (leads : g.Leads state x target) : ¬ g.Holds target g.startItem := by
  intro h
  obtain ⟨s, found, transition⟩ := leads
  obtain ⟨s', there⟩ := exists_of_holds h
  rcases h.cases with member | ⟨n, start⟩
  · rw [kernelOf_eq there] at member
    obtain ⟨k, _, _, is⟩ := (Automaton.transition_sound found transition there).2 _ member
    have dots := congrArg Item.dot is
    simp [startItem, Item.advance] at dots
  · exact Analysis.production_ne_startRule start rfl

/-- Nothing was read in the first state. -/
theorem dot_eq_zero (h : g.Holds 0 i) : i.dot = 0 := by
  obtain ⟨s, found⟩ := exists_of_holds h
  rcases h.cases with member | ⟨n, start⟩
  · rw [kernelOf_eq found, Automaton.kernel_start found, List.mem_singleton] at member
    rw [member]
    rfl
  · exact (Analysis.startsOf_ofGrammar start).1

/-- Symbols that lead from the first state to a state, the last one first. -/
inductive Reaches (g : Grammar) : List Symbol → Nat → Prop
  | start : Reaches g [] 0
  | step {path : List Symbol} {state target : Nat} {x : Symbol} (before : Reaches g path state)
      (leads : g.Leads state x target) : Reaches g (x :: path) target

/-- What stands in front of the dot of an item was read last, and in front of that the item was in
the state with its dot in front. -/
theorem Reaches.read {path : List Symbol} {p d : Nat} (reaches : g.Reaches path state)
    (h : g.Holds state ⟨p, d⟩) :
    d ≤ path.length ∧ (path.take d).reverse = (g.rhs p).take d ∧
      ∃ base, g.Reaches (path.drop d) base ∧ g.Holds base ⟨p, 0⟩ := by
  induction d generalizing path state with
  | zero => exact ⟨Nat.zero_le _, rfl, state, reaches, h⟩
  | succ d ih =>
    cases reaches with
    | start => cases dot_eq_zero h
    | @step path before _ x reaches leads =>
      obtain ⟨inside, symbol⟩ := leads.before h
      obtain ⟨bound, same, base, further, start⟩ := ih reaches inside
      refine ⟨Nat.succ_le_succ bound, ?_, base, further, start⟩
      rw [List.take_succ_cons, List.reverse_cons, same, List.take_add_one, symbol]
      rfl

/-- The right-hand side of a complete item was read last. -/
theorem Reaches.read_complete {path : List Symbol} {p d : Nat} (reaches : g.Reaches path state)
    (h : g.Holds state ⟨p, d⟩) (complete : (g.rhs p).length ≤ d) :
    (g.rhs p).length = d ∧ (path.take d).reverse = g.rhs p ∧
      ∃ base, g.Reaches (path.drop d) base ∧ g.Holds base ⟨p, 0⟩ := by
  obtain ⟨bound, read, base, further, start⟩ := reaches.read h
  rw [List.take_of_length_le complete] at read
  have lengths := congrArg List.length read
  rw [List.length_reverse, List.length_take, Nat.min_eq_left bound] at lengths
  exact ⟨lengths.symm, read, base, further, start⟩

theorem Reaches.eq_nil_of_startItem {path : List Symbol} (reaches : g.Reaches path state)
    (h : g.Holds state g.startItem) : path = [] := by
  cases reaches with
  | start => rfl
  | step before leads => exact absurd h leads.not_startItem

end Grammar

namespace Table

variable {g : Grammar} {t : Table} {state : Nat} {k : Kind}

theorem action_eq {a : Action} (known : a ≠ .error) (h : t.action state k = a) :
    ∃ row, t.rows[state]? = some row ∧ row.actions[k.index]? = some a := by
  unfold Table.action at h
  cases found : t.rows[state]? with
  | none =>
    rw [found] at h
    exact absurd h.symm known
  | some row =>
    rw [found] at h
    dsimp only at h
    cases entry : row.actions[k.index]? with
    | none =>
      rw [entry, Option.getD_none] at h
      exact absurd h.symm known
    | some b =>
      rw [entry, Option.getD_some] at h
      exact ⟨row, rfl, h ▸ entry⟩

theorem exists_state (built : BuiltFrom g t) {row : Row} (found : t.rows[state]? = some row) :
    ∃ s, (Automaton.ofGrammar g).states[state]? = some s := by
  have bound := (Array.getElem?_eq_some_iff.1 found).1
  rw [built.stateCount] at bound
  exact ⟨_, Array.getElem?_eq_getElem bound⟩

theorem leads_of_shift (built : BuiltFrom g t) {next : Nat}
    (action : t.action state k = .shift next) : g.Leads state (.terminal k) next := by
  obtain ⟨row, found, entry⟩ := action_eq (by simp) action
  obtain ⟨s, there⟩ := exists_state built found
  obtain ⟨k', same, transition⟩ := buildRow_justified (built.row state row found) k.index _ entry
  obtain rfl := Kind.index_injective same
  refine ⟨s, there, ?_⟩
  change (_, _) ∈ (((Automaton.ofGrammar g).states[state]?).map (·.transitions)).getD []
    at transition
  rw [there] at transition
  exact transition

theorem holds_of_justified (built : BuiltFrom g t) {a : Action} (known : a ≠ .error)
    (notShift : ∀ next, a ≠ .shift next) (action : t.action state k = a) :
    ∃ i, g.Holds state i ∧ g.IsComplete i ∧ a = g.actionOf i := by
  obtain ⟨row, found, entry⟩ := action_eq known action
  have reason := buildRow_justified (built.row state row found) k.index _ entry
  cases a with
  | error => exact absurd rfl known
  | shift next => exact absurd rfl (notShift next)
  | reduce p =>
    obtain ⟨e, member, complete, _, is⟩ := reason
    exact ⟨e.1, Analysis.itemsWith_sound member, complete, is⟩
  | accept =>
    obtain ⟨e, member, complete, _, is⟩ := reason
    exact ⟨e.1, Analysis.itemsWith_sound member, complete, is⟩

theorem holds_of_reduce (built : BuiltFrom g t) {p : Nat} (action : t.action state k = .reduce p) :
    ∃ d, g.Holds state ⟨p, d⟩ ∧ (g.rhs p).length ≤ d ∧ p ≠ g.startRule := by
  obtain ⟨⟨q, d⟩, holds, complete, is⟩ := holds_of_justified built (by simp) (by simp) action
  unfold Grammar.actionOf at is
  split at is
  · cases is
  · rename_i other
    obtain rfl := Action.reduce.inj is
    exact ⟨d, holds, complete, other⟩

theorem holds_of_accept (built : BuiltFrom g t) (action : t.action state k = .accept) :
    ∃ d, g.Holds state ⟨g.startRule, d⟩ ∧ 1 ≤ d := by
  obtain ⟨⟨q, d⟩, holds, complete, is⟩ := holds_of_justified built (by simp) (by simp) action
  unfold Grammar.actionOf at is
  split at is
  · rename_i start
    dsimp only at start
    subst start
    refine ⟨d, holds, ?_⟩
    unfold Grammar.IsComplete Grammar.rhs Grammar.startRule at complete
    simpa using complete
  · cases is

/-- The gotos of a row are the transitions over nonterminals. -/
theorem mem_of_gotoRow {count n next : Nat} {transitions : List (Symbol × Nat)}
    (entry : (gotoRow count transitions)[n]?.join = some next) :
    n < count ∧ (.nonterminal n, next) ∈ transitions := by
  have all : (gotoRow count transitions).size = count ∧ ∀ n next,
      (gotoRow count transitions)[n]? = some (some next) →
        (.nonterminal n, next) ∈ transitions := by
    unfold gotoRow
    apply foldl_induction (P := fun row : Array (Option Nat) => row.size = count ∧
      ∀ n next : Nat, row[n]? = some (some next) → (.nonterminal n, next) ∈ transitions)
    · refine ⟨Array.size_replicate, ?_⟩
      intro n next found
      rw [Array.getElem?_replicate] at found
      split at found <;> simp at found
    · rintro row ⟨x, target⟩ member ⟨size, known⟩
      cases x with
      | terminal k => exact ⟨size, known⟩
      | nonterminal m =>
        refine ⟨by simp [size], ?_⟩
        intro n next found
        rw [Array.getElem?_setIfInBounds] at found
        split at found
        · rename_i same
          subst same
          split at found
          · obtain rfl := Option.some.inj (Option.some.inj found)
            exact member
          · cases found
        · exact known n next found
  cases found : (gotoRow count transitions)[n]? with
  | none => simp [found] at entry
  | some e =>
    have bound := (Array.getElem?_eq_some_iff.1 found).1
    rw [found, Option.join_some] at entry
    exact ⟨all.1 ▸ bound, all.2 n next (entry ▸ found)⟩

/-- How the row of a state was made. -/
theorem row_eq (built : BuiltFrom g t) {row : Row} {s : AutomatonState}
    (found : t.rows[state]? = some row) (known : (Automaton.ofGrammar g).states[state]? = some s) :
    ((Analysis.ofGrammar g).itemsWith (Analysis.ofGrammar g).lookaheads state).foldlM
        (enterItem g state) (shiftRow s.transitions) = .ok row.actions ∧
      row.gotos = gotoRow g.nonterminals.size s.transitions := by
  have made := built.row state row found
  have isState : (Analysis.ofGrammar g).automaton.states[state]? = some s := known
  unfold buildRow at made
  dsimp only at made
  rw [isState, Option.map_some, Option.getD_some] at made
  cases entered : ((Analysis.ofGrammar g).itemsWith (Analysis.ofGrammar g).lookaheads state).foldlM
      (enterItem (Analysis.ofGrammar g).grammar state) (shiftRow s.transitions) with
  | error e =>
    rw [entered] at made
    cases made
  | ok actions =>
    rw [entered] at made
    obtain rfl := Except.ok.inj made
    exact ⟨entered, rfl⟩

theorem leads_of_goto (built : BuiltFrom g t) {n next : Nat} (goto : t.goto? state n = some next) :
    n < g.nonterminals.size ∧ g.Leads state (.nonterminal n) next := by
  unfold goto? at goto
  cases found : t.rows[state]? with
  | none =>
    rw [found] at goto
    cases goto
  | some row =>
    rw [found] at goto
    obtain ⟨s, there⟩ := exists_state built found
    dsimp only at goto
    rw [(row_eq built found there).2] at goto
    obtain ⟨bound, transition⟩ := mem_of_gotoRow goto
    exact ⟨bound, s, there, transition⟩

/-- What a reduction knows of its production. -/
theorem reduction_eq (built : BuiltFrom g t) {p : Nat} {r : Reduction}
    (known : t.reductions[p]? = some r) :
    ∃ production, g.productions[p]? = some production ∧ r.lhs = production.lhs ∧
      r.length = production.rhs.length ∧ g.rhs p = production.rhs ∧
      r.node? = g.nonterminals[production.lhs]?.bind (·.node?) := by
  rw [built.reductions, reductionsOf, Array.getElem?_map] at known
  cases found : g.productions[p]? with
  | none => simp [found] at known
  | some production =>
    rw [found, Option.map_some, Option.some.injEq] at known
    subst known
    refine ⟨production, rfl, rfl, rfl, ?_, rfl⟩
    rw [Grammar.rhs, found]

theorem nonterminal_of_node (built : BuiltFrom g t) {n : Nat} (h : t.nonterminalOf? k = some n) :
    ∃ m, g.nonterminals[n]? = some m ∧ m.node? = some k := by
  unfold nonterminalOf? at h
  obtain ⟨r, found, rfl⟩ := Option.map_eq_some_iff.1 h
  have node : r.node? = some k := by simpa using List.find?_some found
  have member : r ∈ t.reductions.toList := List.mem_reverse.1 (List.mem_of_find?_eq_some found)
  obtain ⟨p, bound, is⟩ := List.mem_iff_getElem.1 member
  have known : t.reductions[p]? = some r := by
    rw [← Array.getElem?_toList]
    exact List.getElem?_eq_some_iff.2 ⟨bound, is⟩
  obtain ⟨production, _, lhs, _, _, named⟩ := reduction_eq built known
  rw [node] at named
  obtain ⟨m, there, is⟩ := Option.bind_eq_some_iff.1 named.symm
  rw [lhs]
  exact ⟨m, there, is⟩

end Table

end ShaderTree
