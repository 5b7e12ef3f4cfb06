import ShaderTree.Parser.Run
import ShaderTree.Proofs.Grammar.Productivity
import ShaderTree.Proofs.Table.Chains
import ShaderTree.Proofs.Table.Compatible

/-! Tables built from a grammar pass the check, however their conflicts were settled: the rows keep
only transitions of the automaton, so a walk back from a complete item stays among the states that
hold the item with its dot further to the left. -/
namespace ShaderTree.Table

variable {g : Grammar} {t : Table} {state next : Nat}

/-! The sets of predecessors hold nothing else -/

theorem lists_of_foldl_modify {sets : Array IndexSet} {source : Nat} {targets : List Nat}
    {state next : Nat} (lists : Lists
      (targets.foldl (fun sets next => sets.modify next (·.insert source)) sets) state next) :
    Lists sets state next ∨ state = source ∧ next ∈ targets := by
  induction targets generalizing sets with
  | nil => exact .inl lists
  | cons target targets ih =>
    rcases ih lists with before | ⟨rfl, member⟩
    · unfold Lists at before ⊢
      rw [Array.getElem?_modify] at before
      split at before
      · rename_i same
        subst same
        cases found : sets[target]? with
        | none => simp [found] at before
        | some set =>
          rw [found] at before
          simp only [Option.map_some, Option.getD_some, IndexSet.mem_insert, Bool.or_eq_true,
            decide_eq_true_eq] at before
          rcases before with old | rfl
          · exact .inl old
          · exact .inr ⟨rfl, .head _⟩
      · exact .inl before
    · exact .inr ⟨rfl, .tail _ member⟩

/-- What is listed under a state has a transition to it. -/
theorem goes_of_lists (lists : Lists t.predecessors state next) : t.Goes state next := by
  unfold predecessors at lists
  revert lists
  refine foldl_induction (P := fun sets => Lists sets state next → t.Goes state next) ?_ ?_
  · intro lists
    unfold Lists at lists
    rw [Array.getElem?_replicate] at lists
    split at lists
    · simp at lists
    · simp at lists
  · intro sets source _ known lists
    split at lists
    · exact known lists
    · rename_i row found
      rcases lists_of_foldl_modify lists with before | ⟨rfl, member⟩
      · exact known before
      · exact ⟨row, found, member⟩

theorem exists_of_mem_stepBack {s : IndexSet} {back : Array IndexSet}
    (member : (t.stepBack back s).mem state = true) :
    ∃ next, s.mem next = true ∧ Lists back state next := by
  unfold stepBack at member
  revert member
  refine foldl_induction (P := fun u : IndexSet => u.mem state = true →
    ∃ next, s.mem next = true ∧ Lists back state next) (by simp) fun u next inside known member => ?_
  rw [IndexSet.mem_union, Bool.or_eq_true] at member
  rcases member with old | new
  · exact known old
  · exact ⟨next, ((s.mem_below _ _).1 inside).2, new⟩

/-! What the rows of a built table hold -/

theorem justified_of_row (built : t.BuiltFrom g) {row : Row} (found : t.rows[state]? = some row) :
    ∃ s, (Automaton.ofGrammar g).states[state]? = some s ∧ RowJustified g s.transitions
      ((Analysis.ofGrammar g).itemsWith (Analysis.ofGrammar g).lookaheads state) row.actions := by
  obtain ⟨s, known⟩ := exists_state built found
  have justified := buildRow_justified (built.row state row found)
  refine ⟨s, known, ?_⟩
  change RowJustified g ((((Automaton.ofGrammar g).states[state]?).map (·.transitions)).getD []) _ _
    at justified
  rwa [known] at justified

theorem leads_of_shift_mem (built : t.BuiltFrom g) {row : Row} (found : t.rows[state]? = some row)
    (member : .shift next ∈ row.actions) : ∃ x, g.Leads state x next := by
  obtain ⟨s, known, justified⟩ := justified_of_row built found
  obtain ⟨column, entry⟩ := Array.mem_iff_getElem?.1 member
  obtain ⟨k, _, transition⟩ := justified column _ entry
  exact ⟨.terminal k, s, known, transition⟩

theorem holds_of_reduce_mem (built : t.BuiltFrom g) {row : Row} (found : t.rows[state]? = some row)
    {p : Nat} (member : .reduce p ∈ row.actions) :
    g.Holds state ⟨p, (g.rhs p).length⟩ ∧ p < g.productions.size := by
  obtain ⟨s, known, justified⟩ := justified_of_row built found
  obtain ⟨column, entry⟩ := Array.mem_iff_getElem?.1 member
  obtain ⟨e, inside, complete, _, is⟩ := justified column _ entry
  have holds : g.Holds state e.1 := Analysis.itemsWith_sound inside
  unfold Grammar.actionOf at is
  split at is
  · cases is
  · rename_i other
    obtain rfl := Action.reduce.inj is
    have bound := (Grammar.isItem_of_holds holds).1
    have dot := Grammar.dot_eq_length holds complete
    refine ⟨?_, Nat.lt_of_le_of_ne bound other⟩
    rwa [← dot]

theorem leads_of_goto_mem (built : t.BuiltFrom g) {row : Row} (found : t.rows[state]? = some row)
    (member : some next ∈ row.gotos) : ∃ x, g.Leads state x next := by
  obtain ⟨n, entry⟩ := Array.mem_iff_getElem?.1 member
  have goto : t.goto? state n = some next := by
    unfold goto?
    rw [found]
    simp [entry]
  exact ⟨_, (leads_of_goto built goto).2⟩

/-- The transitions of a built table are transitions of the automaton. -/
theorem leads_of_goes (built : t.BuiltFrom g) (goes : t.Goes state next) :
    ∃ x, g.Leads state x next := by
  obtain ⟨row, found, member⟩ := goes
  rcases List.mem_append.1 member with shifts | gotos
  · obtain ⟨a, inside, is⟩ := List.mem_filterMap.1 shifts
    cases a with
    | shift target =>
      obtain rfl := Option.some.inj is
      exact leads_of_shift_mem built found (Array.mem_toList_iff.1 inside)
    | error => cases is
    | reduce p => cases is
    | accept => cases is
  · obtain ⟨a, inside, rfl⟩ := List.mem_filterMap.1 gotos
    exact leads_of_goto_mem built found (Array.mem_toList_iff.1 inside)

/-! The walk back -/

/-- A walk back from states with an item reaches, with the item's dot at its start, states with a
goto for the item's nonterminal, and does not come to the start state before. -/
theorem landsOnGoto_of_holds (built : t.BuiltFrom g) {p : Nat} {production : Production}
    (rule : g.IsRule p production) (n : Nat) (s : IndexSet)
    (holds : ∀ state, s.mem state = true → g.Holds state ⟨p, n⟩) :
    t.landsOnGoto t.predecessors production.lhs n s = true := by
  induction n generalizing s with
  | zero =>
    refine List.all_eq_true.2 fun state member => ?_
    obtain ⟨target, leads⟩ := (holds state ((s.mem_below _ _).1 member).2).exists_goto rule
    rw [goto_of_leads built rule.2 leads]
    rfl
  | succ n ih =>
    unfold landsOnGoto
    rw [Bool.and_eq_true, Bool.not_eq_true']
    refine ⟨?_, ih _ fun state member => ?_⟩
    · cases start : s.mem 0 with
      | false => rfl
      | true => exact absurd (Grammar.dot_eq_zero (holds 0 start)) (Nat.succ_ne_zero n)
    · obtain ⟨next, inside, lists⟩ := exists_of_mem_stepBack member
      obtain ⟨x, leads⟩ := leads_of_goes built (goes_of_lists lists)
      exact (leads.before (holds next inside)).1

theorem mem_actions_of_mem_reduced {row : Row} {p : Nat} (member : p ∈ reduced row) :
    .reduce p ∈ row.actions := by
  unfold reduced at member
  obtain ⟨a, inside, is⟩ := List.mem_filterMap.1 (List.mem_eraseDups.1 member)
  cases a with
  | reduce q =>
    obtain rfl := Option.some.inj is
    exact Array.mem_toList_iff.1 inside
  | error => cases is
  | shift next => cases is
  | accept => cases is

/-- Every reduction of a built table lands on a goto. -/
theorem reductionsLand_of_build (built : t.BuiltFrom g) (declared : g.Declared) :
    t.reductionsLand = true := by
  unfold reductionsLand
  refine List.all_eq_true.2 fun state _ => List.all_eq_true.2 fun p member => ?_
  cases found : t.rows[state]? with
  | none =>
    rw [found] at member
    cases member
  | some row =>
    rw [found] at member
    obtain ⟨holds, bound⟩ := holds_of_reduce_mem built found (mem_actions_of_mem_reduced member)
    have known := Array.getElem?_eq_getElem bound
    rw [reductions_getElem? built known]
    have rhs : g.rhs p = g.productions[p].rhs := by simp [Grammar.rhs, known]
    refine landsOnGoto_of_holds built (declared.isRule known) _ _ fun state' inside => ?_
    obtain rfl : state = state' := by simpa using inside
    rwa [← rhs]

/-! The bounds -/

theorem fitsRow_of_build (built : t.BuiltFrom g) {row : Row} (member : row ∈ t.rows) :
    t.fitsRow row = true := by
  obtain ⟨state, found⟩ := Array.mem_iff_getElem?.1 member
  obtain ⟨s, known⟩ := exists_state built found
  obtain ⟨entries, gotos⟩ := row_eq built found known
  have target_lt {x : Symbol} {target : Nat} (leads : g.Leads state x target) :
      target < t.stateCount := by
    obtain ⟨s', there⟩ := leads.kernel.1
    rw [stateCount, built.stateCount]
    exact (Array.getElem?_eq_some_iff.1 there).1
  have names : g.nonterminals.size = t.nonterminalCount := by
    rw [nonterminalCount, built.names, Array.size_map]
  unfold fitsRow
  simp only [Bool.and_eq_true, beq_iff_eq, Array.all_eq_true_iff_forall_mem]
  refine ⟨⟨⟨size_of_foldlM_enterItem (size_shiftRow _) entries, ?_⟩, ?_⟩, ?_⟩
  · rw [gotos, ← names]
    unfold gotoRow
    refine foldl_induction (P := fun row : Array (Option Nat) => row.size = g.nonterminals.size)
      Array.size_replicate fun row move _ size => ?_
    rcases move with ⟨x | n, target⟩
    · exact size
    · exact (Array.size_setIfInBounds ..).trans size
  · intro a inside
    cases a with
    | error => rfl
    | accept => rfl
    | shift next =>
      obtain ⟨x, leads⟩ := leads_of_shift_mem built found inside
      exact decide_eq_true (target_lt leads)
    | reduce p =>
      have bound := (holds_of_reduce_mem built found inside).2
      refine decide_eq_true ?_
      rwa [built.reductions, reductionsOf, Array.size_map]
  · intro target inside
    cases target with
    | none => rfl
    | some next =>
      obtain ⟨x, leads⟩ := leads_of_goto_mem built found inside
      simpa using target_lt leads

theorem isWellFormed_of_build (built : t.BuiltFrom g) (declared : g.Declared) :
    t.isWellFormed = true := by
  obtain ⟨s, known⟩ := Grammar.exists_of_holds (Grammar.holds_startItem g)
  have start : 0 < t.stateCount := by
    rw [stateCount, built.stateCount]
    exact (Array.getElem?_eq_some_iff.1 known).1
  unfold isWellFormed
  simp only [Bool.and_eq_true, decide_eq_true_eq, Array.all_eq_true_iff_forall_mem]
  refine ⟨⟨⟨start, fun row => fitsRow_of_build built⟩, ?_⟩, reductionsLand_of_build built declared⟩
  intro r member
  rw [built.reductions] at member
  obtain ⟨production, inside, rfl⟩ := Array.mem_map.1 member
  rw [nonterminalCount, built.names, Array.size_map]
  exact declared.lhs production (Array.mem_toList_iff.2 inside)

theorem checkCompatible_of_build (built : Table.build g = .ok t) (declared : g.Declared) :
    t.checkCompatible = .ok () := by
  have parts := build_ok built
  unfold checkCompatible
  rw [parts.version, parts.kinds, isWellFormed_of_build parts declared]
  rfl

end Table

theorem Language.build_of_ofGrammar {name : String} {identity : Nat} {g : Grammar} {l : Language}
    (made : Language.ofGrammar name identity g = .ok l) : Table.build g = .ok l.table := by
  unfold ofGrammar at made
  cases built : Table.build g with
  | error e => rw [built] at made; cases made
  | ok t =>
    rw [built] at made
    obtain rfl := Except.ok.inj made
    rfl

/-- Every language made from a grammar is compatible, whatever its levels took out of the rows: its
reductions land, and any parser takes it. -/
theorem Language.compatible_of_ofGrammar {name : String} {identity : Nat} {g : Grammar} {l : Language}
    (made : Language.ofGrammar name identity g = .ok l) (declared : g.Declared) :
    l.table.reductionsLand = true ∧ l.table.isWellFormed = true ∧
      l.table.checkCompatible = .ok () ∧ ∀ p : Parser, p.withLanguage l = .ok { p with language := l } := by
  have built := build_of_ofGrammar made
  have compatible := Table.checkCompatible_of_build built declared
  have from_ := Table.build_ok built
  refine ⟨Table.reductionsLand_of_build from_ declared, Table.isWellFormed_of_build from_ declared,
    compatible, fun p => ?_⟩
  unfold Parser.withLanguage
  rw [compatible]
  rfl

/-- A table whose levels took the shift of a second operator out of a row. -/
theorem Language.compatible_of_ofGrammar_sums : ∃ l, Language.ofGrammar "sums" 1 .sums = .ok l ∧
    l.table.action 4 .plus = .reduce 0 ∧ l.table.checkCompatible = .ok () := by
  obtain ⟨t, built, reduces⟩ := Table.exists_built (g := .sums)
    (P := fun t => t.action 4 .plus = .reduce 0) (by with_unfolding_all decide)
  have made : Language.ofGrammar "sums" 1 .sums = .ok ⟨"sums", t, 1⟩ := by
    unfold Language.ofGrammar
    rw [built]
    rfl
  have declared : Grammar.sums.Declared := ⟨by decide, by decide, by decide⟩
  exact ⟨_, made, reduces, (compatible_of_ofGrammar made declared).2.2.1⟩

end ShaderTree
