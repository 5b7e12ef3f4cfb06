import ShaderTree.Proofs.Table.Conflicts

/-! A valid grammar has a table if the levels settle whatever meets in a column: any two complete
items that one terminal can follow, and each of them with a shift of the terminal. -/
namespace ShaderTree

namespace Grammar

variable {g : Grammar} {k : Kind} {current candidate : Action}

/-- An action can be added to another one. One of the two stays, or none. -/
def Resolvable (g : Grammar) (k : Kind) (current candidate : Action) : Prop :=
  ∃ b, (b = .error ∨ b = current ∨ b = candidate) ∧
    ∀ state, g.resolve state k current candidate = .ok b

theorem resolvable_error (a : Action) : g.Resolvable k .error a :=
  ⟨a, .inr (.inr rfl), fun _ => rfl⟩

/-- Whether levels settle a shift does not depend on where it leads. -/
theorem isSome_shiftOrReduce? (shift shift' : Action) (p : Nat) :
    (g.shiftOrReduce? k shift p).isSome = (g.shiftOrReduce? k shift' p).isSome := by
  unfold shiftOrReduce?
  cases g.productionPrecedence? p with
  | none => rfl
  | some own =>
    cases g.tokenPrecedence? k with
    | none => rfl
    | some level =>
      simp only [Option.bind_eq_bind, Option.bind_some, Option.pure_def]
      split
      · rfl
      · split
        · rfl
        · split <;> rfl

theorem resolvable_shift {target p : Nat}
    (settles : (g.shiftOrReduce? k (.shift target) p).isSome = true) :
    g.Resolvable k (.shift target) (.reduce p) := by
  obtain ⟨b, is⟩ := Option.isSome_iff_exists.1 settles
  refine ⟨b, ?_, fun state => ?_⟩
  · rcases shiftOrReduce?_cases is with reduce | shift | none
    · exact .inr (.inr reduce)
    · exact .inr (.inl shift)
    · exact .inl none
  · simp [resolve, is]

theorem resolvable_reduce {p q : Nat} (settles : (g.reduceOrReduce? p q).isSome = true) :
    g.Resolvable k (.reduce p) (.reduce q) := by
  obtain ⟨b, is⟩ := Option.isSome_iff_exists.1 settles
  refine ⟨b, .inr (reduceOrReduce?_cases is), fun state => ?_⟩
  simp [resolve, is]

/-- Actions that any two of can be settled can be added one after the other. -/
theorem exists_column {offers : List Action} (first : ∀ a ∈ offers, g.Resolvable k current a)
    (each : offers.Pairwise (g.Resolvable k)) (state : Nat) :
    ∃ b, offers.foldlM (g.resolve state k) current = .ok b := by
  induction offers generalizing current with
  | nil => exact ⟨current, rfl⟩
  | cons a offers ih =>
    obtain ⟨b, is, resolved⟩ := first a (.head _)
    obtain ⟨later, each⟩ := List.pairwise_cons.1 each
    rw [List.foldlM_cons, resolved state]
    refine ih (fun c member => ?_) each
    rcases is with rfl | rfl | rfl
    · exact resolvable_error c
    · exact first c (.tail _ member)
    · exact later c member

end Grammar

namespace Table

variable {g : Grammar} {state : Nat} {a : Action} {row : Array Action}

theorem exists_enter {ks : List Kind} (distinct : ks.Nodup)
    (terminals : ∀ k ∈ ks, k.isTerminal = true) (size : row.size = Kind.terminalCount)
    (settled : ∀ k ∈ ks, ∃ b, g.resolve state k (entryOf row k) a = .ok b) :
    ∃ row', ks.foldlM (enter g state a) row = .ok row' := by
  induction ks generalizing row with
  | nil => exact ⟨row, rfl⟩
  | cons j ks ih =>
    obtain ⟨new, distinct⟩ := List.nodup_cons.1 distinct
    obtain ⟨b, resolved⟩ := settled j (.head _)
    have entered : enter g state a row j = .ok (row.setIfInBounds j.index b) := by
      unfold enter
      change (do
        let resolved ← g.resolve state j (entryOf row j) a
        return row.setIfInBounds j.index resolved) = _
      rw [resolved]
      rfl
    have inside : j.index < row.size := size ▸ of_decide_eq_true (terminals j (.head _))
    rw [List.foldlM_cons, entered]
    refine ih distinct (fun k member => terminals k (.tail _ member))
      (by rw [Array.size_setIfInBounds, size]) fun k member => ?_
    have other : k ≠ j := fun same => new (same ▸ member)
    rw [entryOf_set inside, if_neg other]
    exact settled k (.tail _ member)

theorem exists_enterItem {entry : Item × IndexSet} (size : row.size = Kind.terminalCount)
    (settled : ∀ k, k.isTerminal = true →
      ∀ a, g.offer? k entry = some a → ∃ b, g.resolve state k (entryOf row k) a = .ok b) :
    ∃ row', enterItem g state row entry = .ok row' := by
  unfold enterItem
  split
  · exact ⟨row, rfl⟩
  · rename_i complete
    refine exists_enter (Kind.nodup_terminals.filter _)
      (fun k member => Kind.mem_terminals.1 (List.mem_filter.1 member).1) size fun k member => ?_
    obtain ⟨terminal, lookahead⟩ := List.mem_filter.1 member
    refine settled k (Kind.mem_terminals.1 terminal) _ ?_
    rw [Grammar.offer?, if_neg complete, if_pos lookahead]
    rfl

/-- A row can be filled in if each of its columns can. -/
theorem exists_entries {items : List (Item × IndexSet)} (size : row.size = Kind.terminalCount)
    (settled : ∀ k, k.isTerminal = true →
      ∃ b, (items.filterMap (g.offer? k)).foldlM (g.resolve state k) (entryOf row k) = .ok b) :
    ∃ row', items.foldlM (enterItem g state) row = .ok row' := by
  induction items generalizing row with
  | nil => exact ⟨row, rfl⟩
  | cons entry items ih =>
    have first (k : Kind) (terminal : k.isTerminal = true) (a : Action)
        (offer : g.offer? k entry = some a) :
        ∃ b, g.resolve state k (entryOf row k) a = .ok b := by
      obtain ⟨b, all⟩ := settled k terminal
      rw [List.filterMap_cons_some offer, List.foldlM_cons] at all
      cases resolved : g.resolve state k (entryOf row k) a with
      | error e => rw [resolved] at all; cases all
      | ok c => exact ⟨c, rfl⟩
    obtain ⟨row1, entered⟩ := exists_enterItem size first
    obtain ⟨size1, columns⟩ := enterItem_column size entered
    rw [List.foldlM_cons, entered]
    refine ih size1 fun k terminal => ?_
    obtain ⟨b, all⟩ := settled k terminal
    have column := columns k terminal
    refine ⟨b, ?_⟩
    cases offer : g.offer? k entry with
    | none =>
      rw [List.filterMap_cons_none offer] at all
      rw [offer] at column
      rwa [← Except.ok.inj column]
    | some a =>
      rw [List.filterMap_cons_some offer, List.foldlM_cons] at all
      rw [offer, Option.toList_some, List.foldlM_cons] at column
      cases resolved : g.resolve state k (entryOf row k) a with
      | error e => rw [resolved] at all; cases all
      | ok c =>
        rw [resolved] at all column
        rwa [← Except.ok.inj column]

theorem exists_buildRow {s : AutomatonState}
    (known : (Automaton.ofGrammar g).states[state]? = some s)
    (settled : ∀ k, k.isTerminal = true →
      ∃ b, (g.offers state k).foldlM (g.resolve state k) (g.shiftOn state k) = .ok b) :
    ∃ row, buildRow (.ofGrammar g) (Analysis.ofGrammar g).lookaheads state = .ok row := by
  have isState : (Analysis.ofGrammar g).automaton.states[state]? = some s := known
  have shifts (k : Kind) (terminal : k.isTerminal = true) :
      entryOf (shiftRow s.transitions) k = g.shiftOn state k :=
    entryOf_shifts known terminal
  obtain ⟨row, entered⟩ := exists_entries (size_shiftRow s.transitions) fun k terminal => by
    rw [shifts k terminal]
    exact settled k terminal
  refine ⟨⟨row, gotoRow g.nonterminals.size s.transitions⟩, ?_⟩
  unfold buildRow
  dsimp only
  rw [isState, Option.map_some, Option.getD_some]
  change (do
    let actions ← ((Analysis.ofGrammar g).itemsWith (Analysis.ofGrammar g).lookaheads state).foldlM
      (enterItem g state) (shiftRow s.transitions)
    return (⟨actions, gotoRow g.nonterminals.size s.transitions⟩ : Row)) = _
  rw [entered]
  rfl

theorem exists_mapM {α β ε : Type} {f : α → Except ε β} {xs : List α}
    (each : ∀ x ∈ xs, ∃ y, f x = .ok y) : ∃ ys, xs.mapM f = .ok ys := by
  induction xs with
  | nil => exact ⟨[], rfl⟩
  | cons x xs ih =>
    obtain ⟨y, first⟩ := each x (.head _)
    obtain ⟨ys, others⟩ := ih fun x member => each x (.tail _ member)
    refine ⟨y :: ys, ?_⟩
    rw [List.mapM_cons, first, others]
    rfl

theorem exists_build (valid : g.validate = .ok ()) (words : fitsWords g = true)
    (settled : ∀ state k, k.isTerminal = true →
      ∃ b, (g.offers state k).foldlM (g.resolve state k) (g.shiftOn state k) = .ok b) :
    ∃ t, build g = .ok t := by
  have each : ∀ state ∈ List.range (Analysis.ofGrammar g).automaton.states.size,
      ∃ row, buildRow (.ofGrammar g) (Analysis.ofGrammar g).lookaheads state = .ok row := by
    intro state member
    have bound := List.mem_range.1 member
    exact exists_buildRow (Array.getElem?_eq_getElem bound) (settled state)
  obtain ⟨rows, all⟩ := exists_mapM each
  unfold build
  rw [valid, words]
  dsimp only [bind, Except.bind]
  simp only [Bool.not_true, Bool.false_eq_true, if_false, all]
  exact ⟨_, rfl⟩

end Table

namespace Grammar

variable {g : Grammar}

theorem ne_startRule_of_precedence {p : Nat} {own : Precedence}
    (known : g.productionPrecedence? p = some own) : p ≠ g.startRule := by
  rintro rfl
  simp [productionPrecedence?, startRule] at known

theorem actionOf_eq_reduce {i : Item} (other : i.production ≠ g.startRule) :
    g.actionOf i = .reduce i.production := if_neg other

/-- Complete items whose productions' levels differ. -/
theorem resolvable_actionOf {k : Kind} {i j : Item}
    (settles : (g.reduceOrReduce? i.production j.production).isSome = true) :
    g.Resolvable k (g.actionOf i) (g.actionOf j) := by
  obtain ⟨b, is⟩ := Option.isSome_iff_exists.1 settles
  have levels : ∃ x y, g.productionPrecedence? i.production = some x ∧
      g.productionPrecedence? j.production = some y := by
    rcases reduceOrReduce?_eq_some is with ⟨_, x, y, ofI, ofJ, _⟩ | ⟨_, x, y, ofJ, ofI, _⟩
    · exact ⟨x, y, ofI, ofJ⟩
    · exact ⟨y, x, ofI, ofJ⟩
  obtain ⟨x, y, ofI, ofJ⟩ := levels
  rw [actionOf_eq_reduce (ne_startRule_of_precedence ofI),
    actionOf_eq_reduce (ne_startRule_of_precedence ofJ)]
  exact resolvable_reduce settles

/-- A complete item whose production and the shifted terminal have levels. -/
theorem resolvable_shift_actionOf {k : Kind} {target : Nat} {i : Item}
    (settles : (g.shiftOrReduce? k (.shift target) i.production).isSome = true) :
    g.Resolvable k (.shift target) (g.actionOf i) := by
  obtain ⟨b, is⟩ := Option.isSome_iff_exists.1 settles
  obtain ⟨x, ofI, _⟩ := Option.bind_eq_some_iff.1 is
  rw [actionOf_eq_reduce (ne_startRule_of_precedence ofI)]
  exact resolvable_shift settles

end Grammar

theorem Table.exists_of_settled {g : Grammar} (valid : g.validate = .ok ())
    (words : fitsWords g = true)
    (reductions : ∀ (state : Nat) (k : Kind) (i j : Item), g.Looks state i k.index → g.IsComplete i →
      g.Looks state j k.index → g.IsComplete j → i.production ≠ j.production →
      (g.reduceOrReduce? i.production j.production).isSome = true)
    (shifts : ∀ (state : Nat) (k : Kind) (i : Item) (target : Nat), g.Looks state i k.index → g.IsComplete i →
      g.Leads state (.terminal k) target →
      (g.shiftOrReduce? k (.shift target) i.production).isSome = true) :
    ∃ t, Table.build g = .ok t := by
  refine exists_build valid words fun state k _ => Grammar.exists_column ?_ ?_ state
  · intro a offered
    obtain ⟨i, looks, complete, rfl⟩ := (Grammar.mem_offers valid).1 offered
    rcases g.shiftOn_cases state k with none | ⟨target, shift, leads⟩
    · rw [none]
      exact Grammar.resolvable_error _
    · rw [shift]
      exact Grammar.resolvable_shift_actionOf (shifts state k i target looks complete leads)
  · refine (Grammar.nodup_offers valid).imp_of_mem ?_
    intro a b offered offered' other
    obtain ⟨i, looks, complete, rfl⟩ := (Grammar.mem_offers valid).1 offered
    obtain ⟨j, looks', complete', rfl⟩ := (Grammar.mem_offers valid).1 offered'
    refine Grammar.resolvable_actionOf (reductions state k i j looks complete looks' complete' ?_)
    intro same
    exact other (by rw [Grammar.actionOf, same, Grammar.actionOf])

end ShaderTree
