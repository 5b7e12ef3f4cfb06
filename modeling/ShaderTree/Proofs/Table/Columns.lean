import ShaderTree.Proofs.Grammar.First
import ShaderTree.Proofs.Table.Propagation

/-! Each entry of a built table is what its state and terminal alone decide: the shift of the state,
with the actions of the complete items that the terminal can follow added to it one after the
other. -/
namespace ShaderTree

namespace Kind

theorem nodup_terminals : terminals.Nodup := by decide

theorem mem_terminals {k : Kind} : k ∈ terminals ↔ k.isTerminal = true := by
  constructor
  · intro member
    have all : ∀ k ∈ terminals, k.isTerminal = true := by decide
    exact all k member
  · intro terminal
    have bound : k.index < terminalCount := of_decide_eq_true terminal
    refine List.mem_filterMap.2 ⟨k.index, List.mem_range.2 bound, ?_⟩
    have more : terminalCount ≤ count := by decide
    rw [ofIndex?, if_pos (Nat.lt_of_lt_of_le bound more)]
    exact congrArg some (Kind.ofNat_ctorIdx k)

end Kind

namespace Symbol

/-- Place of a terminal in a row of actions. -/
def column? : Symbol → Option Nat
  | .terminal k => some k.index
  | .nonterminal _ => none

/-- Place of a nonterminal in a row of gotos. -/
def goto? : Symbol → Option Nat
  | .terminal _ => none
  | .nonterminal n => some n

end Symbol

namespace Table

variable {g : Grammar} {state : Nat} {k : Kind} {a : Action} {row row' : Array Action}

/-- What a row does with a terminal. -/
def entryOf (row : Array Action) (k : Kind) : Action := row[k.index]?.getD .error

theorem entryOf_set {j : Kind} (inside : j.index < row.size) (b : Action) (k : Kind) :
    entryOf (row.setIfInBounds j.index b) k = if k = j then b else entryOf row k := by
  unfold entryOf
  rw [Array.getElem?_setIfInBounds]
  by_cases same : k = j
  · rw [if_pos same, same, if_pos rfl, if_pos inside, Option.getD_some]
  · rw [if_neg same, if_neg]
    exact fun index => same (Kind.index_injective index.symm)

theorem enter_ok (h : enter g state a row k = .ok row') :
    ∃ b, g.resolve state k (entryOf row k) a = .ok b ∧ row' = row.setIfInBounds k.index b := by
  unfold enter at h
  change (do
    let resolved ← g.resolve state k (entryOf row k) a
    return row.setIfInBounds k.index resolved) = Except.ok row' at h
  cases resolved : g.resolve state k (entryOf row k) a with
  | error e => rw [resolved] at h; cases h
  | ok b =>
    rw [resolved] at h
    exact ⟨b, rfl, (Except.ok.inj h).symm⟩

/-- An action entered for different terminals is added to the entry of each of them once. -/
theorem foldlM_enter {ks : List Kind} (distinct : ks.Nodup)
    (terminals : ∀ k ∈ ks, k.isTerminal = true) (size : row.size = Kind.terminalCount)
    (h : ks.foldlM (enter g state a) row = .ok row') : row'.size = Kind.terminalCount ∧
      ∀ k, (k ∈ ks → g.resolve state k (entryOf row k) a = .ok (entryOf row' k)) ∧
        (k ∉ ks → entryOf row' k = entryOf row k) := by
  induction ks generalizing row with
  | nil =>
    obtain rfl := Except.ok.inj h
    exact ⟨size, fun k => ⟨by simp, fun _ => rfl⟩⟩
  | cons j ks ih =>
    obtain ⟨new, distinct⟩ := List.nodup_cons.1 distinct
    rw [List.foldlM_cons] at h
    cases entered : enter g state a row j with
    | error e => rw [entered] at h; cases h
    | ok row1 =>
      rw [entered] at h
      obtain ⟨b, resolved, rfl⟩ := enter_ok entered
      have inside : j.index < row.size := size ▸ of_decide_eq_true (terminals j (.head _))
      obtain ⟨size', others⟩ := ih distinct (fun k member => terminals k (.tail _ member))
        (by rw [Array.size_setIfInBounds, size]) h
      refine ⟨size', fun k => ⟨?_, ?_⟩⟩
      · intro member
        rcases List.mem_cons.mp member with rfl | member
        · rw [(others k).2 new, entryOf_set inside, if_pos rfl]
          exact resolved
        · have other : k ≠ j := fun same => new (same ▸ member)
          have later := (others k).1 member
          rwa [entryOf_set inside, if_neg other] at later
      · intro absent
        rw [List.mem_cons, not_or] at absent
        rw [(others k).2 absent.2, entryOf_set inside, if_neg absent.1]

end Table

namespace Grammar

/-- The action of a complete item, if the terminal is one of its lookaheads. -/
def offer? (g : Grammar) (k : Kind) (entry : Item × IndexSet) : Option Action :=
  if entry.1.dot < (g.rhs entry.1.production).length then none
  else if entry.2.mem k.index then some (g.actionOf entry.1) else none

theorem offer?_eq_some {g : Grammar} {k : Kind} {entry : Item × IndexSet} {a : Action} :
    g.offer? k entry = some a ↔
      g.IsComplete entry.1 ∧ entry.2.mem k.index = true ∧ a = g.actionOf entry.1 := by
  unfold offer? IsComplete
  split
  · rename_i inside
    simp [Nat.not_le.2 inside]
  · rename_i complete
    split
    · rename_i member
      simp [Nat.not_lt.1 complete, member, eq_comm]
    · rename_i absent
      simp [absent]

end Grammar

namespace Table

variable {g : Grammar} {state : Nat} {k : Kind} {row row' : Array Action}

theorem enterItem_column {entry : Item × IndexSet} (size : row.size = Kind.terminalCount)
    (h : enterItem g state row entry = .ok row') : row'.size = Kind.terminalCount ∧
      ∀ k, k.isTerminal = true → (g.offer? k entry).toList.foldlM (g.resolve state k)
        (entryOf row k) = .ok (entryOf row' k) := by
  unfold enterItem at h
  split at h
  · rename_i inside
    obtain rfl := Except.ok.inj h
    refine ⟨size, fun k _ => ?_⟩
    rw [Grammar.offer?, if_pos inside]
    rfl
  · rename_i complete
    have terminals : ∀ k ∈ Kind.terminals.filter fun k => entry.2.mem k.index,
        k.isTerminal = true :=
      fun k member => Kind.mem_terminals.1 (List.mem_filter.1 member).1
    obtain ⟨size', columns⟩ := foldlM_enter (Kind.nodup_terminals.filter _) terminals size h
    refine ⟨size', fun k terminal => ?_⟩
    rw [Grammar.offer?, if_neg complete]
    by_cases member : entry.2.mem k.index = true
    · rw [if_pos member, Option.toList_some, List.foldlM_cons]
      have resolved := (columns k).1 (List.mem_filter.2 ⟨Kind.mem_terminals.2 terminal, member⟩)
      change g.resolve state k (entryOf row k) (g.actionOf entry.1) = _ at resolved
      rw [resolved]
      rfl
    · rw [if_neg member, (columns k).2 fun inside => member (List.mem_filter.1 inside).2]
      rfl

/-- A column of a row, once all items are entered. -/
theorem foldlM_enterItem {items : List (Item × IndexSet)} (size : row.size = Kind.terminalCount)
    (h : items.foldlM (enterItem g state) row = .ok row') (terminal : k.isTerminal = true) :
    (items.filterMap (g.offer? k)).foldlM (g.resolve state k) (entryOf row k) =
      .ok (entryOf row' k) := by
  induction items generalizing row with
  | nil =>
    obtain rfl := Except.ok.inj h
    rfl
  | cons entry items ih =>
    rw [List.foldlM_cons] at h
    cases entered : enterItem g state row entry with
    | error e => rw [entered] at h; cases h
    | ok row1 =>
      rw [entered] at h
      obtain ⟨size', columns⟩ := enterItem_column size entered
      have first := columns k terminal
      have later := ih size' h
      cases offer : g.offer? k entry with
      | none =>
        rw [offer] at first
        rw [List.filterMap_cons_none offer]
        rwa [← Except.ok.inj first] at later
      | some a =>
        rw [offer, Option.toList_some, List.foldlM_cons] at first
        rw [List.filterMap_cons_some offer, List.foldlM_cons]
        cases resolved : g.resolve state k (entryOf row k) a with
        | error e => rw [resolved] at first; cases first
        | ok b =>
          rw [resolved] at first
          rw [← Except.ok.inj first] at later
          exact later

theorem size_of_foldlM_enterItem {items : List (Item × IndexSet)}
    (size : row.size = Kind.terminalCount)
    (h : items.foldlM (enterItem g state) row = .ok row') : row'.size = Kind.terminalCount :=
  foldlM_ok_induction (P := fun row : Array Action => row.size = Kind.terminalCount) size
    (fun _ _ _ _ size step => (enterItem_column size step).1) h

theorem size_shiftRow (transitions : List (Symbol × Nat)) :
    (shiftRow transitions).size = Kind.terminalCount := by
  unfold shiftRow
  apply foldl_induction (P := fun row : Array Action => row.size = Kind.terminalCount)
  · exact Array.size_replicate
  · rintro row ⟨x, target⟩ _ size
    cases x with
    | terminal k => rw [Array.size_setIfInBounds, size]
    | nonterminal n => exact size

/-- What a fold that enters the targets of transitions at the places of their symbols leaves at the
place of one symbol. -/
theorem foldl_place {α : Type} {place : Symbol → Option Nat} {value : Nat → α} {x : Symbol} {i : Nat}
    (here : place x = some i) (only : ∀ y, place y = some i → y = x)
    {transitions : List (Symbol × Nat)} (distinct : (transitions.map (·.1)).Nodup) {row : Array α}
    (inside : i < row.size) :
    (transitions.foldl (fun row move => match place move.1 with
        | some j => row.setIfInBounds j (value move.2)
        | none => row) row)[i]? =
      match transitions.find? (·.1 = x) with
      | some move => some (value move.2)
      | none => row[i]? := by
  induction transitions generalizing row with
  | nil => rfl
  | cons move transitions ih =>
    obtain ⟨new, distinct⟩ := List.nodup_cons.1 distinct
    rw [List.foldl_cons]
    by_cases same : move.1 = x
    · have absent : transitions.find? (·.1 = x) = none := by
        refine List.find?_eq_none.2 fun other member is => new ?_
        change move.1 ∈ _
        rw [same, ← of_decide_eq_true is]
        exact List.mem_map_of_mem member
      rw [ih distinct, absent, List.find?_cons_of_pos (by simpa using same), same, here]
      · exact Array.getElem?_setIfInBounds_self_of_lt inside
      · rw [same, here, Array.size_setIfInBounds]
        exact inside
    · rw [List.find?_cons_of_neg (by simpa using same)]
      cases there : place move.1 with
      | none => exact ih distinct inside
      | some j =>
        have other : j ≠ i := fun is => same (only _ (is ▸ there))
        rw [ih distinct (by rw [Array.size_setIfInBounds]; exact inside),
          Array.getElem?_setIfInBounds_ne other]

theorem entryOf_shiftRow {transitions : List (Symbol × Nat)} (terminal : k.isTerminal = true)
    (distinct : (transitions.map (·.1)).Nodup) : entryOf (shiftRow transitions) k =
      ((transitions.find? (·.1 = .terminal k)).map (.shift ·.2)).getD .error := by
  have only : ∀ y : Symbol, y.column? = some k.index → y = .terminal k := by
    intro y there
    cases y with
    | terminal j => rw [Kind.index_injective (Option.some.inj there)]
    | nonterminal n => cases there
  have placed : shiftRow transitions =
      transitions.foldl (fun row move => match move.1.column? with
        | some j => row.setIfInBounds j (.shift move.2)
        | none => row) (Array.replicate Kind.terminalCount .error) := by
    unfold shiftRow
    congr
    funext row ⟨x, target⟩
    cases x <;> rfl
  have inside : k.index < (Array.replicate Kind.terminalCount Action.error).size := by
    rw [Array.size_replicate]
    exact of_decide_eq_true terminal
  unfold entryOf
  rw [placed, foldl_place rfl only distinct inside]
  cases transitions.find? (·.1 = .terminal k) with
  | some move => rfl
  | none =>
    rw [Array.size_replicate] at inside
    simp [inside]

theorem join_gotoRow {count n : Nat} {transitions : List (Symbol × Nat)} (bound : n < count)
    (distinct : (transitions.map (·.1)).Nodup) : (gotoRow count transitions)[n]?.join =
      (transitions.find? (·.1 = .nonterminal n)).map (·.2) := by
  have only : ∀ y : Symbol, y.goto? = some n → y = .nonterminal n := by
    intro y there
    cases y with
    | terminal j => cases there
    | nonterminal m => rw [Option.some.inj there]
  have placed : gotoRow count transitions =
      transitions.foldl (fun row move => match move.1.goto? with
        | some j => row.setIfInBounds j (some move.2)
        | none => row) (Array.replicate count none) := by
    unfold gotoRow
    congr
    funext row ⟨x, target⟩
    cases x <;> rfl
  have inside : n < (Array.replicate count (none : Option Nat)).size := by
    rw [Array.size_replicate]
    exact bound
  rw [placed, foldl_place rfl only distinct inside]
  cases transitions.find? (·.1 = .nonterminal n) with
  | some move => rfl
  | none => simp [bound]

end Table

namespace Grammar

variable {g : Grammar} {state : Nat} {k : Kind}

/-- What a state does with a terminal before its complete items are looked at. -/
def shiftOn (g : Grammar) (state : Nat) (k : Kind) : Action :=
  (((Analysis.ofGrammar g).target? state (.terminal k)).map .shift).getD .error

theorem shiftOn_cases (g : Grammar) (state : Nat) (k : Kind) : g.shiftOn state k = .error ∨
    ∃ target, g.shiftOn state k = .shift target ∧ g.Leads state (.terminal k) target := by
  simp only [← target?_eq, shiftOn]
  cases (Analysis.ofGrammar g).target? state (.terminal k) with
  | none => exact .inl rfl
  | some target => exact .inr ⟨target, rfl, rfl⟩

theorem shiftOn_eq_shift {target : Nat} :
    g.shiftOn state k = .shift target ↔ g.Leads state (.terminal k) target := by
  rw [← target?_eq, shiftOn]
  cases (Analysis.ofGrammar g).target? state (.terminal k) <;> simp

theorem shiftOn_eq_error :
    g.shiftOn state k = .error ↔ ∀ target, ¬ g.Leads state (.terminal k) target := by
  simp only [← target?_eq, shiftOn]
  cases (Analysis.ofGrammar g).target? state (.terminal k) <;> simp

/-- The actions of the complete items of a state that a terminal can follow. -/
def offers (g : Grammar) (state : Nat) (k : Kind) : List Action :=
  ((Analysis.ofGrammar g).itemsWith (Analysis.ofGrammar g).lookaheads state).filterMap (g.offer? k)

theorem exists_of_mem_rhs {p : Nat} (inside : .terminal k ∈ g.rhs p) :
    ∃ production ∈ g.productions.toList, .terminal k ∈ production.rhs := by
  unfold rhs at inside
  split at inside
  · rename_i production found
    exact ⟨production, Array.mem_toList_iff.2 (Array.mem_of_getElem? found), inside⟩
  · simp at inside

theorem isTerminal_of_rhs (terminals : g.HasTerminals) {p : Nat}
    (inside : .terminal k ∈ g.rhs p) : k.isTerminal = true := by
  obtain ⟨production, member, inside⟩ := exists_of_mem_rhs inside
  exact terminals production member k inside

/-- No state has a transition at the end of input. -/
theorem ne_eof_of_leads (valid : g.validate = .ok ()) {target : Nat}
    (leads : g.Leads state (.terminal k) target) : k ≠ .eof := by
  obtain ⟨i, _, next⟩ := leads.exists_next
  obtain ⟨production, member, inside⟩ := exists_of_mem_rhs (List.mem_of_getElem? next)
  have usable := isUsable_of_validate valid member inside
  rintro rfl
  revert usable
  decide

/-- Every item lets only terminals follow. -/
theorem firstBelow (valid : g.validate = .ok ()) : Spread.FirstBelow g := by
  have terminals := hasTerminals_of_validate valid
  intro i
  exact First.ofSymbols_below (First.bounded_ofGrammar terminals) fun k member =>
    isTerminal_of_rhs terminals (List.mem_of_mem_drop member)

theorem mem_offers (valid : g.validate = .ok ()) {a : Action} :
    a ∈ g.offers state k ↔ ∃ i, g.Looks state i k.index ∧ g.IsComplete i ∧ a = g.actionOf i := by
  have terminals := firstBelow valid
  unfold offers
  rw [List.mem_filterMap]
  constructor
  · rintro ⟨entry, member, offer⟩
    obtain ⟨complete, lookahead, is⟩ := offer?_eq_some.1 offer
    exact ⟨entry.1, Analysis.itemsWith_looks (Analysis.sound_lookaheads terminals) member lookahead,
      complete, is⟩
  · rintro ⟨i, looks, complete, is⟩
    obtain ⟨set, member, lookahead⟩ := Analysis.exists_of_looks terminals looks
    exact ⟨(i, set), member, offer?_eq_some.2 ⟨complete, lookahead, is⟩⟩

/-- Acceptance is offered at the end of input only. -/
theorem eq_eof_of_accept (offered : .accept ∈ g.offers state k) :
    k = .eof := by
  obtain ⟨entry, member, offer⟩ := List.mem_filterMap.1 offered
  obtain ⟨_, lookahead, is⟩ := offer?_eq_some.1 offer
  have isStart : entry.1.production = g.startRule := by
    unfold actionOf at is
    split at is
    · assumption
    · cases is
  have ends := Analysis.itemsWith_endsOnly (Analysis.lookaheads_endsOnly g) member
  exact Kind.index_injective (ends isStart k.index lookahead)

/-- A state lists each of its items once. -/
theorem nodup_closeState {kernel : List (Item × IndexSet)}
    (isKernel : g.IsKernel (kernel.map (·.1))) :
    (((Analysis.ofGrammar g).closeState kernel).map (·.1)).Nodup := by
  have once := Analysis.once_spreadOf g kernel
  have added : ((Analysis.spreadOf g kernel).order.flatMap fun n =>
      (Analysis.ofGrammar g).startsOf n) = ((Analysis.spreadOf g kernel).order.filter
        (· < g.nonterminals.size)).flatMap fun n => (Analysis.ofGrammar g).startsOf n := by
    induction (Analysis.spreadOf g kernel).order with
    | nil => rfl
    | cons n ns ih =>
      by_cases bound : n < g.nonterminals.size
      · rw [List.filter_cons_of_pos (by simpa using bound), List.flatMap_cons, List.flatMap_cons, ih]
      · rw [List.filter_cons_of_neg (by simpa using bound), List.flatMap_cons,
          startsOf_eq_nil bound, List.nil_append, ih]
  have items : ((Analysis.ofGrammar g).closeState kernel).map (·.1) = kernel.map (·.1) ++
      (Analysis.spreadOf g kernel).order.flatMap fun n => (Analysis.ofGrammar g).startsOf n := by
    rw [Analysis.closeState_eq, List.map_append, List.map_flatMap]
    simp [Function.comp_def]
  rw [items]
  refine List.Nodup.append isKernel.distinct ?_ ?_
  · rw [added, List.nodup_flatMap]
    refine ⟨fun n _ => nodup_startsOf n, once.distinct.imp ?_⟩
    intro n m other i first second
    exact other (startsOf_disjoint first second)
  · intro i old new
    obtain ⟨n, _, start⟩ := List.mem_flatMap.1 new
    rcases isKernel.inside i old with dot | production
    · exact dot (Analysis.startsOf_ofGrammar start).1
    · exact Analysis.production_ne_startRule start production

/-- The dot of a complete item stands right behind the right-hand side. -/
theorem dot_eq_length {i : Item} (holds : g.Holds state i) (complete : g.IsComplete i) :
    i.dot = (g.rhs i.production).length :=
  Nat.le_antisymm (isItem_closure (g.isStateKernel_kernelOf state).items holds).2 complete

/-- Each complete item offers its own action. -/
theorem nodup_offers (valid : g.validate = .ok ()) : (g.offers state k).Nodup := by
  have sound := Analysis.sound_lookaheads (firstBelow valid)
  have distinct := nodup_closeState (Analysis.isKnown_knownKernel sound state).isKernel
  rw [← Analysis.itemsWith_eq] at distinct
  refine List.pairwise_filterMap.2 ((List.pairwise_map.1 distinct).imp_of_mem ?_)
  intro entry entry' member member' other a offer b offer' same
  obtain ⟨complete, _, is⟩ := offer?_eq_some.1 offer
  obtain ⟨complete', _, is'⟩ := offer?_eq_some.1 offer'
  have dot := dot_eq_length (Analysis.itemsWith_sound member) complete
  have dot' := dot_eq_length (Analysis.itemsWith_sound member') complete'
  obtain ⟨⟨p, d⟩, _⟩ := entry
  obtain ⟨⟨q, d'⟩, _⟩ := entry'
  have production : p = q := by
    rw [is, is', actionOf, actionOf] at same
    split at same <;> split at same
    · rename_i first second
      exact Eq.trans first second.symm
    · cases same
    · cases same
    · exact Action.reduce.inj same
  subst production
  exact other (congrArg (Item.mk p) (dot.trans dot'.symm))

/-- Only terminals can follow an item. -/
theorem isTerminal_of_looks (valid : g.validate = .ok ()) {i : Item}
    (looks : g.Looks state i k.index) : k.isTerminal = true := by
  have terminals := firstBelow valid
  obtain ⟨set, member, lookahead⟩ := Analysis.exists_of_looks terminals looks
  have sound := Analysis.sound_lookaheads terminals
  exact decide_eq_true (Analysis.itemsWith_below terminals sound member k.index lookahead)

end Grammar

namespace Table

variable {g : Grammar} {t : Table} {state : Nat} {k : Kind}

theorem exists_row (built : t.BuiltFrom g) {s : AutomatonState}
    (known : (Automaton.ofGrammar g).states[state]? = some s) : ∃ row, t.rows[state]? = some row := by
  have bound := (Array.getElem?_eq_some_iff.1 known).1
  have rows : t.rows.size = (Automaton.ofGrammar g).states.size := built.stateCount
  exact ⟨_, Array.getElem?_eq_getElem (rows ▸ bound)⟩

theorem entryOf_shifts {s : AutomatonState}
    (known : (Automaton.ofGrammar g).states[state]? = some s) (terminal : k.isTerminal = true) :
    entryOf (shiftRow s.transitions) k = g.shiftOn state k := by
  rw [entryOf_shiftRow terminal (Automaton.nodup_transitions known), Grammar.shiftOn]
  unfold Analysis.target?
  rw [show (Analysis.ofGrammar g).automaton = Automaton.ofGrammar g from rfl, known,
    Option.bind_eq_bind, Option.bind_some, Option.map_map]
  rfl

/-- What a built table does with a terminal. -/
theorem action_column (built : t.BuiltFrom g) {s : AutomatonState}
    (known : (Automaton.ofGrammar g).states[state]? = some s) (terminal : k.isTerminal = true) :
    (g.offers state k).foldlM (g.resolve state k) (g.shiftOn state k) = .ok (t.action state k) := by
  obtain ⟨row, found⟩ := exists_row built known
  have entered := (row_eq built found known).1
  have column := foldlM_enterItem (size_shiftRow _) entered terminal
  have action : t.action state k = entryOf row.actions k := by
    rw [Table.action, found]
    rfl
  rw [action, ← entryOf_shifts known terminal]
  exact column

/-- Only states act, and only on terminals. -/
theorem exists_of_action (built : t.BuiltFrom g) (acts : t.action state k ≠ .error) :
    (∃ s, (Automaton.ofGrammar g).states[state]? = some s) ∧ k.isTerminal = true := by
  obtain ⟨row, found, entry⟩ := action_eq acts rfl
  obtain ⟨s, known⟩ := exists_state built found
  have size := size_of_foldlM_enterItem (size_shiftRow _) (row_eq built found known).1
  have inside := (Array.getElem?_eq_some_iff.1 entry).1
  exact ⟨⟨s, known⟩, decide_eq_true (size ▸ inside)⟩

/-- Every transition over a nonterminal is a goto. -/
theorem goto_of_leads (built : t.BuiltFrom g) {n next : Nat} (bound : n < g.nonterminals.size)
    (leads : g.Leads state (.nonterminal n) next) : t.goto? state n = some next := by
  obtain ⟨s, known, transition⟩ := id leads
  obtain ⟨row, found⟩ := exists_row built known
  rw [Table.goto?, found]
  dsimp only
  rw [(row_eq built found known).2, join_gotoRow bound (Automaton.nodup_transitions known)]
  have target := Grammar.target?_eq.2 leads
  unfold Analysis.target? at target
  rw [show (Analysis.ofGrammar g).automaton = Automaton.ofGrammar g from rfl, known] at target
  exact target

end Table

end ShaderTree
