import ShaderTree.Fault
import ShaderTree.Proofs.Table.Rows

/-! Built tables accept at the end of input only: nothing else ever becomes a lookahead of the start
rule. -/
namespace ShaderTree

namespace Analysis

variable {a : Analysis} {known : Lookaheads}

/-- Only the end of input follows the start rule. -/
def EndsOnly (a : Analysis) (entry : Item × IndexSet) : Prop :=
  entry.1.production = a.grammar.startRule → ∀ i, entry.2.mem i = true → i = Kind.eof.index

/-- The lookaheads known of the items of the kernels. -/
def KernelsEndOnly (a : Analysis) (known : Lookaheads) : Prop :=
  ∀ (state slot : Nat) (item : Item) (set : IndexSet), (a.kernelOf state)[slot]? = some item →
    (known[state]?.getD [])[slot]? = some set → a.EndsOnly (item, set)

theorem startsOf_ofGrammar {g : Grammar} {n : Nat} {i : Item}
    (member : i ∈ (Analysis.ofGrammar g).startsOf n) :
    i.dot = 0 ∧ ∃ p, g.productions[i.production]? = some p ∧ p.lhs = n := by
  unfold startsOf ofGrammar at member
  dsimp only at member
  rw [Array.getElem?_map] at member
  cases inside : (Array.range g.nonterminals.size)[n]? with
  | none => simp [inside] at member
  | some m =>
    obtain ⟨bound, is⟩ := Array.getElem?_eq_some_iff.1 inside
    rw [Array.getElem_range] at is
    subst is
    simp only [inside, Option.map_some, Option.getD_some, Grammar.startsOf, List.mem_map,
      Grammar.productionsOf, List.mem_filter] at member
    obtain ⟨p, ⟨_, holds⟩, rfl⟩ := member
    cases found : g.productions[p]? with
    | none => simp [found] at holds
    | some production =>
      rw [found, Option.any_some, decide_eq_true_eq] at holds
      exact ⟨rfl, production, rfl, holds⟩

theorem production_ne_startRule {g : Grammar} {n : Nat} {i : Item}
    (member : i ∈ (Analysis.ofGrammar g).startsOf n) : i.production ≠ g.startRule := by
  obtain ⟨_, p, found, _⟩ := startsOf_ofGrammar member
  have bound := (Array.getElem?_eq_some_iff.1 found).1
  exact Nat.ne_of_lt bound

theorem closeState_cases {kernel : List (Item × IndexSet)} {entry : Item × IndexSet}
    (member : entry ∈ a.closeState kernel) :
    entry ∈ kernel ∨ ∃ n, entry.1 ∈ a.startsOf n := by
  unfold closeState at member
  dsimp only at member
  rcases List.mem_append.1 member with inKernel | added
  · exact .inl inKernel
  · obtain ⟨n, _, here⟩ := List.mem_flatMap.1 added
    obtain ⟨i, inside, rfl⟩ := List.mem_map.1 here
    exact .inr ⟨n, inside⟩

theorem itemsWith_endsOnly {g : Grammar} {known : Lookaheads} {state : Nat}
    (ends : (Analysis.ofGrammar g).KernelsEndOnly known) {entry : Item × IndexSet}
    (member : entry ∈ (Analysis.ofGrammar g).itemsWith known state) :
    (Analysis.ofGrammar g).EndsOnly entry := by
  rcases closeState_cases member with inKernel | ⟨n, start⟩
  · obtain ⟨slot, bound, is⟩ := List.mem_iff_getElem.1 inKernel
    have found := List.getElem?_eq_some_iff.2 ⟨bound, is⟩
    obtain ⟨item, set⟩ := entry
    obtain ⟨itemAt, setAt⟩ := List.getElem?_zip_eq_some.1 found
    exact ends state slot item set itemAt setAt
  · intro isStart
    exact absurd isStart (production_ne_startRule start)

theorem passItem_endsOnly {state : Nat} {entry : Item × IndexSet} (own : a.EndsOnly entry)
    (ends : a.KernelsEndOnly known) : a.KernelsEndOnly (a.passItem state known entry) := by
  unfold passItem
  split
  · exact ends
  · rename_i target _
    split
    · exact ends
    · rename_i slot found
      intro st j item set itemAt setAt isStart i member
      rw [Array.getElem?_modify] at setAt
      by_cases here : target = st
      · subst here
        rw [if_pos rfl] at setAt
        cases row : known[target]? with
        | none => simp [row] at setAt
        | some sets =>
          rw [row, Option.map_some, Option.getD_some, List.getElem?_modify] at setAt
          cases old : sets[j]? with
          | none => simp [old] at setAt
          | some before =>
            have ownSet := ends target j item before itemAt (by rw [row, Option.getD_some, old])
              isStart
            rw [old, Option.map_eq_map, Option.map_some, Option.some.injEq] at setAt
            split at setAt
            · rename_i same
              subst same
              subst setAt
              rw [IndexSet.mem_union, Bool.or_eq_true] at member
              rcases member with before' | passed
              · exact ownSet i before'
              · obtain ⟨bound, is, _⟩ := List.findIdx?_eq_some_iff_getElem.1 found
                have same : item = entry.1.advance := by
                  obtain ⟨_, at'⟩ := List.getElem?_eq_some_iff.1 itemAt
                  rw [← at']
                  exact of_decide_eq_true is
                subst same
                exact own isStart i passed
            · subst setAt
              exact ownSet i member
      · rw [if_neg here] at setAt
        exact ends st j item set itemAt setAt isStart i member

theorem passState_endsOnly {g : Grammar} {known : Lookaheads} {state : Nat}
    (ends : (Analysis.ofGrammar g).KernelsEndOnly known) :
    (Analysis.ofGrammar g).KernelsEndOnly ((Analysis.ofGrammar g).passState known state) :=
  foldl_induction ends fun _ _ member next =>
    passItem_endsOnly (itemsWith_endsOnly ends member) next

theorem saturate_endsOnly {g : Grammar} (n : Nat) {known : Lookaheads}
    (ends : (Analysis.ofGrammar g).KernelsEndOnly known) :
    (Analysis.ofGrammar g).KernelsEndOnly ((Analysis.ofGrammar g).saturate n known) := by
  induction n generalizing known with
  | zero => exact ends
  | succ n ih =>
    unfold saturate
    dsimp only
    split
    · exact ends
    · exact ih (foldl_induction ends fun _ _ _ next => passState_endsOnly next)

theorem initialLookaheads_endsOnly : a.KernelsEndOnly a.initialLookaheads := by
  intro state slot item set itemAt setAt isStart i member
  have empty {sets : List IndexSet}
      (row : (a.automaton.states.map fun s => s.kernel.map fun _ => IndexSet.empty)[state]? =
        some sets) : ∀ x ∈ sets, x = IndexSet.empty := by
    rw [Array.getElem?_map] at row
    obtain ⟨s, _, rfl⟩ := Option.map_eq_some_iff.1 row
    intro x inside
    obtain ⟨_, _, rfl⟩ := List.mem_map.1 inside
    rfl
  unfold initialLookaheads at setAt
  dsimp only at setAt
  rw [Array.getElem?_modify] at setAt
  cases row : (a.automaton.states.map fun s => s.kernel.map fun _ => IndexSet.empty)[state]? with
  | none =>
    rw [row] at setAt
    simp at setAt
  | some sets =>
    have allEmpty := empty row
    rw [row] at setAt
    split at setAt
    · rw [Option.map_some, Option.getD_some, List.getElem?_modify] at setAt
      cases old : sets[slot]? with
      | none => simp [old] at setAt
      | some before =>
        have is := allEmpty before (List.mem_of_getElem? old)
        rw [old, Option.map_eq_map, Option.map_some, Option.some.injEq] at setAt
        split at setAt
        · subst setAt
          rw [is, IndexSet.mem_insert, IndexSet.mem_empty, Bool.false_or, decide_eq_true_eq]
            at member
          exact member.symm
        · subst setAt
          rw [is, IndexSet.mem_empty] at member
          cases member
    · rw [Option.getD_some] at setAt
      rw [allEmpty set (List.mem_of_getElem? setAt), IndexSet.mem_empty] at member
      cases member

theorem lookaheads_endsOnly (g : Grammar) :
    (Analysis.ofGrammar g).KernelsEndOnly (Analysis.ofGrammar g).lookaheads :=
  saturate_endsOnly _ initialLookaheads_endsOnly

end Analysis

namespace Table

/-- What the parts of a built table come from. -/
structure BuiltFrom (g : Grammar) (t : Table) : Prop where
  valid : g.validate = .ok ()
  words : fitsWords g = true
  version : t.version = currentVersion
  kinds : t.kindCount = Kind.count
  reductions : t.reductions = reductionsOf g
  stateCount : t.rows.size = (Analysis.ofGrammar g).automaton.states.size
  row : ∀ state row, t.rows[state]? = some row →
    buildRow (Analysis.ofGrammar g) (Analysis.ofGrammar g).lookaheads state = .ok row
  names : t.nonterminalNames = g.nonterminals.map (·.name)

theorem build_ok {g : Grammar} {t : Table} (h : Table.build g = .ok t) : BuiltFrom g t := by
  unfold Table.build at h
  obtain ⟨⟨⟩, valid, h⟩ := bind_eq_ok.1 h
  by_cases words : fitsWords g = true
  · rw [words] at h
    obtain ⟨list, rows, h⟩ := bind_eq_ok.1 h
    obtain rfl := Except.ok.inj h
    refine ⟨valid, words, rfl, rfl, rfl, ?_, ?_, rfl⟩
    · rw [List.size_toArray, length_of_mapM rows, List.length_range]
    · intro state row at'
      rw [List.getElem?_toArray] at at'
      rcases getElem?_of_mapM rows state with ⟨_, none⟩ | ⟨x, y, is, found, built⟩
      · rw [none] at at'; cases at'
      · rw [found] at at'
        obtain rfl := Option.some.inj at'
        obtain ⟨_, rfl⟩ := List.getElem?_eq_some_iff.1 is
        rw [List.getElem_range] at built
        exact built
  · rw [if_pos (by simpa using words)] at h
    cases h

theorem reductions_getElem? {g : Grammar} {t : Table} (built : t.BuiltFrom g) {p : Nat}
    {production : Production} (known : g.productions[p]? = some production) :
    t.reductions[p]? = some ⟨production.lhs, production.rhs.length,
      g.nonterminals[production.lhs]?.bind (·.node?)⟩ := by
  rw [built.reductions, reductionsOf, Array.getElem?_map, known]
  rfl

/-- A built table accepts at the end of input only. -/
theorem BuiltFrom.eof_of_accept {g : Grammar} {t : Table} (built : t.BuiltFrom g) {state : Nat}
    {k : Kind} (action : t.action state k = .accept) : k = .eof := by
  unfold Table.action at action
  cases found : t.rows[state]? with
  | none => simp [found] at action
  | some row =>
    rw [found] at action
    dsimp only at action
    cases entry : row.actions[k.index]? with
    | none => simp [entry] at action
    | some a =>
      rw [entry, Option.getD_some] at action
      subst action
      obtain ⟨e, member, _, lookahead, is⟩ :=
        buildRow_justified (built.row state row found) k.index .accept entry
      have isStart : e.1.production = g.startRule := by
        unfold Grammar.actionOf at is
        split at is
        · assumption
        · cases is
      have ends := Analysis.itemsWith_endsOnly (Analysis.lookaheads_endsOnly g) member
      exact Kind.index_injective (ends isStart k.index lookahead)

theorem eof_of_accept {g : Grammar} {t : Table} (h : Table.build g = .ok t) {state : Nat} {k : Kind}
    (action : t.action state k = .accept) : k = .eof :=
  (build_ok h).eof_of_accept action

end Table

end ShaderTree
