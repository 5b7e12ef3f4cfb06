import ShaderTree.Proofs.Table.Completeness

/-! How the entries of a built table settle conflicts. As long as no production ties with the
terminal at a nonassociative level, only levels decide. A tie of that sort empties the entry, and
what comes after it is entered as if nothing had been there. -/
namespace ShaderTree

namespace Grammar

/-- A production has a completed item in a state, and the terminal can follow it there. -/
def Completes (g : Grammar) (state : Nat) (k : Kind) (p : Nat) : Prop :=
  p ≠ g.startRule ∧ ∃ d, g.Looks state ⟨p, d⟩ k.index ∧ (g.rhs p).length ≤ d

/-- A production has a lower level than another. -/
def Looser (g : Grammar) (p q : Nat) : Prop :=
  ∃ a b, g.productionPrecedence? p = some a ∧ g.productionPrecedence? q = some b ∧ a.level < b.level

/-- A production is at the level of a terminal, with an associativity. -/
def Level (g : Grammar) (p : Nat) (k : Kind) (associativity : Associativity) : Prop :=
  ∃ a b, g.productionPrecedence? p = some a ∧ g.tokenPrecedence? k = some b ∧ a.level = b.level ∧
    b.associativity = associativity

/-- A production is above the level of a terminal. -/
def Above (g : Grammar) (p : Nat) (k : Kind) : Prop :=
  ∃ a b, g.productionPrecedence? p = some a ∧ g.tokenPrecedence? k = some b ∧ b.level < a.level

/-- A production is below the level of a terminal. -/
def Below (g : Grammar) (p : Nat) (k : Kind) : Prop :=
  ∃ a b, g.productionPrecedence? p = some a ∧ g.tokenPrecedence? k = some b ∧ a.level < b.level

section

variable {g : Grammar}

instance (p : Nat) (k : Kind) : Decidable (g.Above p k) :=
  decidable_of_iff ((g.productionPrecedence? p).any fun a =>
    (g.tokenPrecedence? k).any fun b => b.level < a.level) (by simp [Above, Option.any_eq_true])

instance (p : Nat) (k : Kind) : Decidable (g.Below p k) :=
  decidable_of_iff ((g.productionPrecedence? p).any fun a =>
    (g.tokenPrecedence? k).any fun b => a.level < b.level) (by simp [Below, Option.any_eq_true])

instance (p : Nat) (k : Kind) (associativity : Associativity) :
    Decidable (g.Level p k associativity) :=
  decidable_of_iff ((g.productionPrecedence? p).any fun a => (g.tokenPrecedence? k).any fun b =>
    a.level = b.level && b.associativity = associativity) (by simp [Level, Option.any_eq_true])

end

/-- What an entry says of the shift and of the actions that were added to it. -/
def Settled (g : Grammar) (k : Kind) (shift : Action) (added : List Action) : Action → Prop
  | .error => shift = .error ∧ added = []
  | .shift target => shift = .shift target ∧
      ∀ a ∈ added, ∃ p, a = .reduce p ∧ (g.Below p k ∨ g.Level p k .right)
  | .reduce p => .reduce p ∈ added ∧
      (∀ a ∈ added, a ≠ .reduce p → ∃ q, a = .reduce q ∧ g.Looser q p) ∧
      (shift ≠ .error → g.Above p k ∨ g.Level p k .left)
  | .accept => shift = .error ∧ .accept ∈ added ∧ ∀ a ∈ added, a = .accept

variable {g : Grammar} {state : Nat} {k : Kind} {shift : Action} {added : List Action}

theorem Looser.trans {p q r : Nat} (first : g.Looser p q) (second : g.Looser q r) :
    g.Looser p r := by
  obtain ⟨a, b, ofP, ofQ, less⟩ := first
  obtain ⟨b', c, ofQ', ofR, less'⟩ := second
  obtain rfl := Option.some.inj (ofQ.symm.trans ofQ')
  exact ⟨a, c, ofP, ofR, Nat.lt_trans less less'⟩

theorem Looser.above {p q : Nat} (looser : g.Looser p q) (higher : g.Above p k ∨ g.Level p k .left) :
    g.Above q k := by
  obtain ⟨a, b, ofP, ofQ, less⟩ := looser
  rcases higher with ⟨a', c, ofP', ofK, higher⟩ | ⟨a', c, ofP', ofK, same, _⟩
  · obtain rfl := Option.some.inj (ofP.symm.trans ofP')
    exact ⟨b, c, ofQ, ofK, Nat.lt_trans higher less⟩
  · obtain rfl := Option.some.inj (ofP.symm.trans ofP')
    exact ⟨b, c, ofQ, ofK, same ▸ less⟩

/-- What loses to the shift is below what wins over it. -/
theorem looser_of_shift {p q : Nat} (loses : g.Below q k ∨ g.Level q k .right)
    (wins : g.Above p k ∨ g.Level p k .left) : g.Looser q p := by
  rcases loses with ⟨b, c, ofQ, ofK, under⟩ | ⟨b, c, ofQ, ofK, same, right⟩ <;>
    rcases wins with ⟨a, c', ofP, ofK', higher⟩ | ⟨a, c', ofP, ofK', same', left⟩ <;>
    obtain rfl := Option.some.inj (ofK.symm.trans ofK')
  · exact ⟨b, a, ofQ, ofP, Nat.lt_trans under higher⟩
  · exact ⟨b, a, ofQ, ofP, same' ▸ under⟩
  · exact ⟨b, a, ofQ, ofP, same ▸ higher⟩
  · rw [right] at left
    cases left

/-- A production and a shift are settled by their levels, or empty the entry. -/
theorem shiftOrReduce?_eq_some {p : Nat} {s a : Action} (h : g.shiftOrReduce? k s p = some a) :
    a = .reduce p ∧ (g.Above p k ∨ g.Level p k .left) ∨
      a = s ∧ (g.Below p k ∨ g.Level p k .right) ∨ a = .error ∧ g.Level p k .nonassoc := by
  unfold shiftOrReduce? at h
  obtain ⟨x, ofP, h⟩ := Option.bind_eq_some_iff.1 h
  obtain ⟨y, ofK, h⟩ := Option.bind_eq_some_iff.1 h
  split at h
  · rename_i higher
    exact .inl ⟨(Option.some.inj h).symm, .inl ⟨x, y, ofP, ofK, higher⟩⟩
  · split at h
    · rename_i under
      exact .inr (.inl ⟨(Option.some.inj h).symm, .inl ⟨x, y, ofP, ofK, under⟩⟩)
    · have same : x.level = y.level := by omega
      split at h
      · rename_i left
        exact .inl ⟨(Option.some.inj h).symm, .inr ⟨x, y, ofP, ofK, same, left⟩⟩
      · rename_i right
        exact .inr (.inl ⟨(Option.some.inj h).symm, .inr ⟨x, y, ofP, ofK, same, right⟩⟩)
      · rename_i nonassoc
        exact .inr (.inr ⟨(Option.some.inj h).symm, x, y, ofP, ofK, same, nonassoc⟩)

/-- A tie at a nonassociative level empties an entry that shifts. -/
theorem resolve_tie (state target : Nat) {p : Nat} (tie : g.Level p k .nonassoc) :
    g.resolve state k (.shift target) (.reduce p) = .ok .error := by
  obtain ⟨a, b, ofP, ofK, same, nonassoc⟩ := tie
  simp [resolve, shiftOrReduce?, ofP, ofK, same, nonassoc]

theorem reduceOrReduce?_eq_some {old new : Nat} {a : Action}
    (h : g.reduceOrReduce? old new = some a) :
    a = .reduce new ∧ g.Looser old new ∨ a = .reduce old ∧ g.Looser new old := by
  unfold reduceOrReduce? at h
  obtain ⟨x, ofOld, h⟩ := Option.bind_eq_some_iff.1 h
  obtain ⟨y, ofNew, h⟩ := Option.bind_eq_some_iff.1 h
  obtain ⟨_, differ, h⟩ := Option.bind_eq_some_iff.1 h
  have other : x.level ≠ y.level := by
    unfold guard at differ
    split at differ
    · assumption
    · cases differ
  obtain rfl := Option.some.inj h
  split
  · rename_i less
    exact .inl ⟨rfl, x, y, ofOld, ofNew, less⟩
  · exact .inr ⟨rfl, y, x, ofNew, ofOld, by omega⟩

/-- One action more keeps an entry settled, if it does not tie. -/
theorem Settled.resolve {current candidate a : Action} (settled : g.Settled k shift added current)
    (complete : (∃ p, candidate = .reduce p) ∨ candidate = .accept)
    (untied : shift ≠ .error → ∀ p, candidate = .reduce p → ¬ g.Level p k .nonassoc)
    (h : g.resolve state k current candidate = .ok a) :
    g.Settled k shift (added ++ [candidate]) a := by
  unfold Grammar.resolve at h
  dsimp only at h
  split at h
  · obtain ⟨none, rfl⟩ := settled
    obtain rfl := Except.ok.inj h
    rcases complete with ⟨p, rfl⟩ | rfl
    · exact ⟨by simp, by simp, fun some => absurd none some⟩
    · exact ⟨none, by simp, by simp⟩
  · rename_i target p
    obtain ⟨is, losers⟩ := settled
    have known : shift ≠ .error := by simp [is]
    cases chosen : g.shiftOrReduce? k (.shift target) p with
    | none => simp [chosen] at h
    | some b =>
      rw [chosen] at h
      obtain rfl := Except.ok.inj h
      rcases shiftOrReduce?_eq_some chosen with ⟨rfl, wins⟩ | ⟨rfl, loses⟩ | ⟨_, tie⟩
      · refine ⟨by simp, ?_, fun _ => wins⟩
        intro a member other
        rcases List.mem_append.mp member with member | member
        · obtain ⟨q, rfl, loses⟩ := losers a member
          exact ⟨q, rfl, looser_of_shift loses wins⟩
        · exact absurd (List.mem_singleton.1 member) other
      · refine ⟨is, ?_⟩
        intro a member
        rcases List.mem_append.mp member with member | member
        · exact losers a member
        · exact ⟨p, List.mem_singleton.1 member, loses⟩
      · exact absurd tie (untied known p rfl)
  · rename_i old new
    obtain ⟨here, others, wins⟩ := settled
    cases chosen : g.reduceOrReduce? old new with
    | none => simp [chosen] at h
    | some b =>
      rw [chosen] at h
      obtain rfl := Except.ok.inj h
      rcases reduceOrReduce?_eq_some chosen with ⟨rfl, looser⟩ | ⟨rfl, looser⟩
      · refine ⟨by simp, ?_, fun known => .inl (looser.above (wins known))⟩
        intro a member other
        rcases List.mem_append.mp member with member | member
        · by_cases same : a = .reduce old
          · exact ⟨old, same, looser⟩
          · obtain ⟨q, rfl, less⟩ := others a member same
            exact ⟨q, rfl, less.trans looser⟩
        · exact absurd (List.mem_singleton.1 member) other
      · refine ⟨List.mem_append_left _ here, ?_, wins⟩
        intro a member other
        rcases List.mem_append.mp member with member | member
        · exact others a member other
        · exact ⟨new, List.mem_singleton.1 member, looser⟩
  · cases h

theorem Settled.foldlM {offers : List Action} {current a : Action}
    (settled : g.Settled k shift added current)
    (complete : ∀ b ∈ offers, (∃ p, b = .reduce p) ∨ b = .accept)
    (untied : shift ≠ .error → ∀ p, .reduce p ∈ offers → ¬ g.Level p k .nonassoc)
    (h : offers.foldlM (g.resolve state k) current = .ok a) :
    g.Settled k shift (added ++ offers) a := by
  induction offers generalizing current added with
  | nil =>
    obtain rfl := Except.ok.inj h
    rw [List.append_nil]
    exact settled
  | cons b offers ih =>
    rw [List.foldlM_cons] at h
    cases resolved : g.resolve state k current b with
    | error e => rw [resolved] at h; cases h
    | ok c =>
      rw [resolved] at h
      have first := settled.resolve (complete b (.head _))
        (fun known p is => untied known p (is ▸ .head _)) resolved
      rw [← List.singleton_append, ← List.append_assoc]
      exact ih first (fun d member => complete d (.tail _ member))
        (fun known p member => untied known p (.tail _ member)) h

theorem reduce_mem_offers (valid : g.validate = .ok ()) {p : Nat} :
    .reduce p ∈ g.offers state k ↔ g.Completes state k p := by
  rw [mem_offers valid]
  constructor
  · rintro ⟨⟨q, d⟩, looks, complete, is⟩
    unfold actionOf at is
    split at is
    · cases is
    · rename_i other
      obtain rfl := Action.reduce.inj is
      exact ⟨other, d, looks, complete⟩
  · rintro ⟨other, d, looks, complete⟩
    exact ⟨⟨p, d⟩, looks, complete, (if_neg other).symm⟩

theorem offers_cases (valid : g.validate = .ok ()) {a : Action} (member : a ∈ g.offers state k) :
    (∃ p, a = .reduce p) ∨ a = .accept := by
  obtain ⟨i, _, _, rfl⟩ := (mem_offers valid).1 member
  unfold actionOf
  split
  · exact .inr rfl
  · exact .inl ⟨_, rfl⟩

end Grammar

namespace Table

variable {g : Grammar} {t : Table} {state : Nat} {k : Kind}

/-- Without ties an entry is settled by the levels alone. -/
theorem settled_action (built : t.BuiltFrom g) {s : AutomatonState}
    (known : (Automaton.ofGrammar g).states[state]? = some s) (terminal : k.isTerminal = true)
    (untied : ∀ p target, g.Leads state (.terminal k) target → g.Completes state k p →
      ¬ g.Level p k .nonassoc) :
    g.Settled k (g.shiftOn state k) (g.offers state k) (t.action state k) := by
  have column := action_column built known terminal
  have empty : g.Settled k (g.shiftOn state k) [] (g.shiftOn state k) := by
    rcases g.shiftOn_cases state k with shift | ⟨target, shift, _⟩
    · rw [shift]
      exact ⟨rfl, rfl⟩
    · rw [shift]
      exact ⟨rfl, by simp⟩
  have settled := empty.foldlM (fun _ member => Grammar.offers_cases built.valid member) ?_ column
  · rwa [List.nil_append] at settled
  · intro transition p member
    rcases g.shiftOn_cases state k with none | ⟨target, _, leads⟩
    · exact absurd none transition
    · exact untied p target leads ((Grammar.reduce_mem_offers built.valid).1 member)

/-- Conflicts that no tie comes into are settled by levels: what an entry reduces is a completed
production above all others, and above a shift or level with it and grouping to the left; an entry
that shifts has only productions below it or level with it and grouping to the right. A lone
production that ties at a nonassociative level empties the entry. -/
theorem action_settled (built : Table.build g = .ok t) (state : Nat) (k : Kind) :
    ((∀ p target, g.Leads state (.terminal k) target → g.Completes state k p →
        ¬ g.Level p k .nonassoc) →
      (∀ p, t.action state k = .reduce p → g.Completes state k p ∧
        (∀ q, g.Completes state k q → q ≠ p → g.Looser q p) ∧
        ∀ target, g.Leads state (.terminal k) target → g.Above p k ∨ g.Level p k .left) ∧
      ∀ target, t.action state k = .shift target → g.Leads state (.terminal k) target ∧
        ∀ q, g.Completes state k q → g.Below q k ∨ g.Level q k .right) ∧
    ∀ p target, g.Leads state (.terminal k) target → g.Completes state k p →
      g.Level p k .nonassoc → (∀ q, g.Completes state k q → q = p) → t.action state k = .error := by
  have parts := build_ok built
  have offered {q : Nat} (completes : g.Completes state k q) : .reduce q ∈ g.offers state k :=
    (Grammar.reduce_mem_offers parts.valid).2 completes
  refine ⟨fun untied => ⟨?_, ?_⟩, ?_⟩
  · intro p action
    obtain ⟨⟨s, known⟩, terminal⟩ := exists_of_action parts (k := k) (by rw [action]; simp)
    have settled := settled_action parts known terminal untied
    rw [action] at settled
    obtain ⟨member, others, wins⟩ := settled
    refine ⟨(Grammar.reduce_mem_offers parts.valid).1 member, ?_, ?_⟩
    · intro q completes other
      obtain ⟨q', is, looser⟩ := others _ (offered completes) (by simpa using other)
      exact Action.reduce.inj is ▸ looser
    · intro target leads
      exact wins (by simp [Grammar.shiftOn_eq_shift.2 leads])
  · intro target action
    obtain ⟨⟨s, known⟩, terminal⟩ := exists_of_action parts (k := k) (by rw [action]; simp)
    have settled := settled_action parts known terminal untied
    rw [action] at settled
    obtain ⟨shift, losers⟩ := settled
    refine ⟨Grammar.shiftOn_eq_shift.1 shift, ?_⟩
    intro q completes
    obtain ⟨q', is, loses⟩ := losers _ (offered completes)
    exact Action.reduce.inj is ▸ loses
  · intro p target leads completes tie alone
    obtain ⟨s, known, _⟩ := id leads
    obtain ⟨_, d, looks, _⟩ := id completes
    have column := action_column parts known (Grammar.isTerminal_of_looks parts.valid looks)
    have only : g.offers state k = [.reduce p] := by
      refine List.perm_singleton.1 ((List.perm_ext_iff_of_nodup
        (Grammar.nodup_offers parts.valid) (List.nodup_singleton _)).2 fun a => ?_)
      rw [List.mem_singleton]
      constructor
      · intro member
        rcases Grammar.offers_cases parts.valid member with ⟨q, rfl⟩ | rfl
        · rw [alone q ((Grammar.reduce_mem_offers parts.valid).1 member)]
        · exact absurd (Grammar.eq_eof_of_accept member)
            (Grammar.ne_eof_of_leads parts.valid leads)
      · rintro rfl
        exact offered completes
    have emptied := Grammar.resolve_tie state target tie
    rw [only, List.foldlM_cons, Grammar.shiftOn_eq_shift.2 leads, emptied] at column
    exact (Except.ok.inj column).symm

/-- What levels call for in an entry: a production that is reduced is above all others and not below
the shift, and a tie at a nonassociative level that nothing overrules leaves the entry empty. -/
def ObeysLevels (t : Table) (g : Grammar) (state : Nat) (k : Kind) : Prop :=
  (∀ p, t.action state k = .reduce p →
    (∀ q, g.Completes state k q → q ≠ p → g.Looser q p) ∧
    ∀ target, g.Leads state (.terminal k) target → g.Above p k ∨ g.Level p k .left) ∧
  ∀ p target, g.Leads state (.terminal k) target → g.Completes state k p →
    g.Level p k .nonassoc → (∀ q, g.Completes state k q → ¬ g.Above q k) →
    t.action state k = .error

end Table

theorem Table.action_settled_sums : ∃ t, Table.build .sums = .ok t ∧
    t.action 4 .plus = .reduce 0 ∧ Grammar.sums.Completes 4 .plus 0 ∧
    (Grammar.sums.Above 0 .plus ∨ Grammar.sums.Level 0 .plus .left) := by
  obtain ⟨t, built, entry⟩ := exists_built (g := .sums) (P := fun t =>
    t.action 4 .plus = .reduce 0) (by with_unfolding_all decide)
  have transition : (Analysis.ofGrammar .sums).target? 4 (.terminal .plus) = some 3 := by
    with_unfolding_all decide
  have left (p : Nat) (a : Associativity) (level : Grammar.sums.Level p .plus a) : a = .left := by
    obtain ⟨_, b, _, ofPlus, _, rfl⟩ := level
    have token : Grammar.sums.tokenPrecedence? .plus = some ⟨0, .left⟩ := rfl
    rw [← Option.some.inj (token.symm.trans ofPlus)]
  have untied (p target : Nat) (_ : Grammar.sums.Leads 4 (.terminal .plus) target)
      (_ : Grammar.sums.Completes 4 .plus p) : ¬ Grammar.sums.Level p .plus .nonassoc := by
    intro tie
    cases left p _ tie
  obtain ⟨completes, _, wins⟩ := ((action_settled built 4 .plus).1 untied).1 0 entry
  exact ⟨t, built, entry, completes, wins 3 (Grammar.target?_eq.1 transition)⟩

/-! A production that ties and, behind it, one that does not -/

def Grammar.twoReadings : Grammar :=
  { nonterminals := #[.hidden "product", .hidden "first", .hidden "second"]
    levels := #[⟨.left, [.plus]⟩, ⟨.nonassoc, [.star]⟩]
    productions := #[⟨0, [.nonterminal 1, .terminal .star], none⟩,
      ⟨0, [.nonterminal 2, .terminal .star], none⟩, ⟨0, [.terminal .ident, .terminal .star], none⟩,
      ⟨1, [.terminal .ident], some 1⟩, ⟨2, [.terminal .ident], some 0⟩]
    start := 0 }

set_option maxRecDepth 20000 in
/-- The entry that the tie empties is filled again by the production of the lower level. -/
theorem Table.not_obeysLevels : ∃ t, Table.build .twoReadings = .ok t ∧
    t.action 4 .star = .reduce 4 ∧ ¬ t.ObeysLevels .twoReadings 4 .star := by
  obtain ⟨t, built, entry⟩ := exists_built (g := .twoReadings) (P := fun t =>
    t.action 4 .star = .reduce 4) (by with_unfolding_all decide)
  have offers : Grammar.twoReadings.offers 4 .star = [.reduce 3, .reduce 4] := by with_unfolding_all decide
  refine ⟨t, built, entry, ?_⟩
  rintro ⟨above, _⟩
  have completes : Grammar.twoReadings.Completes 4 .star 3 :=
    (Grammar.reduce_mem_offers (build_ok built).valid).1 (by simp [offers])
  obtain ⟨a, b, first, second, less⟩ := (above 4 entry).1 3 completes (by decide)
  have ofFirst : Grammar.twoReadings.productionPrecedence? 3 = some ⟨1, .nonassoc⟩ := rfl
  have ofSecond : Grammar.twoReadings.productionPrecedence? 4 = some ⟨0, .left⟩ := rfl
  rw [← Option.some.inj (ofFirst.symm.trans first),
    ← Option.some.inj (ofSecond.symm.trans second)] at less
  exact Nat.not_lt_zero 1 less

end ShaderTree
