import ShaderTree.Proofs.Table.Columns
import ShaderTree.Proofs.Table.Drive

/-! A table in whose making no conflict came up accepts every word of the language: on a word with a
tree the machine makes the shifts and reductions of the tree, one after the other. -/
namespace ShaderTree

namespace Grammar

variable {g : Grammar} {state : Nat} {k : Kind} {i : Item}

theorem productionPrecedence?_eq_none (levels : g.levels = #[]) (p : Nat) :
    g.productionPrecedence? p = none := by
  have level (n : Nat) : g.precedenceOfLevel? n = none := by simp [precedenceOfLevel?, levels]
  have token (k : Kind) : g.tokenPrecedence? k = none := by simp [tokenPrecedence?, levels]
  unfold productionPrecedence?
  cases g.productions[p]? with
  | none => rfl
  | some production =>
    dsimp only [Option.bind_eq_bind, Option.bind_some]
    cases production.level? with
    | some n => exact level n
    | none =>
      refine List.findSome?_eq_none_iff.2 fun x _ => ?_
      cases x with
      | terminal k => exact token k
      | nonterminal n => rfl

/-- Without levels nothing can be added to an action. -/
theorem eq_error_of_resolve (levels : g.levels = #[]) {current candidate a : Action}
    (h : g.resolve state k current candidate = .ok a) : current = .error := by
  have none := productionPrecedence?_eq_none levels
  unfold resolve at h
  dsimp only at h
  split at h
  · rfl
  · simp [shiftOrReduce?, none] at h
  · simp [reduceOrReduce?, none] at h
  · cases h

theorem actionOf_ne_error (i : Item) : g.actionOf i ≠ .error := by
  unfold actionOf
  split <;> simp

end Grammar

namespace Table

variable {g : Grammar} {t : Table}

/-- Every transition and every complete item has its way. -/
structure Follows (t : Table) (g : Grammar) : Prop where
  shift : ∀ {state target : Nat} {k : Kind}, k.isTerminal = true →
    g.Leads state (.terminal k) target → t.action state k = .shift target
  complete : ∀ {state : Nat} {k : Kind} {i : Item}, g.Looks state i k.index → g.IsComplete i →
    t.action state k = g.actionOf i

/-- Without levels a built table settles nothing. -/
theorem follows_of_levels (built : t.BuiltFrom g) (levels : g.levels = #[]) : t.Follows g := by
  constructor
  · intro state target k terminal leads
    obtain ⟨s, known, _⟩ := id leads
    have column := action_column built known terminal
    rw [Grammar.shiftOn_eq_shift.2 leads] at column
    cases offers : g.offers state k with
    | nil =>
      rw [offers] at column
      exact (Except.ok.inj column).symm
    | cons a as =>
      rw [offers, List.foldlM_cons] at column
      cases resolved : g.resolve state k (.shift target) a with
      | error e => rw [resolved] at column; cases column
      | ok b => cases Grammar.eq_error_of_resolve levels resolved
  · intro state k i looks complete
    obtain ⟨s, known⟩ := Grammar.exists_of_holds (Analysis.holds_of_looks looks)
    have column := action_column built known (Grammar.isTerminal_of_looks built.valid looks)
    have offered := (Grammar.mem_offers built.valid).2 ⟨i, looks, complete, rfl⟩
    generalize g.shiftOn state k = current at column
    cases offers : g.offers state k with
    | nil => simp [offers] at offered
    | cons a as =>
      rw [offers, List.foldlM_cons] at column
      cases resolved : g.resolve state k current a with
      | error e => rw [resolved] at column; cases column
      | ok b =>
        rw [resolved] at column
        obtain rfl := Grammar.eq_error_of_resolve levels resolved
        obtain rfl : a = b := Except.ok.inj resolved
        have first : a ∈ g.offers state k := by simp [offers]
        obtain ⟨j, _, _, is⟩ := (Grammar.mem_offers built.valid).1 first
        have known : a ≠ .error := is ▸ Grammar.actionOf_ne_error j
        cases as with
        | nil =>
          rw [offers, List.mem_singleton] at offered
          rw [offered]
          exact (Except.ok.inj column).symm
        | cons b bs =>
          change ((b :: bs).foldlM (g.resolve state k) a) = _ at column
          rw [List.foldlM_cons] at column
          cases again : g.resolve state k a b with
          | error e => rw [again] at column; cases column
          | ok c => exact absurd (Grammar.eq_error_of_resolve levels again) known

end Table

namespace Grammar

variable {g : Grammar} {t : Table}

theorem next?_eq {p d : Nat} {x : Symbol} {xs : List Symbol} (behind : (g.rhs p).drop d = x :: xs) :
    g.next? ⟨p, d⟩ = some x ∧ (g.rhs p).drop (d + 1) = xs := by
  constructor
  · have head := congrArg List.head? behind
    rwa [List.head?_drop, List.head?_cons] at head
  · rw [← List.drop_drop, behind]
    rfl

/-- The productions of a nonterminal behind a dot can be followed by whatever comes next: a first
terminal of what is left, or, if that derived nothing, what can follow the item. -/
theorem looks_start {state p d q : Nat} {production : Production}
    {xs : List Symbol} {v : List Kind} {ps : List Nat} {k k' : Kind} {rest rest' : List Kind}
    (behind : (g.rhs p).drop d = .nonterminal production.lhs :: xs)
    (rule : g.IsRule q production) (looks : g.Looks state ⟨p, d⟩ k.index)
    (later : g.Parses xs v ps) (input : v ++ k :: rest = k' :: rest') :
    g.Looks state ⟨q, 0⟩ k'.index := by
  obtain ⟨next, left⟩ := next?_eq behind
  have start : (⟨q, 0⟩ : Item) ∈ (Analysis.ofGrammar g).startsOf production.lhs :=
    (mem_startsOf rule.2).2 ⟨rfl, production, rule.1, rfl⟩
  obtain ⟨nullable, first⟩ := First.ofSymbols_complete later
  have is : Spread.behind (.ofGrammar g) ⟨p, d⟩ = First.ofSymbols (First.ofGrammar g) xs := by
    rw [← left]
    rfl
  cases v with
  | nil =>
    obtain ⟨rfl, _⟩ := List.cons.inj input
    refine .inherit looks next start ?_
    rw [is]
    exact nullable rfl
  | cons c v =>
    obtain ⟨rfl, _⟩ := List.cons.inj input
    refine .first (Analysis.holds_of_looks looks) next start ?_
    rw [is]
    exact first c v rfl

/-- What stands behind the dot of an item is parsed along a tree for it, if what comes next can
follow the item. -/
theorem Parses.runs (built : t.BuiltFrom g) (follows : t.Follows g) {xs : List Symbol}
    {w : List Kind} {ps : List Nat} (parses : g.Parses xs w ps) {state p d : Nat}
    {k : Kind} (below : List Nat) (rest : List Kind) (behind : (g.rhs p).drop d = xs)
    (looks : g.Looks state ⟨p, d⟩ k.index) :
    ∃ pushed top under, t.Runs (top :: under) (k :: rest) (state :: below) (w ++ k :: rest) ps ∧
      top :: under = pushed ++ state :: below ∧ pushed.length = xs.length ∧
      g.Looks top ⟨p, d + xs.length⟩ k.index := by
  induction parses generalizing state below p d k rest with
  | nil => exact ⟨[], state, below, .refl, rfl, rfl, looks⟩
  | @terminal c xs w ps later ih =>
    obtain ⟨next, left⟩ := next?_eq behind
    obtain ⟨target, leads⟩ := exists_leads (Analysis.holds_of_looks looks) next
    have inside : .terminal c ∈ (g.rhs p).drop d := by simp [behind]
    have terminal := isTerminal_of_rhs (hasTerminals_of_validate built.valid)
      (List.mem_of_mem_drop inside)
    obtain ⟨pushed, top, under, runs, stack, length, looks'⟩ :=
      ih (state :: below) rest left (.pass looks next leads)
    refine ⟨pushed ++ [target], top, under, .shift (follows.shift terminal leads) runs, ?_, ?_, ?_⟩
    · rw [stack, List.append_assoc, List.singleton_append]
    · rw [List.length_append, length, List.length_singleton, List.length_cons]
    · rw [List.length_cons, Nat.add_comm xs.length, ← Nat.add_assoc]
      exact looks'
  | @nonterminal q production xs v w ps qs rule own later ihOwn ih =>
    obtain ⟨next, left⟩ := next?_eq behind
    obtain ⟨target, leads⟩ := exists_leads (Analysis.holds_of_looks looks) next
    obtain ⟨k', rest', input⟩ : ∃ k' rest', w ++ k :: rest = k' :: rest' :=
      List.exists_cons_of_ne_nil (by simp)
    have starts := looks_start behind rule looks later input
    have rhs : g.rhs q = production.rhs := by rw [Grammar.rhs, rule.1]
    obtain ⟨pushed, top, under, runs, stack, length, looks'⟩ :=
      ihOwn below rest' (by rw [List.drop_zero, rhs]) starts
    -- The machine stands behind the whole right-hand side, so the table asks for its reduction.
    have action : t.action top k' = .reduce q := by
      have bound := (Array.getElem?_eq_some_iff.1 rule.1).1
      rw [follows.complete looks' (by simp [IsComplete, rhs])]
      exact if_neg (Nat.ne_of_lt bound)
    have reduction : t.reductions[q]? = some ⟨production.lhs, production.rhs.length,
        g.nonterminals[production.lhs]?.bind (·.node?)⟩ :=
      Table.reductions_getElem? built rule.1
    have dropped : (top :: under).drop production.rhs.length = state :: below := by
      rw [stack, ← length, List.drop_left]
    have reduced := Table.reduceStates_eq reduction dropped (Table.goto_of_leads built rule.2 leads)
    obtain ⟨pushed', top', under', runs', stack', length', looks''⟩ :=
      ih (state :: below) rest left (.pass looks next leads)
    refine ⟨pushed' ++ [target], top', under', ?_, ?_, ?_, ?_⟩
    · rw [List.append_assoc, input]
      rw [input] at runs'
      exact runs.trans (.reduce action reduced runs')
    · rw [stack', List.append_assoc, List.singleton_append]
    · rw [List.length_append, length', List.length_singleton, List.length_cons]
    · rw [List.length_cons, Nat.add_comm xs.length, ← Nat.add_assoc]
      exact looks''

/-- A sentence with a tree is accepted by the reductions of the tree. -/
theorem Parses.drive (built : t.BuiltFrom g) (follows : t.Follows g) {w : List Kind} {ps : List Nat}
    (parses : g.Parses [.nonterminal g.start] w ps) :
    ∃ fuel, t.drive fuel [0] (w ++ [.eof]) = some ps := by
  have rhs : g.rhs g.startRule = [.nonterminal g.start] := by simp [Grammar.rhs, startRule]
  obtain ⟨pushed, top, under, runs, _, _, looks⟩ :=
    parses.runs built follows (d := 0) [] [] rhs .start
  refine runs.drive ?_
  rw [follows.complete looks (by simp [IsComplete, rhs]), actionOf, if_pos rfl]

end Grammar

namespace Table

variable {g : Grammar} {t : Table}

/-- Completeness of tables built without levels: the machine accepts exactly the words of the
language. -/
theorem generates_iff_drive (built : Table.build g = .ok t) (levels : g.levels = #[])
    (w : List Kind) :
    g.Generates w ↔ .eof ∉ w ∧ ∃ fuel ps, t.drive fuel [0] (w ++ [.eof]) = some ps := by
  have parts := build_ok built
  constructor
  · intro generates
    obtain ⟨ps, parses⟩ := Grammar.exists_parses generates
    refine ⟨?_, ?_⟩
    · intro inside
      have usable := parses.isUsable parts.valid (by simp) .eof inside
      revert usable
      decide
    · obtain ⟨fuel, accepted⟩ := parses.drive parts (follows_of_levels parts levels)
      exact ⟨fuel, ps, accepted⟩
  · rintro ⟨plain, fuel, ps, accepted⟩
    exact (rightDerives_of_drive built plain accepted).2

end Table

/-! A language without levels: identifiers, each with a semicolon behind it or none -/

def Grammar.identifiers : Grammar :=
  { nonterminals := #[.hidden "list", .hidden "end"]
    levels := #[]
    productions := #[⟨0, [], none⟩, ⟨0, [.nonterminal 0, .terminal .ident, .nonterminal 1], none⟩,
      ⟨1, [], none⟩, ⟨1, [.terminal .semicolon], none⟩]
    start := 0 }

theorem Table.generates_iff_drive_identifiers : ∃ t, Table.build .identifiers = .ok t ∧
    t.drive 10 [0] [.ident, .semicolon, .ident, .eof] = some [0, 3, 1, 2, 1] ∧
    Grammar.identifiers.Generates [.ident, .semicolon, .ident] := by
  obtain ⟨t, built, runs⟩ := exists_built (g := .identifiers) (P := fun t =>
    t.drive 10 [0] [.ident, .semicolon, .ident, .eof] = some [0, 3, 1, 2, 1]) (by with_unfolding_all decide)
  have plain : Kind.eof ∉ [Kind.ident, .semicolon, .ident] := by decide
  exact ⟨t, built, runs, (generates_iff_drive built rfl _).2 ⟨plain, 10, _, runs⟩⟩

end ShaderTree
