import ShaderTree.Proofs.Metal.Blanks
import ShaderTree.Proofs.Parser.Openings

/-! A cast whose closer is missing. The closer is pretended and its operand goes on behind it, so the
stack holds a delimiter that is closed, though not by the text; what is reported there is said to be
enclosed by it all the same. -/
namespace ShaderTree

namespace Table

variable {t : Table} {k : Kind}

theorem reductionBound_pos (t : Table) (depth : Nat) : 0 < t.reductionBound depth :=
  Nat.mul_pos (Nat.succ_pos _) (Nat.pow_pos (Nat.succ_pos _))

/-- One reduction and then a shift. -/
theorem simulate_of_reduce {p base next target : Nat} {r : Reduction} {states rest : List Nat}
    {top : Nat} (action : t.action top k = .reduce p) (known : t.reductions[p]? = some r)
    (dropped : (top :: states).drop r.length = base :: rest) (goto : t.goto? base r.lhs = some next)
    (shifts : t.action next k = .shift target) :
    t.simulate (top :: states) k = some (target :: next :: base :: rest) := by
  obtain ⟨fuel, more⟩ := Nat.exists_eq_add_of_lt (t.reductionBound_pos (top :: states).length)
  rw [simulate, more, Nat.zero_add]
  unfold simulateWith
  simp only [action, known, dropped, goto]
  cases fuel <;> simp [simulateWith, shifts]

end Table

namespace Metal

/-- An enumeration up to a value that starts with a cast, and the operator behind the cast. -/
def castHead (n : Nat) : List Symbol :=
  ([.terminal .enumKw, .terminal .lBrace, .terminal .ident, .terminal .eq, .terminal .lParen,
    .nonterminal Phrase.builtinType.index, .terminal .rParen, .terminal .bang].take n).reverse

/-- The same with the type that is cast to as it is read. -/
def castType : List Symbol := .terminal .primitiveType :: castHead 5

/-- The production of a type without arguments. -/
def typeRule : Production := ⟨Phrase.builtinType.index, [.terminal .primitiveType], none⟩

set_option maxRecDepth 10000 in
theorem isRule_typeRule : grammar.IsRule 42 typeRule := ⟨rfl, by decide⟩

set_option maxRecDepth 10000 in
/-- What the grammar reads and refuses along the head. All of it is one computation, so that the items
of the head are found once. -/
theorem items_castHead :
    (∀ next ∈ [(0, Kind.enumKw), (1, .lBrace), (2, .ident), (3, .eq), (4, .lParen),
      (5, .primitiveType), (6, .rParen), (7, .bang)],
      grammar.reads (.ofGrammar grammar) (castHead next.1) next.2 = true) ∧
    grammar.refuses (.ofGrammar grammar) .bang 0 castType = true ∧
    grammar.refuses (.ofGrammar grammar) .semicolon 1 castType = true ∧
    grammar.refuses (.ofGrammar grammar) .error 0 (castHead 8) = true ∧
    grammar.blocks castType .rParen
      (fun j => j.production = 42 || !grammar.followed (.ofGrammar grammar) .rParen j) = true ∧
    ∃ i ∈ grammar.itemsAt (castHead 5), grammar.next? i = some (.nonterminal typeRule.lhs) ∧
      (grammar.rhs i.production).drop (i.dot + 1) =
        [.terminal .rParen, .nonterminal Phrase.expression.index] := by
  with_unfolding_all decide

/-- The states of the head in a table, and the one behind the type that is read. -/
structure CastHead (t : Table) (q₁ q₂ q₃ q₄ q₅ r q₆ q₇ q₈ : Nat) : Prop where
  enumKw : t.action 0 .enumKw = .shift q₁
  lBrace : t.action q₁ .lBrace = .shift q₂
  ident : t.action q₂ .ident = .shift q₃
  eq : t.action q₃ .eq = .shift q₄
  lParen : t.action q₄ .lParen = .shift q₅
  type : t.action q₅ .primitiveType = .shift r
  reduces : t.action r .rParen = .reduce 42
  reduction : t.reductions[42]? = some ⟨Phrase.builtinType.index, 1, some .builtinType⟩
  goto : t.goto? q₅ Phrase.builtinType.index = some q₆
  rParen : t.action q₆ .rParen = .shift q₇
  bang : t.action q₇ .bang = .shift q₈
  typed : grammar.Spells castType [r, q₅, q₄, q₃, q₂, q₁, 0]
  reaches : grammar.Reaches (castHead 8) q₈

theorem exists_castHead {t : Table} (built : table = .ok t) :
    ∃ q₁ q₂ q₃ q₄ q₅ r q₆ q₇ q₈, CastHead t q₁ q₂ q₃ q₄ q₅ r q₆ q₇ q₈ := by
  have parts := Table.build_ok built
  obtain ⟨reads, _, _, _, blocks, i, member, next, behind⟩ := items_castHead
  have step {n : Nat} {k : Kind} {top : Nat} {below : List Nat}
      (spells : grammar.Spells (castHead n) (top :: below))
      (listed : (n, k) ∈ [(0, Kind.enumKw), (1, .lBrace), (2, .ident), (3, .eq), (4, .lParen),
        (5, .primitiveType), (6, .rParen), (7, .bang)]) :
      ∃ q, t.action top k = .shift q ∧ grammar.Leads top (.terminal k) q :=
    Table.exists_shift covers_ahead parts spells.reaches (reads _ listed)
  obtain ⟨q₁, enumKw, l₁⟩ := step (n := 0) (k := .enumKw) .start (by decide)
  have s₁ : grammar.Spells (castHead 1) [q₁, 0] := .step .start l₁
  obtain ⟨q₂, lBrace, l₂⟩ := step (k := .lBrace) s₁ (by decide)
  have s₂ : grammar.Spells (castHead 2) [q₂, q₁, 0] := .step s₁ l₂
  obtain ⟨q₃, ident, l₃⟩ := step (k := .ident) s₂ (by decide)
  have s₃ : grammar.Spells (castHead 3) [q₃, q₂, q₁, 0] := .step s₂ l₃
  obtain ⟨q₄, eq, l₄⟩ := step (k := .eq) s₃ (by decide)
  have s₄ : grammar.Spells (castHead 4) [q₄, q₃, q₂, q₁, 0] := .step s₃ l₄
  obtain ⟨q₅, lParen, l₅⟩ := step (k := .lParen) s₄ (by decide)
  have s₅ : grammar.Spells (castHead 5) [q₅, q₄, q₃, q₂, q₁, 0] := .step s₄ l₅
  obtain ⟨r, type, typed⟩ := step (k := .primitiveType) s₅ (by decide)
  have holds := s₅.reaches.holds_iff.2 member
  have reduces := Table.action_eq_reduce covers_ahead parts s₅.reaches holds next behind
    isRule_typeRule rfl typed blocks
  obtain ⟨q₆, l₆⟩ := Grammar.exists_leads holds next
  have goto := Table.goto_of_leads parts isRule_typeRule.2 l₆
  have s₆ : grammar.Spells (castHead 6) [q₆, q₅, q₄, q₃, q₂, q₁, 0] := .step s₅ l₆
  obtain ⟨q₇, rParen, l₇⟩ := step (k := .rParen) s₆ (by decide)
  have s₇ : grammar.Spells (castHead 7) [q₇, q₆, q₅, q₄, q₃, q₂, q₁, 0] := .step s₆ l₇
  obtain ⟨q₈, bang, l₈⟩ := step (k := .bang) s₇ (by decide)
  have s₈ : grammar.Spells (castHead 8) [q₈, q₇, q₆, q₅, q₄, q₃, q₂, q₁, 0] := .step s₇ l₈
  have reduction : t.reductions[42]? = some ⟨Phrase.builtinType.index, 1, some .builtinType⟩ :=
    Table.reductions_getElem? parts isRule_typeRule.1
  exact ⟨q₁, q₂, q₃, q₄, q₅, r, q₆, q₇, q₈, enumKw, lBrace, ident, eq, lParen, type, reduces,
    reduction, goto, rParen, bang, .step s₅ typed, s₈.reaches⟩

namespace CastHead

variable {t : Table} {q₁ q₂ q₃ q₄ q₅ r q₆ q₇ q₈ : Nat} (built : table = .ok t)
  (head : CastHead t q₁ q₂ q₃ q₄ q₅ r q₆ q₇ q₈)

include built head

/-- An operator behind the type asks for the closer of the cast. -/
theorem insert_rParen (upcoming : List Kind) : t.action r .bang = .error ∧
    Repair.choose t [r, q₅, q₄, q₃, q₂, q₁, 0] .bang upcoming true = .insert .rParen := by
  obtain ⟨_, stuck, semicolon, _⟩ := items_castHead
  have parts := Table.build_ok built
  have first : t.simulate [r, q₅, q₄, q₃, q₂, q₁, 0] .semicolon = none :=
    Table.simulate_eq_none covers_ahead parts head.typed semicolon
  have second : t.simulate [r, q₅, q₄, q₃, q₂, q₁, 0] .rParen =
      some [q₇, q₆, q₅, q₄, q₃, q₂, q₁, 0] :=
    Table.simulate_of_reduce head.reduces head.reduction rfl head.goto head.rParen
  have fits : Repair.closer? t [r, q₅, q₄, q₃, q₂, q₁, 0] .bang = some .rParen := by
    simp [Repair.closer?, Repair.insertable, first, second, Table.accepts_of_shift head.bang]
  exact ⟨Table.action_eq_error covers_ahead parts head.typed.reaches stuck,
    by simp [Repair.choose, fits]⟩

/-- An error token is left out behind the operator. -/
theorem skip_error (states : List Nat) (upcoming : List Kind) (canInsert : Bool) :
    t.action q₈ .error = .error ∧ Repair.choose t states .error upcoming canInsert = .skip := by
  obtain ⟨_, _, _, stuck, _⟩ := items_castHead
  exact ⟨Table.action_eq_error covers_ahead (Table.build_ok built) head.reaches stuck,
    by simp [Repair.choose]⟩

end CastHead

/-- A cast without its closer, and a character that no token starts with behind its operator. -/
def castTokens : List Token := Token.layOut 0 .zero
  [(.enumKw, "enum"), (.lBrace, "\x7b"), (.ident, "a"), (.eq, "="), (.lParen, "("),
    (.primitiveType, "int"), (.bang, "!"), (.error, "@")]

theorem readAll_cast : Token.readAll "enum\x7ba=(int!@" = castTokens := by
  have labels : Token.labels "enum\x7ba=(int!@".toList =
      [(.enumKw, "enum"), (.lBrace, "\x7b"), (.ident, "a"), (.eq, "="), (.lParen, "("),
        (.primitiveType, "int"), (.bang, "!"), (.error, "@")] := by
    with_unfolding_all decide
  rw [Token.readAll_eq_layOut, labels, castTokens]

/-- The state in which the closer is about to be pretended, with the type of the cast on the stack. -/
def beforeCloser (q₁ q₂ q₃ q₄ q₅ q₆ : Nat) : Config :=
  { stack := [⟨q₆, .symbol, false, 8,
        [.node .builtinType { record := some ⟨q₅, .rParen⟩ } [.leaf .primitiveType "int"]]⟩,
      shifted q₅ 7 .lParen "(", shifted q₄ 6 .eq "=", shifted q₃ 5 .ident "a",
      shifted q₂ 4 .lBrace "\x7b", shifted q₁ 0 .enumKw "enum"]
    rest := castTokens.drop 6, pending := [], cursor := 11, diagnostics := [], inserted := 0
    lastSkip := false, inserting := some .rParen }

/-- The state in front of the last character: behind the pretended closer the operator was read. -/
def behindCloser (q₁ q₂ q₃ q₄ q₅ q₆ q₇ q₈ : Nat) : Config :=
  let before := beforeCloser q₁ q₂ q₃ q₄ q₅ q₆
  { before with
    stack := shifted q₈ 11 .bang "!" ::
      ⟨q₇, .symbol, true, 11, [.node .missing {} [.leaf .rParen ""]]⟩ :: before.stack
    rest := castTokens.drop 7, cursor := 12
    diagnostics := [Setup.missingDiagnostic before .rParen], inserting := none }

theorem reached_cast {t : Table} {q₁ q₂ q₃ q₄ q₅ r q₆ q₇ q₈ : Nat} (built : table = .ok t)
    (head : CastHead t q₁ q₂ q₃ q₄ q₅ r q₆ q₇ q₈) :
    (Setup.mk t {} none).Reached castTokens (beforeCloser q₁ q₂ q₃ q₄ q₅ q₆) ∧
      (Setup.mk t {} none).Reached castTokens (behindCloser q₁ q₂ q₃ q₄ q₅ q₆ q₇ q₈) := by
  let s : Setup := ⟨t, {}, none⟩
  let outer := [shifted q₅ 7 .lParen "(", shifted q₄ 6 .eq "=", shifted q₃ 5 .ident "a",
    shifted q₂ 4 .lBrace "\x7b", shifted q₁ 0 .enumKw "enum"]
  obtain ⟨again, insert⟩ := head.insert_rParen built [.error, .eof]
  have r₀ : s.Reached castTokens (.initial castTokens) := .refl
  have r₁ : s.Reached castTokens
      ⟨outer.drop 4, castTokens.drop 1, [], 4, [], 0, false, none⟩ :=
    r₀.tail (Setup.step_shift rfl rfl head.enumKw rfl)
  have r₂ : s.Reached castTokens ⟨outer.drop 3, castTokens.drop 2, [], 5, [], 0, false, none⟩ :=
    r₁.tail (Setup.step_shift rfl rfl head.lBrace rfl)
  have r₃ : s.Reached castTokens ⟨outer.drop 2, castTokens.drop 3, [], 6, [], 0, false, none⟩ :=
    r₂.tail (Setup.step_shift rfl rfl head.ident rfl)
  have r₄ : s.Reached castTokens ⟨outer.drop 1, castTokens.drop 4, [], 7, [], 0, false, none⟩ :=
    r₃.tail (Setup.step_shift rfl rfl head.eq rfl)
  have r₅ : s.Reached castTokens ⟨outer, castTokens.drop 5, [], 8, [], 0, false, none⟩ :=
    r₄.tail (Setup.step_shift rfl rfl head.lParen rfl)
  have r₆ : s.Reached castTokens ⟨shifted r 8 .primitiveType "int" :: outer, castTokens.drop 6, [],
      11, [], 0, false, none⟩ :=
    r₅.tail (Setup.step_shift rfl rfl head.type rfl)
  have r₇ : s.Reached castTokens ⟨shifted r 8 .primitiveType "int" :: outer, castTokens.drop 6, [],
      11, [], 0, false, some .rParen⟩ :=
    r₆.tail (Setup.step_insert rfl rfl again insert)
  have reduced : s.reduce ⟨shifted r 8 .primitiveType "int" :: outer, castTokens.drop 6, [],
      11, [], 0, false, some .rParen⟩ 42 .rParen = .ok (beforeCloser q₁ q₂ q₃ q₄ q₅ q₆) := by
    have text : ¬ Tree.sizeAll [.leaf .primitiveType "int"] = 0 := by decide
    simp [Setup.reduce, s, head.reduction, shifted, Entry.isSymbol, Config.pop, Config.topState, outer,
      head.goto, Entry.trees, text]
    rfl
  have r₈ : s.Reached castTokens (beforeCloser q₁ q₂ q₃ q₄ q₅ q₆) := by
    refine r₇.tail ?_
    simp only [Setup.step, Setup.insertStep, Config.top, Config.topState, shifted, s, head.reduces]
    exact congrArg (Except.map Step.next) reduced
  have r₉ : s.Reached castTokens (Setup.endInsertion
      (Setup.pushMissing (beforeCloser q₁ q₂ q₃ q₄ q₅ q₆) .rParen q₇)) :=
    r₈.tail (Setup.step_pretend rfl head.rParen)
  exact ⟨r₈, r₉.tail (Setup.step_shift rfl rfl head.bang rfl)⟩

open Config Setup in
/-- The pretended closer is reported inside its parentheses, and points at the token that opens them. -/
theorem cast_closer_reported : ∃ (p : Parser) (c c' : Config) (d : Diagnostic),
    Metal.table = .ok p.language.table ∧
    p.setup.Reached (Token.readAll "enum\x7ba=(int!@") c ∧ p.setup.step c = .ok (.next c') ∧
    c'.diagnostics = d :: c.diagnostics ∧ d.message = "missing `)`" ∧ d.enclosure = .parens ∧
    d.enclosure = Opening.innermost (openings Entry.closes (stackAt d c c')) ∧
    ∃ t ∈ Token.readAll "enum\x7ba=(int!@", Enclosure.openedBy? t.kind = some .parens ∧
      d.related = [⟨Enclosure.parens.description ++ " opened here", t.range⟩] := by
  obtain ⟨t, built⟩ := exists_table
  obtain ⟨q₁, q₂, q₃, q₄, q₅, r, q₆, q₇, q₈, head⟩ := exists_castHead built
  obtain ⟨reached, _⟩ := reached_cast built head
  let p : Parser := ⟨⟨"metal", t, 0⟩, {}⟩
  let before := beforeCloser q₁ q₂ q₃ q₄ q₅ q₆
  let d := missingDiagnostic before .rParen
  rw [← readAll_cast] at reached
  have step : p.setup.step before = .ok (.next (endInsertion (pushMissing before .rParen q₇))) :=
    step_pretend rfl head.rParen
  have enclosure : d.enclosure = .parens := rfl
  obtain ⟨_, whole, points, _⟩ := Parser.reported_innermost (p := p) (d := d) reached step rfl
  obtain ⟨opener, member, opens, _, related⟩ := points .rParen rfl rfl rfl
  refine ⟨p, before, _, d, built, reached, step, rfl, rfl, rfl, whole ?_, opener, member,
    enclosure ▸ opens, enclosure ▸ related⟩
  intro e member _
  have plain : ∀ e ∈ before.stack, e.pretendsCloser = false := by
    simp [before, beforeCloser, Entry.pretendsCloser, shifted]
  exact plain e member

open Config Setup in
/-- What is reported behind the pretended closer is said to be inside the parentheses that it closes,
and not in the block around them. -/
theorem cast_operand_reported_in_closed_parens : ∃ (p : Parser) (c c' : Config) (d : Diagnostic),
    Metal.table = .ok p.language.table ∧
    p.setup.Reached (Token.readAll "enum\x7ba=(int!@") c ∧ p.setup.step c = .ok (.next c') ∧
    c'.diagnostics = d :: c.diagnostics ∧ d.enclosure = .parens ∧
    Opening.innermost (openings Entry.closes (stackAt d c c')) = .block := by
  obtain ⟨t, built⟩ := exists_table
  obtain ⟨q₁, q₂, q₃, q₄, q₅, r, q₆, q₇, q₈, head⟩ := exists_castHead built
  obtain ⟨_, reached⟩ := reached_cast built head
  let p : Parser := ⟨⟨"metal", t, 0⟩, {}⟩
  let behind := behindCloser q₁ q₂ q₃ q₄ q₅ q₆ q₇ q₈
  obtain ⟨stuck, skips⟩ := head.skip_error built behind.states [.eof] true
  rw [← readAll_cast] at reached
  have step : p.setup.step behind = p.setup.recover behind .error := step_recover rfl rfl stuck
  have choice : p.setup.chooseRepair behind .error = .skip := skips
  obtain ⟨c', stepped, stack, skipped⟩ : ∃ c', p.setup.recover behind .error = .ok (.next c') ∧
      c'.stack = ⟨q₈, .skipped, true, 12, [.leaf .error "@"]⟩ :: behind.stack ∧
      ∃ t hint, t.kind = .error ∧ c'.diagnostics = reportSkipped { c' with
        diagnostics := behind.diagnostics } t false hint := by
    rw [recover, choice]
    exact ⟨_, rfl, rfl, _, _, rfl, rfl⟩
  obtain ⟨t, hint, kind, reported⟩ := skipped
  obtain ⟨d, fresh⟩ := exists_report_of_error kind false hint
  obtain ⟨code, enclosure, _⟩ := reportSkipped_fresh fresh
  rw [fresh] at reported
  have inside : d.enclosure = .parens := by
    rw [enclosure, Config.enclosure, openDelimiter?, stack]
    rfl
  refine ⟨p, behind, c', d, built, reached, step.trans stepped, reported, inside, ?_⟩
  rw [stackAt, if_neg code, stack]
  rfl

end Metal

end ShaderTree
