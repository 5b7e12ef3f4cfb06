import ShaderTree.Proofs.Parser.Transparency
import ShaderTree.Proofs.Table.Paths

/-! What blanks and comments between the tokens do to a document: nothing to its tree, and nothing to
the repairs. Reports are sorted by their starts, and only there can they show: starts that blanks keep
apart fall together without them. -/
namespace ShaderTree

open Token (Label label hasText unspaced closeUp)

theorem Kind.isLexical_of_isTerminal {k : Kind} (terminal : k.isTerminal = true) (inside : k ≠ .eof) :
    k.IsLexical := by
  have bound : k.index < Kind.eof.index + 1 := of_decide_eq_true terminal
  have other : k.index ≠ Kind.eof.index := fun same => inside (Kind.index_injective same)
  exact Nat.lt_of_le_of_ne (Nat.le_of_lt_succ bound) other

/-- The order of a report. -/
def Diagnostic.inOrder (ds : List Diagnostic) : List Diagnostic :=
  ds.mergeSort fun a b => a.range.start ≤ b.range.start

/-- Sorting and moving can be exchanged where no starts fall together. -/
theorem Diagnostic.map_inOrder {f : Nat → Nat} (mono : Monotone f) {ds : List Diagnostic}
    (apart : ∀ a ∈ ds, ∀ b ∈ ds, f a.range.start = f b.range.start → a.range.start = b.range.start) :
    (inOrder ds).map (moved f) = inOrder (ds.map (moved f)) := by
  refine List.map_mergeSort fun a inside b inside' => decide_eq_decide.2 ⟨fun le => mono le, ?_⟩
  intro le
  by_contra less
  have same := Nat.le_antisymm le (mono (Nat.le_of_not_le less))
  exact less (apart a inside b inside' same).le

/-- The second document is the first one with the blanks left out of its text. Both report the same
repairs, and each report puts them in the order of its own starts. -/
structure Document.ClosesUp (labels : List Label) (d e : Document) : Prop where
  tree : d.root.bare.sameShape e.root = true
  repairs : ∃ ds, d.diagnostics = Diagnostic.inOrder ds ∧
    e.diagnostics = Diagnostic.inOrder (ds.map (Diagnostic.moved (closeUp labels)))

/-- The order of the report changes only where blanks keep apart what falls together without them. -/
theorem Document.ClosesUp.diagnostics_eq {labels : List Label} {d e : Document}
    (closes : d.ClosesUp labels e)
    (apart : ∀ a ∈ d.diagnostics, ∀ b ∈ d.diagnostics,
      closeUp labels a.range.start = closeUp labels b.range.start → a.range.start = b.range.start) :
    e.diagnostics = d.diagnostics.map (Diagnostic.moved (closeUp labels)) := by
  obtain ⟨ds, spaced, closed⟩ := closes.repairs
  have same : d.diagnostics.Perm ds := spaced ▸ List.mergeSort_perm ds _
  have among : ∀ a ∈ ds, ∀ b ∈ ds,
      closeUp labels a.range.start = closeUp labels b.range.start → a.range.start = b.range.start :=
    fun a inside b inside' => apart a (same.symm.subset inside) b (same.symm.subset inside')
  rw [spaced, closed, Diagnostic.map_inOrder (Token.closeUp_mono labels) among]

/-- Two runs on the same words, one of them with blanks in between. -/
theorem Setup.run_beside_layOut {g : Grammar} {s : Setup} (plain : s.Plain g) {labels : List Label}
    (texts : ∀ l ∈ labels, hasText l = true) {fuel fuel' : Nat} {last last' : Config}
    (ran : s.run fuel (.initial (Token.layOut 0 .zero labels)) = .ok last)
    (ran' : s.run fuel' (.initial (Token.layOut 0 .zero (unspaced labels))) = .ok last') :
    Config.Beside labels last last' ∧ ∀ t ∈ last.pending, t.kind.isTrivia = true := by
  have labels_eq := Token.map_label_layOut 0 .zero labels
  have start : Config.Beside labels (.initial (Token.layOut 0 .zero labels))
      (.initial (Token.layOut 0 .zero (unspaced labels))) := by
    refine ⟨.nil, ?_, rfl, rfl, rfl, rfl, rfl, fun k is => by cases is⟩
    change (Token.layOut 0 .zero (unspaced labels)).map label =
      unspaced ((Token.layOut 0 .zero labels).map label)
    rw [labels_eq, Token.map_label_layOut]
  have grounded := grounded_initial (g := g) (Token.abreast_layOut 0 .zero labels) labels_eq texts
  have placed' := Config.placed_initial (Token.abreast_layOut 0 .zero (unspaced labels))
  exact run_beside texts plain grounded placed' start ran ran'

theorem Parser.closesUp {g : Grammar} {p : Parser} (plain : p.setup.Plain g) {labels : List Label}
    (texts : ∀ l ∈ labels, hasText l = true) {text text' : String} {d e : Document}
    (parsed : p.parseTokens text (Token.layOut 0 .zero labels) = .ok d)
    (parsed' : p.parseTokens text' (Token.layOut 0 .zero (unspaced labels)) = .ok e) :
    d.ClosesUp labels e := by
  obtain ⟨last, ran, root, diagnostics⟩ := exists_run_of_parseTokens parsed
  obtain ⟨last', ran', root', diagnostics'⟩ := exists_run_of_parseTokens parsed'
  obtain ⟨beside, blank⟩ := Setup.run_beside_layOut plain texts ran ran'
  refine ⟨?_, last.diagnostics.reverse, diagnostics, ?_⟩
  · rw [root, root']
    exact Tree.sameShape_of_plain (Setup.root_beside beside blank)
  · rw [diagnostics', Setup.report, beside.diagnostics, ← List.map_reverse]
    rfl

namespace Metal

theorem plain {p : Parser} (built : Metal.table = .ok p.language.table) : p.setup.Plain grammar :=
  ⟨Table.build_ok built, namesNodes, onlyStartVanishes, rfl⟩

/-- Blanks and comments are transparent to the parser: for every list of tokens with texts and all
options, leaving them out of the tree gives the tree of the tokens without them, and both parses make
the same repairs, with the same codes, messages, enclosures and hints, at places that answer to each
other. Reports are sorted by starts, so their order is the same wherever no two starts fall together
when the blanks are left out. -/
theorem blanks_transparent {l : Language} (built : Metal.table = .ok l.table) (o : Options)
    {labels : List Label} (terminal : ∀ x ∈ labels, x.1.isTerminal = true ∧ x.1 ≠ .eof)
    (texts : ∀ x ∈ labels, x.2 ≠ "") (text text' : String) :
    ∃ d e, (Parser.mk l o).parseTokens text (Token.layOut 0 .zero labels) = .ok d ∧
      (Parser.mk l o).parseTokens text' (Token.layOut 0 .zero (unspaced labels)) = .ok e ∧
      d.ClosesUp labels e ∧
      ((∀ a ∈ d.diagnostics, ∀ b ∈ d.diagnostics,
          closeUp labels a.range.start = closeUp labels b.range.start →
            a.range.start = b.range.start) →
        e.diagnostics = d.diagnostics.map (Diagnostic.moved (closeUp labels))) := by
  have lexical (some : List Label) (inside : some ⊆ labels) :
      ∀ u ∈ Token.layOut 0 .zero some, u.kind.IsLexical := by
    intro u member
    have listed : label u ∈ some := by
      rw [← Token.map_label_layOut 0 .zero some]
      exact List.mem_map_of_mem member
    exact Kind.isLexical_of_isTerminal (terminal _ (inside listed)).1 (terminal _ (inside listed)).2
  obtain ⟨d, parsed⟩ := exists_parseTokens (p := ⟨l, o⟩) built (lexical labels fun _ => id) text
  obtain ⟨e, parsed'⟩ := exists_parseTokens (p := ⟨l, o⟩) built
    (lexical (unspaced labels) fun _ member => (List.mem_filter.1 member).1) text'
  have some : ∀ x ∈ labels, hasText x = true := fun x member => by
    simpa [hasText] using texts x member
  have closes := Parser.closesUp (plain (p := ⟨l, o⟩) built) some parsed parsed'
  exact ⟨d, e, parsed, parsed', closes, closes.diagnostics_eq⟩

/-- A blank in front of a stray parenthesis. -/
theorem blanks_transparent_rParen : ∃ l : Language, Metal.table = .ok l.table ∧ ∃ d e,
    (Parser.mk l {}).parseTokens " )" (Token.layOut 0 .zero [(.whitespace, " "), (.rParen, ")")]) =
      .ok d ∧
    (Parser.mk l {}).parseTokens ")" (Token.layOut 0 .zero [(.rParen, ")")]) = .ok e ∧
    d.ClosesUp [(.whitespace, " "), (.rParen, ")")] e := by
  let labels : List Label := [(.whitespace, " "), (.rParen, ")")]
  have terminal : ∀ x ∈ labels, x.1.isTerminal = true ∧ x.1 ≠ .eof := by decide
  have texts : ∀ x ∈ labels, x.2 ≠ "" := by decide
  obtain ⟨t, built⟩ := exists_table
  obtain ⟨d, e, parsed, parsed', closes, _⟩ :=
    blanks_transparent (l := ⟨"metal", t, 0⟩) built {} terminal texts " )" ")"
  exact ⟨_, built, d, e, parsed, parsed', closes⟩

end Metal

/-! Reports in another order -/

theorem Repair.closer?_eq_none {t : Table} {states : List Nat}
    (none : ∀ k ∈ insertable, t.simulate states k = none) (lookahead : Kind) :
    closer? t states lookahead = Option.none := by
  have fits : insertable.find? (fun k => (t.simulate states k).any fun after =>
      t.accepts after lookahead) = Option.none :=
    List.find?_eq_none.2 fun k member => by simp [none k member]
  have taken : insertable.find? (fun k => t.accepts states k) = Option.none :=
    List.find?_eq_none.2 fun k member => by simp [Table.accepts_eq_false (none k member)]
  rw [closer?, fits, taken]
  simp

/-- Where neither a closer nor what comes next helps, entries are given up. -/
theorem Repair.choose_wrap {t : Table} {states : List Nat} {lookahead : Kind} {upcoming : List Kind}
    {d : Nat} (none : ∀ k ∈ insertable, t.simulate states k = none) (inside : lookahead ≠ .error)
    (later : ∀ k ∈ upcoming, t.simulate states k = Option.none)
    (depth : depth? t states lookahead = some d) (canInsert : Bool) :
    choose t states lookahead upcoming canInsert = .wrap d := by
  have useless : (upcoming.any fun k => t.accepts states k) = false :=
    List.any_eq_false.2 fun k member => by simp [Table.accepts_eq_false (later k member)]
  simp [choose, closer?_eq_none none, inside, useless, depth]

namespace Metal

/-- The head of an enumeration up to some word, and what stands for the type under it. -/
def enumHead (n : Nat) : List Symbol :=
  ([.terminal .enumKw, .terminal .classKw, .terminal .ident, .terminal .colon,
    .terminal .primitiveType].take n).reverse

set_option maxRecDepth 10000 in
theorem reads_enumHead : ∀ next ∈ [(0, Kind.enumKw), (1, .classKw), (2, .ident), (3, .colon),
    (4, .primitiveType)], grammar.reads (.ofGrammar grammar) (enumHead next.1) next.2 = true := by
  with_unfolding_all decide

set_option maxRecDepth 10000 in
theorem refuses_enumHead :
    (∀ n ∈ [1, 2, 3, 4], grammar.refuses (.ofGrammar grammar) .eof 0 (enumHead n) = true) ∧
    (∀ k ∈ Kind.primitiveType :: Repair.insertable.dropLast,
      grammar.refuses (.ofGrammar grammar) k 0 (enumHead 3) = true) ∧
    (∀ k ∈ Repair.insertable, grammar.refuses (.ofGrammar grammar) k 0 (enumHead 4) = true) ∧
    (∀ k ∈ [.colon, .primitiveType],
      grammar.refuses (.ofGrammar grammar) k 0 (enumHead 5) = true) ∧
    ∀ k ∈ Kind.eof :: Repair.insertable,
      grammar.refuses (.ofGrammar grammar) k 1 (enumHead 5) = true := by
  with_unfolding_all decide

/-- The states of the head in a table. -/
structure EnumHead (t : Table) (q₁ q₂ q₃ q₄ q₅ : Nat) : Prop where
  enumKw : t.action 0 .enumKw = .shift q₁
  classKw : t.action q₁ .classKw = .shift q₂
  ident : t.action q₂ .ident = .shift q₃
  colon : t.action q₃ .colon = .shift q₄
  type : t.action q₄ .primitiveType = .shift q₅
  spells : grammar.Spells (enumHead 5) [q₅, q₄, q₃, q₂, q₁, 0]

theorem exists_enumHead {t : Table} (built : table = .ok t) :
    ∃ q₁ q₂ q₃ q₄ q₅, EnumHead t q₁ q₂ q₃ q₄ q₅ := by
  have parts := Table.build_ok built
  have step {n : Nat} {k : Kind} {top : Nat} {below : List Nat}
      (spells : grammar.Spells (enumHead n) (top :: below))
      (listed : (n, k) ∈ [(0, Kind.enumKw), (1, .classKw), (2, .ident), (3, .colon),
        (4, .primitiveType)])
      (next : enumHead (n + 1) = .terminal k :: enumHead n) : ∃ q, t.action top k = .shift q ∧
        grammar.Spells (enumHead (n + 1)) (q :: top :: below) := by
    obtain ⟨q, action, leads⟩ := Table.exists_shift covers_ahead parts spells.reaches
      (reads_enumHead _ listed)
    exact ⟨q, action, next ▸ spells.step leads⟩
  obtain ⟨q₁, enumKw, s₁⟩ := step (n := 0) .start (by simp) rfl
  obtain ⟨q₂, classKw, s₂⟩ := step (n := 1) s₁ (by simp) rfl
  obtain ⟨q₃, ident, s₃⟩ := step (n := 2) s₂ (by simp) rfl
  obtain ⟨q₄, colon, s₄⟩ := step (n := 3) s₃ (by simp) rfl
  obtain ⟨q₅, type, s₅⟩ := step (n := 4) s₄ (by simp) rfl
  exact ⟨q₁, q₂, q₃, q₄, q₅, enumKw, classKw, ident, colon, type, s₅⟩

namespace EnumHead

variable {t : Table} {q₁ q₂ q₃ q₄ q₅ : Nat} (built : table = .ok t)
  (head : EnumHead t q₁ q₂ q₃ q₄ q₅)

/-- What goes on stacks that spell a part of the head is refused as the grammar refuses it there. -/
theorem refused {n fuel : Nat} {k : Kind} {states : List Nat} (built : table = .ok t)
    (spells : grammar.Spells (enumHead n) states)
    (refuses : grammar.refuses (.ofGrammar grammar) k fuel (enumHead n) = true) :
    t.simulate states k = none :=
  Table.simulate_eq_none covers_ahead (Table.build_ok built) spells refuses

theorem stuck {n state : Nat} {k : Kind} {below : List Nat} (built : table = .ok t)
    (spells : grammar.Spells (enumHead n) (state :: below))
    (refuses : grammar.refuses (.ofGrammar grammar) k 0 (enumHead n) = true) :
    t.action state k = .error :=
  Table.action_eq_error covers_ahead (Table.build_ok built) spells.reaches refuses

include head

theorem spells₄ : grammar.Spells (enumHead 4) [q₄, q₃, q₂, q₁, 0] :=
  head.spells.drop (n := 1) (by decide)

theorem spells₃ : grammar.Spells (enumHead 3) [q₃, q₂, q₁, 0] :=
  head.spells.drop (n := 2) (by decide)

theorem spells₂ : grammar.Spells (enumHead 2) [q₂, q₁, 0] :=
  head.spells.drop (n := 3) (by decide)

theorem spells₁ : grammar.Spells (enumHead 1) [q₁, 0] :=
  head.spells.drop (n := 4) (by decide)

include built

theorem refused_closers : (∀ k ∈ Repair.insertable, t.simulate [q₄, q₃, q₂, q₁, 0] k = none) ∧
    ∀ k ∈ Kind.eof :: Repair.insertable, t.simulate [q₅, q₄, q₃, q₂, q₁, 0] k = none := by
  obtain ⟨_, _, fourth, _, fifth⟩ := refuses_enumHead
  exact ⟨fun k member => refused built head.spells₄ (fourth k member),
    fun k member => refused built head.spells (fifth k member)⟩

/-- A type in front of the colon asks for it. -/
theorem insert_colon (upcoming : List Kind) : t.action q₃ .primitiveType = .error ∧
    Repair.choose t [q₃, q₂, q₁, 0] .primitiveType upcoming true = .insert .colon := by
  obtain ⟨_, third, _⟩ := refuses_enumHead
  obtain ⟨again, third⟩ := List.forall_mem_cons.1 third
  have others : ∀ k ∈ Repair.insertable.dropLast, t.simulate [q₃, q₂, q₁, 0] k = none :=
    fun k member => refused built head.spells₃ (third k member)
  simp only [Repair.insertable, List.dropLast, List.forall_mem_cons] at others
  have fits : Repair.closer? t [q₃, q₂, q₁, 0] .primitiveType = some .colon := by
    simp [Repair.closer?, Repair.insertable, others, Table.simulate_of_shift head.colon,
      Table.accepts_of_shift head.type]
  exact ⟨stuck built head.spells₃ again, by simp [Repair.choose, fits]⟩

/-- A second type takes the place of the first. -/
theorem wrap_type : t.action q₅ .primitiveType = .error ∧
    Repair.choose t [q₅, q₄, q₃, q₂, q₁, 0] .primitiveType [.colon, .eof] true = .wrap 1 := by
  obtain ⟨_, _, _, fifth, _⟩ := refuses_enumHead
  obtain ⟨_, closers⟩ := head.refused_closers built
  refine ⟨stuck built head.spells (fifth _ (by decide)), ?_⟩
  have later : ∀ k ∈ [Kind.colon, .eof], k ∈ Kind.eof :: Repair.insertable := by decide
  refine Repair.choose_wrap (List.forall_mem_cons.1 closers).2 (by decide)
    (fun k member => closers k (later k member)) ?_ true
  exact List.find?_cons_of_pos (Table.accepts_of_shift head.type _)

/-- A second colon takes the place of what is behind the name. -/
theorem wrap_colon : t.action q₅ .colon = .error ∧
    Repair.choose t [q₅, q₄, q₃, q₂, q₁, 0] .colon [.eof] true = .wrap 2 := by
  obtain ⟨_, _, _, fifth, _⟩ := refuses_enumHead
  obtain ⟨fourth, closers⟩ := head.refused_closers built
  refine ⟨stuck built head.spells (fifth _ (by decide)), ?_⟩
  obtain ⟨atEnd, others⟩ := List.forall_mem_cons.1 closers
  refine Repair.choose_wrap others (by decide) (by simpa using atEnd) ?_ true
  have first := Table.accepts_eq_false (fourth .colon (by decide))
  have second := Table.accepts_of_shift head.colon [q₂, q₁, 0]
  exact (List.find?_cons_of_neg (by simp [first])).trans (List.find?_cons_of_pos second)

/-- At the end of input all is given up. -/
theorem wrap_all : t.action q₄ .eof = .error ∧
    Repair.choose t [q₄, q₃, q₂, q₁, 0] .eof [.eof] true = .wrap 4 := by
  obtain ⟨atEnd, _⟩ := refuses_enumHead
  obtain ⟨closers, _⟩ := head.refused_closers built
  have ends₄ := refused built head.spells₄ (atEnd 4 (by decide))
  have ends₃ := Table.accepts_eq_false (refused built head.spells₃ (atEnd 3 (by decide)))
  have ends₂ := Table.accepts_eq_false (refused built head.spells₂ (atEnd 2 (by decide)))
  have ends₁ := Table.accepts_eq_false (refused built head.spells₁ (atEnd 1 (by decide)))
  have start : t.accepts [0] .eof = true :=
    Table.accepts_start_eof (Table.build_ok built) isRule_program (action_start_eof built)
  refine ⟨stuck built head.spells₄ (atEnd 4 (by decide)), ?_⟩
  refine Repair.choose_wrap closers (by decide) (by simpa using ends₄) ?_ true
  simp [Repair.depth?, List.range, List.range.loop, ends₃, ends₂, ends₁, start]

end EnumHead

/-- A head without its colon, and with one type too many behind a blank. -/
def strayTypes : List Label :=
  [(.enumKw, "enum"), (.classKw, "class"), (.ident, "a"), (.whitespace, " "), (.primitiveType, "int"),
    (.primitiveType, "int"), (.colon, ":")]

/-- What is reported of it, the last repair first. -/
def strayReports : List Diagnostic := [
  { code := .unexpectedInput, message := "unexpected input before end of input", range := ⟨0, 18⟩ },
  { code := .unexpectedInput, message := "unexpected input before `:`", range := ⟨10, 17⟩ },
  { code := .unexpectedInput, message := "unexpected input before type", range := ⟨11, 14⟩ },
  { code := .missingToken, message := "missing `:`", range := ⟨10, 10⟩, hint := some "insert `:`" }]

/-- A token on the stack. -/
def shifted (state offset : Nat) (k : Kind) (text : String) : Entry :=
  ⟨state, .symbol, false, offset, [.leaf k text]⟩

theorem reached_strayTypes {t : Table} {q₁ q₂ q₃ q₄ q₅ : Nat} (built : table = .ok t)
    (head : EnumHead t q₁ q₂ q₃ q₄ q₅) :
    ∃ c, (Setup.mk t {} none).Reached (Token.layOut 0 .zero strayTypes) c ∧ c.states = [0] ∧
      c.rest = [] ∧ c.inserting = none ∧ c.diagnostics = strayReports := by
  let s : Setup := ⟨t, {}, none⟩
  let tokens := Token.layOut 0 .zero strayTypes
  let stack := [shifted q₃ 9 .ident "a", shifted q₂ 4 .classKw "class", shifted q₁ 0 .enumKw "enum"]
  let blank : Entry := ⟨q₄, .extra, false, 10, [.leaf .whitespace " "]⟩
  let missing : Entry := ⟨q₄, .symbol, true, 10, [.node .missing {} [.leaf .colon ""]]⟩
  let reports (n : Nat) := strayReports.drop n
  obtain ⟨again, insert⟩ := head.insert_colon built [.primitiveType, .colon, .eof]
  obtain ⟨twice, one⟩ := head.wrap_type built
  obtain ⟨late, two⟩ := head.wrap_colon built
  obtain ⟨ends, all⟩ := head.wrap_all built
  have readable : s.Readable (.initial tokens) := ⟨by decide, by simp [s]⟩
  have r₀ : s.Reached tokens (.initial tokens) := .refl
  have r₁ : s.Reached tokens
      ⟨[shifted q₁ 0 .enumKw "enum"], tokens.drop 1, [], 4, [], 0, false, none⟩ :=
    r₀.tail (Setup.step_shift rfl rfl head.enumKw rfl)
  have r₂ : s.Reached tokens ⟨[shifted q₂ 4 .classKw "class", shifted q₁ 0 .enumKw "enum"],
      tokens.drop 2, [], 9, [], 0, false, none⟩ :=
    r₁.tail (Setup.step_shift rfl rfl head.classKw rfl)
  have r₃ : s.Reached tokens ⟨stack, tokens.drop 3, [], 10, [], 0, false, none⟩ :=
    r₂.tail (Setup.step_shift rfl rfl head.ident rfl)
  have r₄ : s.Reached tokens ⟨stack, tokens.drop 4, (tokens.drop 3).take 1, 10, [], 0, false,
      some .colon⟩ :=
    r₃.tail (Setup.step_insert rfl rfl again insert)
  have r₅ : s.Reached tokens ⟨missing :: stack, tokens.drop 4, (tokens.drop 3).take 1, 10, reports 3,
      1, false, none⟩ :=
    r₄.tail (Setup.step_pretend rfl head.colon)
  have r₆ : s.Reached tokens ⟨shifted q₅ 11 .primitiveType "int" :: blank :: missing :: stack,
      tokens.drop 5, [], 14, reports 3, 0, false, none⟩ :=
    r₅.tail (Setup.step_shift rfl rfl head.type rfl)
  obtain ⟨given, r₇⟩ : ∃ given, s.Reached tokens ⟨⟨q₄, .extra, true, 11, given⟩ :: blank :: missing ::
      stack, tokens.drop 5, [], 14, reports 2, 0, false, none⟩ :=
    ⟨_, r₆.tail (Setup.step_wrap (r₆.readable readable) rfl twice one)⟩
  have r₈ : s.Reached tokens ⟨shifted q₅ 14 .primitiveType "int" :: ⟨q₄, .extra, true, 11, given⟩ ::
      blank :: missing :: stack, tokens.drop 6, [], 17, reports 2, 0, false, none⟩ :=
    r₇.tail (Setup.step_shift rfl rfl head.type rfl)
  obtain ⟨given, r₉⟩ : ∃ given, s.Reached tokens ⟨⟨q₃, .extra, true, 10, given⟩ :: stack,
      tokens.drop 6, [], 17, reports 1, 0, false, none⟩ :=
    ⟨_, r₈.tail (Setup.step_wrap (r₈.readable readable) rfl late two)⟩
  have r₁₀ : s.Reached tokens ⟨shifted q₄ 17 .colon ":" :: ⟨q₃, .extra, true, 10, given⟩ :: stack, [], [],
      18, reports 1, 0, false, none⟩ :=
    r₉.tail (Setup.step_shift rfl rfl head.colon rfl)
  obtain ⟨given, r₁₁⟩ : ∃ given, s.Reached tokens ⟨[⟨0, .extra, true, 0, given⟩], [], [], 18,
      strayReports, 0, false, none⟩ :=
    ⟨_, r₁₀.tail (Setup.step_wrap (r₁₀.readable readable) rfl ends all)⟩
  exact ⟨_, r₁₁, rfl, rfl, rfl, rfl⟩

/-- Blanks can change the order of a report: a type given up behind one is reported after what was given
up later in front of it, and before that where there is no blank. -/
theorem blanks_reorder_report : ∃ (l : Language) (d e : Document), Metal.table = .ok l.table ∧
    (Parser.mk l {}).parseTokens "enumclassa intint:" (Token.layOut 0 .zero strayTypes) = .ok d ∧
    (Parser.mk l {}).parseTokens "enumclassaintint:" (Token.layOut 0 .zero (unspaced strayTypes)) =
      .ok e ∧
    d.diagnostics.map (fun x => (x.code, x.message, x.enclosure, x.hint)) ≠
      e.diagnostics.map fun x => (x.code, x.message, x.enclosure, x.hint) := by
  obtain ⟨t, built⟩ := exists_table
  have parts := Table.build_ok built
  let p : Parser := ⟨⟨"metal", t, 0⟩, {}⟩
  have lexical : ∀ u ∈ Token.layOut 0 .zero strayTypes, u.kind.IsLexical := by decide
  have lexical' : ∀ u ∈ Token.layOut 0 .zero (unspaced strayTypes), u.kind.IsLexical := by decide
  obtain ⟨d, parsed⟩ := exists_parseTokens (p := p) built lexical "enumclassa intint:"
  obtain ⟨e, parsed'⟩ := exists_parseTokens (p := p) built lexical' "enumclassaintint:"
  obtain ⟨q₁, q₂, q₃, q₄, q₅, head⟩ := exists_enumHead built
  obtain ⟨c, reached, states, rest, reading, reported⟩ := reached_strayTypes built head
  obtain ⟨q, runs, accept⟩ := Table.runs_start_eof parts isRule_program (action_start_eof built)
  obtain ⟨_, last, same, ran⟩ := Setup.exists_run_of_runs parts runs accept
    (reached.spelled_of_built parts) reading states (by rw [Config.unread, rest]; rfl)
  obtain ⟨_, ran⟩ := Setup.exists_run_of_reached reached (ran {})
  obtain rfl := Parser.parseTokens_of_run parsed ran
  obtain ⟨last', ran', _, diagnostics'⟩ := Parser.exists_run_of_parseTokens parsed'
  obtain ⟨beside, _⟩ := Setup.run_beside_layOut (plain (p := p) built) (by decide) ran ran'
  refine ⟨_, _, e, built, parsed, parsed', ?_⟩
  have spaced : (Setup.report last).map (·.message) =
      ["unexpected input before end of input", "missing `:`", "unexpected input before `:`",
        "unexpected input before type"] := by
    simp [Setup.report, same, reported, strayReports, List.mergeSort]
  have closed : e.diagnostics.map (·.message) =
      ["unexpected input before end of input", "missing `:`", "unexpected input before type",
        "unexpected input before `:`"] := by
    have starts : strayReports.map (fun r => closeUp strayTypes r.range.start) = [0, 10, 10, 10] := by
      decide
    simp only [strayReports, List.map_cons, List.map_nil, List.cons.injEq, and_true] at starts
    simp [diagnostics', Setup.report, beside.diagnostics, same, reported, strayReports, List.mergeSort,
      Diagnostic.moved, ByteRange.moved, starts]
  intro other
  have messages := congrArg (List.map fun x => x.2.1) other
  rw [List.map_map, List.map_map] at messages
  have swapped := spaced.symm.trans (messages.trans closed)
  simp at swapped

end Metal

end ShaderTree
