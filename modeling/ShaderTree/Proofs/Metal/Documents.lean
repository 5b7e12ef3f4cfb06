import ShaderTree.Proofs.Metal.Plans
import ShaderTree.Proofs.Parser.Accounts
import ShaderTree.Proofs.Parser.Alike
import ShaderTree.Proofs.Parser.Errorfree
import ShaderTree.Proofs.Parser.Trim

/-! What holds of all documents of the built-in language: the shape of their trees, what is reported of them,
and where blanks stand. A namespace with a stray character in it, and a repair, is one of them. -/
namespace ShaderTree

/-- One production in the place of another is reduced in the state that the inner one leads to. -/
theorem Plan.Stands.unit {g : Grammar} {m : Meetings} {a : Ahead} {t : Table} (covers : a.Covers g = true)
    (checks : m.Checks a g = true) (built : t.BuiltFrom g) {n l s state done next : Nat} {own : Plan}
    {i : Item} {k : Kind} (stands : Stands m g (.rule n (.rule l own .nil) .nil) k i s state)
    (settled : (Plan.rule n (.rule l own .nil) .nil).follow m a g k s = some done)
    (goto : t.goto? state l = some next) :
    ∃ p, t.reductions[p]? = some ⟨n, 1, g.nonterminals[n]?.bind (·.node?)⟩ ∧
      t.action next k = .reduce p := by
  obtain ⟨p, inner, _, within, inside, known, reduces, _⟩ := stands.rule covers checks built settled
  obtain ⟨_, _, next', _, _, _, _, goto', _, further⟩ := inside.rule covers checks built within
  obtain ⟨_, _, _, _, _, _, _, onward⟩ := Plan.rule_of_follow within
  obtain rfl := Option.some.inj (goto'.symm.trans goto)
  obtain rfl := Option.some.inj onward
  exact ⟨p, known, reduces _ further⟩

namespace Metal

open Config Setup

/-! A namespace with a character in it that no token starts with -/

def straySpelling : List Token.Label :=
  [(.whitespace, " "), (.namespaceKw, "namespace"), (.whitespace, " "), (.ident, "a"), (.lBrace, "\x7b"),
    (.whitespace, " "), (.error, "@"), (.whitespace, " "), (.rBrace, "\x7d"), (.whitespace, " ")]

def strayTokens : List Token := Token.layOut 0 .zero straySpelling

theorem readAll_stray : Token.readAll " namespace a\x7b @ \x7d " = strayTokens := by
  have labels : Token.labels " namespace a\x7b @ \x7d ".toList = straySpelling := by
    with_unfolding_all decide
  rw [Token.readAll_eq_layOut, labels, strayTokens]

def strayError : Tree := .node .error {} [.leaf .error "@"]

def strayNode : Tree :=
  .node .namespaceDefinition {} [.leaf .namespaceKw "namespace", .leaf .whitespace " ", .leaf .ident "a",
    .leaf .lBrace "\x7b", .leaf .whitespace " ", strayError, .leaf .whitespace " ", .leaf .rBrace "\x7d"]

def strayReport : Diagnostic :=
  { code := .invalidCharacter, message := "invalid character `@`", range := ⟨14, 15⟩, enclosure := .block }

/-- The same without it. -/
def bareNamespace : Plan := through [.program, .items, .item] (namespacePlan "a")

theorem settled_bareNamespace : bareNamespace.settled meetings (.ofGrammar grammar) grammar = true := by
  decide +kernel

/-- The states of a table on the way through a namespace, and the productions that end it. -/
structure NamespaceStates (t : Table) (q₁ q₂ q₃ q₄ node item items start p₄ p₃ p₂ p₁ : Nat) : Prop where
  namespaceKw : t.action 0 .namespaceKw = .shift q₁
  ident : t.action q₁ .ident = .shift q₂
  lBrace : t.action q₂ .lBrace = .shift q₃
  rBrace : t.action q₃ .rBrace = .shift q₄
  closes : t.action q₄ .eof = .reduce p₄
  reduction₄ : t.reductions[p₄]? = some ⟨Phrase.namespaceDefinition.index, 4, some .namespaceDefinition⟩
  goto₄ : t.goto? 0 Phrase.namespaceDefinition.index = some node
  single : t.action node .eof = .reduce p₃
  reduction₃ : t.reductions[p₃]? = some ⟨Phrase.item.index, 1, none⟩
  goto₃ : t.goto? 0 Phrase.item.index = some item
  alone : t.action item .eof = .reduce p₂
  reduction₂ : t.reductions[p₂]? = some ⟨Phrase.items.index, 1, none⟩
  goto₂ : t.goto? 0 Phrase.items.index = some items
  whole : t.action items .eof = .reduce p₁
  reduction₁ : t.reductions[p₁]? = some ⟨Phrase.program.index, 1, none⟩
  goto₁ : t.goto? 0 Phrase.program.index = some start
  accepts : t.action start .eof = .accept

theorem exists_namespaceStates {t : Table} (built : table = .ok t) :
    ∃ q₁ q₂ q₃ q₄ node item items start p₄ p₃ p₂ p₁,
      NamespaceStates t q₁ q₂ q₃ q₄ node item items start p₄ p₃ p₂ p₁ := by
  have parts := Table.build_ok built
  have settled := settled_bareNamespace
  simp only [Plan.settled, Bool.and_eq_true, decide_eq_true_eq] at settled
  obtain ⟨⟨⟨⟨symbols, _⟩, _⟩, closed⟩, ends⟩ := settled
  obtain ⟨done, follow⟩ := Option.isSome_iff_exists.1 ends
  have stands := Plan.Stands.start checks_meetings closed symbols
  obtain ⟨_, _, start, within₁, inside₁, _, _, goto₁, leads, _⟩ :=
    stands.rule covers_ahead checks_meetings parts follow
  obtain ⟨_, _, items, within₂, inside₂, _, _, goto₂, _⟩ :=
    inside₁.rule covers_ahead checks_meetings parts within₁
  obtain ⟨_, _, item, within₃, inside₃, _, _, goto₃, _⟩ :=
    inside₂.rule covers_ahead checks_meetings parts within₂
  obtain ⟨p₄, _, node, within₄, inside₄, reduction₄, closes, goto₄, _⟩ :=
    inside₃.rule covers_ahead checks_meetings parts within₃
  obtain ⟨p₁, reduction₁, whole⟩ :=
    stands.unit covers_ahead checks_meetings parts follow goto₂
  obtain ⟨p₂, reduction₂, alone⟩ :=
    inside₁.unit covers_ahead checks_meetings parts within₁ goto₃
  obtain ⟨p₃, reduction₃, single⟩ :=
    inside₂.unit covers_ahead checks_meetings parts within₂ goto₄
  obtain ⟨_, _, _, _, on₁⟩ := Plan.token_of_follow within₄
  obtain ⟨_, _, _, _, on₂⟩ := Plan.token_of_follow on₁
  obtain ⟨_, _, _, _, on₃⟩ := Plan.token_of_follow on₂
  obtain ⟨_, _, _, _, on₄⟩ := Plan.token_of_follow on₃
  obtain ⟨q₁, namespaceKw, _, stands₁⟩ := inside₄.token covers_ahead checks_meetings parts within₄
  obtain ⟨q₂, ident, _, stands₂⟩ := stands₁.token covers_ahead checks_meetings parts on₁
  obtain ⟨q₃, lBrace, _, stands₃⟩ := stands₂.token covers_ahead checks_meetings parts on₂
  obtain ⟨q₄, rBrace, _, stands₄⟩ := stands₃.token covers_ahead checks_meetings parts on₃
  obtain rfl := Option.some.inj on₄
  exact ⟨q₁, q₂, q₃, q₄, node, item, items, start, p₄, p₃, p₂, p₁, namespaceKw, ident, lBrace, rBrace,
    closes q₄ stands₄, reduction₄, goto₄, single, reduction₃, goto₃, alone, reduction₂, goto₂, whole,
    reduction₁, goto₁, Table.action_eof_accept parts leads⟩

set_option maxRecDepth 20000 in
/-- No production reads an error token, and none can be in front of one. -/
theorem action_error {t : Table} (built : table = .ok t) (state : Nat) : t.action state .error = .error := by
  have parts := Table.build_ok built
  have reads : ∀ r ∈ grammar.rules, Symbol.terminal .error ∉ r.rhs := by decide +kernel
  have followed : ∀ r ∈ grammar.rules,
      ((Ahead.ofGrammar grammar).followOf r.lhs).testBit Kind.error.index = false := by decide +kernel
  cases action : t.action state .error with
  | error => rfl
  | accept => cases parts.eof_of_accept action
  | shift next =>
    obtain ⟨i, holds, symbol⟩ := (Table.leads_of_shift parts action).exists_next
    obtain ⟨r, known, _, rhs⟩ := Grammar.getElem?_rules (Grammar.isItem_of_holds holds).1
    exact absurd (rhs ▸ List.mem_of_getElem? symbol) (reads r (List.mem_of_getElem? known))
  | reduce p =>
    obtain ⟨_, d, looks, _⟩ := Table.completes_of_reduce parts action
    obtain ⟨r, known, lhs, _⟩ := Grammar.getElem?_rules (Grammar.isItem_of_holds looks.holds).1
    have follow := Ahead.follow_of_looks covers_ahead looks (by decide)
    rw [← lhs, followed r (List.mem_of_getElem? known)] at follow
    cases follow

/-- All but the blank at the end has been read, with one entry on the stack for it. -/
def strayConfig (state : Nat) : Config :=
  ⟨[⟨state, .symbol, true, 1, [strayNode]⟩, ⟨0, .extra, false, 0, [.leaf .whitespace " "]⟩],
    strayTokens.drop 9, [], 17, [strayReport], 0, false, none⟩

theorem reached_stray {t : Table} {q₁ q₂ q₃ q₄ node item items start p₄ p₃ p₂ p₁ : Nat}
    (built : table = .ok t) (states : NamespaceStates t q₁ q₂ q₃ q₄ node item items start p₄ p₃ p₂ p₁)
    (options : Options) : (Setup.mk t options none).Reached strayTokens (strayConfig start).settle := by
  let s : Setup := ⟨t, options, none⟩
  let leaf (state start : Nat) (k : Kind) (text : String) : Entry :=
    ⟨state, .symbol, false, start, [.leaf k text]⟩
  let blank (state start : Nat) : Entry := ⟨state, .extra, false, start, [.leaf .whitespace " "]⟩
  let stack := [leaf q₄ 16 .rBrace "\x7d", blank q₃ 15, ⟨q₃, .skipped, true, 14, [.leaf .error "@"]⟩,
    blank q₃ 13, leaf q₃ 12 .lBrace "\x7b", leaf q₂ 11 .ident "a", blank q₁ 10,
    leaf q₁ 1 .namespaceKw "namespace", blank 0 0]
  have r₀ : s.Reached strayTokens (.initial strayTokens) := .refl
  have r₁ : s.Reached strayTokens ⟨stack.drop 7, strayTokens.drop 2, [], 10, [], 0, false, none⟩ :=
    r₀.tail (Setup.step_shift rfl rfl states.namespaceKw rfl)
  have r₂ : s.Reached strayTokens ⟨stack.drop 5, strayTokens.drop 4, [], 12, [], 0, false, none⟩ :=
    r₁.tail (Setup.step_shift rfl rfl states.ident rfl)
  have r₃ : s.Reached strayTokens ⟨stack.drop 4, strayTokens.drop 5, [], 13, [], 0, false, none⟩ :=
    r₂.tail (Setup.step_shift rfl rfl states.lBrace rfl)
  have invalid : (Token.mk .error "@" 14 ⟨⟨0, 14⟩, ⟨0, 15⟩⟩).diagnostic? =
      some { strayReport with enclosure := .topLevel } := by
    simp only [Token.diagnostic?]
    decide +kernel
  have r₄ : s.Reached strayTokens ⟨stack.drop 2, strayTokens.drop 7, [], 15, [strayReport], 0, true, none⟩ :=
    r₃.tail (Setup.step_leaveOut rfl rfl invalid (action_error built q₃) rfl)
  have r₅ : s.Reached strayTokens ⟨stack, strayTokens.drop 9, [], 17, [strayReport], 0, false, none⟩ :=
    r₄.tail (Setup.step_shift rfl rfl states.rBrace rfl)
  have r₆ : s.Reached strayTokens (strayConfig node).settle :=
    r₅.tail (Setup.step_reduce rfl rfl states.closes
      ((Setup.reduce_of_goto states.reduction₄ states.goto₄).trans rfl))
  have r₇ : s.Reached strayTokens (strayConfig item).settle :=
    r₆.tail (Setup.step_reduce rfl rfl states.single
      ((Setup.reduce_of_goto states.reduction₃ states.goto₃).trans rfl))
  have r₈ : s.Reached strayTokens (strayConfig items).settle :=
    r₇.tail (Setup.step_reduce rfl rfl states.alone
      ((Setup.reduce_of_goto states.reduction₂ states.goto₂).trans rfl))
  exact r₈.tail (Setup.step_reduce rfl rfl states.whole
    ((Setup.reduce_of_goto states.reduction₁ states.goto₁).trans rfl))

/-- The character is left out and reported, and the namespace is closed behind it. -/
theorem parse_stray {p : Parser} (built : table = .ok p.language.table) :
    ∃ d, p.parse " namespace a\x7b @ \x7d " = .ok d ∧ d.text = " namespace a\x7b @ \x7d " ∧
      d.root = .node .sourceFile {} [.leaf .whitespace " ", strayNode, .leaf .whitespace " "] ∧
      d.diagnostics = [strayReport] := by
  obtain ⟨_, _, _, _, _, _, _, start, _, _, _, _, states⟩ := exists_namespaceStates built
  have reached : p.setup.Reached (Token.readAll " namespace a\x7b @ \x7d ") (strayConfig start).settle := by
    rw [readAll_stray]
    exact reached_stray built states p.options
  have accepted : p.setup.step (strayConfig start).settle = .ok (.accepted (strayConfig start).settle.settle) :=
    Setup.step_accept rfl rfl states.accepts
  have once : p.setup.run 1 (strayConfig start).settle = .ok (strayConfig start).settle.settle := by
    rw [Setup.run, accepted]
  obtain ⟨fuel, ran⟩ := Setup.exists_run_of_reached reached once
  have lexical : ∀ u ∈ Token.readAll " namespace a\x7b @ \x7d ", u.kind.IsLexical :=
    fun _ => Token.isLexical_of_mem_readAll
  obtain ⟨d, parsed⟩ := exists_parseTokens built lexical " namespace a\x7b @ \x7d "
  obtain rfl := Parser.parseTokens_of_run parsed ran
  exact ⟨_, parsed, rfl, rfl, List.mergeSort_singleton _⟩

end Metal

/-! What holds of all documents -/

/-- Conformance: whatever the text and the options, and however often the text was changed and
parsed again, each node of the tree that belongs to a nonterminal of the grammar has children that
one of its productions allows, and the whole text is what the start symbol allows. What was left out
does not count, and what was pretended counts as read. -/
theorem Metal.parsed_conforms {text : String} {d : Document}
    (parsed : Parsed (fun l => Metal.table = .ok l.table) text d) : d.Conforms Metal.grammar := by
  refine parsed.conforms Metal.namesNodes fun t built => ?_
  rw [Metal.action_start_eof built]
  simp

/-- A namespace with an error in it has the children that its production asks for. -/
theorem Metal.parsed_conforms_stray : ∃ (p : Parser) (d : Document), Metal.table = .ok p.language.table ∧
    p.parse " namespace a\x7b @ \x7d " = .ok d ∧ d.Conforms Metal.grammar ∧
    strayNode ∈ d.root.nodes ∧ strayError ∈ strayNode.children ∧
    ∃ q ∈ grammar.productions, q.lhs = Phrase.namespaceDefinition.index ∧
      grammar.Expands q.rhs [.namespaceKw, .ident, .lBrace, .rBrace] := by
  obtain ⟨t, built⟩ := Metal.exists_table
  obtain ⟨d, parsed, _, root, _⟩ := parse_stray (p := ⟨⟨"metal", t, 0⟩, {}⟩) built
  have conforms := Metal.parsed_conforms (.parse built parsed)
  have inside : strayNode ∈ d.root.nodes := by
    rw [root]
    simp [Tree.nodes, Tree.nodesAll, strayNode]
  obtain ⟨q, member, lhs, expands⟩ :=
    conforms.1 strayNode inside Phrase.namespaceDefinition.index _ rfl rfl
  exact ⟨_, d, built, parsed, conforms, inside, by simp [strayNode, Tree.children], q, member, lhs, expands⟩

/-- Errors of a Metal text are a matter of the table alone: whatever two sets of options are used, the
text has no errors under either, and then the same document under both, or it has errors under both;
and it has none exactly if the plain machine accepts its tokens other than blanks and comments. -/
theorem Metal.errorfree_iff_takes {l : Language} (built : Metal.table = .ok l.table) (a b : Options)
    (text : String) :
    ∃ d e, (Parser.mk l a).parse text = .ok d ∧ (Parser.mk l b).parse text = .ok e ∧
      (d.diagnostics = [] ∧ e.diagnostics = [] ∧ d = e ∨ d.diagnostics ≠ [] ∧ e.diagnostics ≠ []) ∧
      (d.diagnostics = [] ↔ l.table.Takes (Token.words (Token.readAll text))) := by
  by_cases takes : l.table.Takes (Token.words (Token.readAll text))
  · obtain ⟨d, quiet, parsed⟩ := exists_parse_of_takes built takes
    exact ⟨d, d, parsed a, parsed b, .inl ⟨quiet, quiet, rfl⟩, fun _ => takes, fun _ => quiet⟩
  · have lexical : ∀ u ∈ Token.readAll text, u.kind.IsLexical :=
      fun _ => Token.isLexical_of_mem_readAll
    obtain ⟨d, parsed⟩ := Metal.exists_parseTokens (p := ⟨l, a⟩) built lexical text
    obtain ⟨e, parsed'⟩ := Metal.exists_parseTokens (p := ⟨l, b⟩) built lexical text
    have reports (quiet : d.diagnostics = []) : False := takes (takes_of_parse built parsed quiet)
    exact ⟨d, e, parsed, parsed', .inr ⟨reports, fun quiet => takes (takes_of_parse built parsed' quiet)⟩,
      fun quiet => (reports quiet).elim, fun taken => absurd taken takes⟩

/-- Two namespaces, and one with an error, with and without an allowance for repairs. -/
theorem Metal.errorfree_namespaces : ∃ l : Language, Metal.table = .ok l.table ∧
    (∃ d, (Parser.mk l {}).parse "namespace a\x7b\x7dnamespace b\x7b\x7d" = .ok d ∧
      (Parser.mk l { maxInsertions := 0 }).parse "namespace a\x7b\x7dnamespace b\x7b\x7d" = .ok d ∧
      d.diagnostics = [] ∧ l.table.Takes
        [.namespaceKw, .ident, .lBrace, .rBrace, .namespaceKw, .ident, .lBrace, .rBrace]) ∧
    ∃ d e, (Parser.mk l {}).parse " namespace a\x7b @ \x7d " = .ok d ∧
      (Parser.mk l { maxInsertions := 0 }).parse " namespace a\x7b @ \x7d " = .ok e ∧
      d.diagnostics = [strayReport] ∧ e.diagnostics ≠ [] ∧
      ¬ l.table.Takes [.namespaceKw, .ident, .lBrace, .error, .rBrace] := by
  obtain ⟨t, built⟩ := Metal.exists_table
  let l : Language := ⟨"metal", t, 0⟩
  refine ⟨l, built, ?_, ?_⟩
  · obtain ⟨d, e, parsed, parsed', cases, takes⟩ := Metal.errorfree_iff_takes (l := l) built {}
      { maxInsertions := 0 } "namespace a\x7b\x7dnamespace b\x7b\x7d"
    have words : Token.words (Token.readAll "namespace a\x7b\x7dnamespace b\x7b\x7d") =
        [.namespaceKw, .ident, .lBrace, .rBrace, .namespaceKw, .ident, .lBrace, .rBrace] := by
      with_unfolding_all decide
    have labels : (Token.readAll "namespace a\x7b\x7dnamespace b\x7b\x7d").map Token.label =
        namespaceLabels "a" ++ namespaceLabels "b" := by with_unfolding_all decide
    obtain ⟨_, known, quiet, _⟩ := parse_namespaces (p := ⟨l, {}⟩) built labels
    obtain rfl := Except.ok.inj (known.symm.trans parsed)
    rcases cases with ⟨_, _, rfl⟩ | ⟨noisy, _⟩
    · exact ⟨_, parsed, parsed', quiet, words ▸ takes.1 quiet⟩
    · exact absurd quiet noisy
  · obtain ⟨d, e, parsed, parsed', cases, takes⟩ := Metal.errorfree_iff_takes (l := l) built {}
      { maxInsertions := 0 } " namespace a\x7b @ \x7d "
    have words : Token.words (Token.readAll " namespace a\x7b @ \x7d ") =
        [.namespaceKw, .ident, .lBrace, .error, .rBrace] := by
      with_unfolding_all decide
    obtain ⟨_, known, _, _, report⟩ := parse_stray (p := ⟨l, {}⟩) built
    obtain rfl := Except.ok.inj (known.symm.trans parsed)
    rcases cases with ⟨quiet, _⟩ | ⟨noisy, noisy'⟩
    · cases report.symm.trans quiet
    · exact ⟨_, e, parsed, parsed', report, noisy', fun taken => noisy (takes.2 (words.symm ▸ taken))⟩

/-- Diagnostics and repairs in the tree answer to each other: whatever the text and the options, and
however often the text was changed and parsed again, diagnostics are sorted by their starts and lie in
the text. Each pretended token is a node without text at its diagnostic, each piece of text given up is
a node with the range of its diagnostic, every other error node starts with the diagnostic of a token
left out, and each of these lies inside one. -/
theorem Metal.parsed_accounts {text : String} {d : Document}
    (parsed : Parsed (fun l => Metal.table = .ok l.table) text d) : d.Accounts :=
  (parsed.tallies Metal.namesNodes).2.accounts

/-- The report of the character lies inside the node that it was put into. -/
theorem Metal.parsed_accounts_stray : ∃ (p : Parser) (d : Document), Metal.table = .ok p.language.table ∧
    p.parse " namespace a\x7b @ \x7d " = .ok d ∧ d.Accounts ∧ d.diagnostics = [strayReport] ∧
    d.errorNodes.map (fun n => (n.tree, n.range)) = [(strayError, ⟨14, 15⟩)] ∧
    ∃ n ∈ d.errorNodes, n.kind = .error ∧ n.range.contains strayReport.range = true := by
  obtain ⟨t, built⟩ := Metal.exists_table
  obtain ⟨d, parsed, _, root, report⟩ := parse_stray (p := ⟨⟨"metal", t, 0⟩, {}⟩) built
  have accounts := Metal.parsed_accounts (.parse built parsed)
  refine ⟨_, d, built, parsed, accounts, report, ?_, ?_⟩
  · rw [Document.errorNodes, root]
    rfl
  · exact accounts.covered strayReport (report ▸ List.mem_singleton_self _) (.inr rfl)

/-- Blanks and comments stay outside: whatever the text and the options, and however often the text was
changed and parsed again, each node below the root has children, and neither the first nor the last of
them is a blank or a comment. Nodes for text given up are no exception. -/
theorem Metal.parsed_trim {text : String} {d : Document}
    (parsed : Parsed (fun l => Metal.table = .ok l.table) text d) :
    ∀ u ∈ Tree.nodesAll d.root.children, Tree.Trim u.children :=
  (parsed.trim Metal.onlyStartVanishes rfl).inside

/-- The blanks around the namespace are outside it, and those around the character outside its node. -/
theorem Metal.parsed_trim_stray : ∃ (p : Parser) (d : Document), Metal.table = .ok p.language.table ∧
    p.parse " namespace a\x7b @ \x7d " = .ok d ∧
    d.root.children = [.leaf .whitespace " ", strayNode, .leaf .whitespace " "] ∧
    Tree.nodesAll d.root.children = [strayNode, strayError] ∧ Tree.Trim strayNode.children ∧
    Tree.Trim strayError.children := by
  obtain ⟨t, built⟩ := Metal.exists_table
  obtain ⟨d, parsed, _, root, _⟩ := parse_stray (p := ⟨⟨"metal", t, 0⟩, {}⟩) built
  have trim := Metal.parsed_trim (.parse built parsed)
  have nodes : Tree.nodesAll d.root.children = [strayNode, strayError] := by
    rw [root]
    rfl
  exact ⟨_, d, built, parsed, by rw [root]; rfl, nodes, trim strayNode (by simp [nodes]),
    trim strayError (by simp [nodes])⟩

end ShaderTree
