import ShaderTree.Proofs.Metal.Precedence
import ShaderTree.Proofs.Metal.Steadiness
import ShaderTree.Proofs.Parser.Incremental

/-! Reparses of the built-in language. Its table is steady, so the records in all its trees can be trusted,
and whatever a reparse takes over is what a parse would have made. -/
namespace ShaderTree

namespace Metal

theorem named {t : Table} (built : table = .ok t) : t.Named := namesNodes.named (Table.build_ok built)

/-- The records in the trees of the built-in language can be trusted. -/
theorem allRemembered {t : Table} (built : table = .ok t) {text : String} {d : Document}
    (parsed : Parsed (fun l => table = .ok l.table) text d) : d.root.AllRemembered t := by
  have speaks : Parsed (Language.Speaks d.table t) text d :=
    parsed.mono fun l known => ⟨⟨_, known⟩, fun _ => Except.ok.inj (known.symm.trans built)⟩
  exact Parsed.allRemembered (named built) (steady built) speaks rfl

/-- A reparse and a parse both return, and give the same up to marks. -/
theorem exists_reparse {p : Parser} (built : table = .ok p.language.table) {text newText : String}
    {old : Document} {changes : List Change} {edits : List Edit}
    (parsed : Parsed (fun l => table = .ok l.table) text old)
    (changed : Change.applyAll text changes = .ok (edits, newText)) :
    ∃ d d', p.reparse old edits newText = .ok d ∧ p.parse newText = .ok d' ∧
      d.text = d'.text ∧ d.root.plain = d'.root.plain ∧ d.diagnostics = d'.diagnostics := by
  have lexical (u : Token) (member : u ∈ Token.readAll newText) : u.kind.IsLexical :=
    Token.isLexical_of_mem_readAll member
  obtain ⟨d', fresh⟩ := exists_parseTokens built lexical newText
  have tokenized := (parsed.mono fun _ known => ⟨_, known⟩).isTokenized
  rcases Parser.reparse_eq (p := p) tokenized changed with same | ⟨map, mapped, _, same⟩
  · exact ⟨d', d', same.trans fresh, fresh, rfl, rfl, rfl⟩
  · have opens : Opens (some (.ofDocument old map)) (Token.readAll newText) :=
      .again (parsed.mono fun _ known => ⟨_, known⟩) changed mapped
    obtain ⟨last, ran⟩ := exists_run built lexical (fun r is => (opens.reuse r is).1)
      (fun r is => (opens.reuse r is).2)
    have ran : ∃ d, p.reparse old edits newText = .ok d := by
      rw [same, Parser.runOn, ran]
      exact ⟨_, rfl⟩
    obtain ⟨d, again⟩ := ran
    refine ⟨d, d', again, fresh, Parser.alike_of_runOn ?_ lexical (Token.abreast_readAll newText)
      (same.symm.trans again) fresh⟩
    rintro r ⟨⟩
    exact Reuse.remembered_ofDocument map (allRemembered built parsed)

/-- Reparses of the built-in language are parses: whatever trees the old one came from, and under
whatever options, after any changes to the text a reparse gives what a parse of the new text under the
same options gives, in text, tree and reports. -/
theorem reparse_sameAs {p : Parser} (built : table = .ok p.language.table) {text newText : String}
    {old : Document} {changes : List Change} {edits : List Edit}
    (parsed : Parsed (fun l => table = .ok l.table) text old)
    (changed : Change.applyAll text changes = .ok (edits, newText)) :
    ∃ d d', p.reparse old edits newText = .ok d ∧ p.parse newText = .ok d' ∧ d.sameAs d' = true := by
  obtain ⟨d, d', again, fresh, texts, shape, reports⟩ := exists_reparse (p := p) built parsed changed
  exact ⟨d, d', again, fresh, by simp [Document.sameAs, texts, Tree.sameShape_of_plain shape, reports]⟩

/-- A name that is changed in a tree that other options led to, by way of a reparse. -/
theorem reparse_sameAs_renamed : ∃ (p q : Parser) (first old d d' : Document),
    table = .ok p.language.table ∧ q.options.maxInsertions = 0 ∧ q.parse "int a; \x7d" = .ok first ∧
      q.reparse first [⟨7, 8, 7⟩] "int a; " = .ok old ∧
        p.reparse old [⟨4, 5, 6⟩] "int be; " = .ok d ∧ p.parse "int be; " = .ok d' ∧
          d.sameAs d' = true := by
  obtain ⟨t, built⟩ := exists_table
  let p : Parser := ⟨⟨"metal", t, 0⟩, {}⟩
  let q : Parser := ⟨⟨"metal", t, 0⟩, { maxInsertions := 0, reuse := false }⟩
  have shorter : Change.applyAll "int a; \x7d" [⟨7, 8, ""⟩] = .ok ([⟨7, 8, 7⟩], "int a; ") := by
    decide
  have longer : Change.applyAll "int a; " [⟨4, 5, "be"⟩] = .ok ([⟨4, 5, 6⟩], "int be; ") := by
    decide
  obtain ⟨first, parsed⟩ := exists_parseTokens (p := q) built
    (fun _ => Token.isLexical_of_mem_readAll) "int a; \x7d"
  obtain ⟨old, _, again, _⟩ := reparse_sameAs (p := q) built (.parse built parsed) shorter
  obtain ⟨d, d', reparsed, fresh, same⟩ := reparse_sameAs (p := p) built
    (.reparse (p := q) built (.parse built parsed) shorter again) longer
  exact ⟨p, q, first, old, d, d', built, rfl, parsed, again, reparsed, fresh, same⟩

end Metal
end ShaderTree
