import ShaderTree.Proofs.Parser.Conservation
import ShaderTree.Proofs.Parser.History
import ShaderTree.Proofs.Parser.Relex
import ShaderTree.Proofs.Table.StartRule

/-! Trees are lossless. A parse ends at the end of input only, so what its moves conserve is in the
tree. Relexing and this rely on each other along a chain of reparses. -/
namespace ShaderTree

open Token (label labels hasText)
open Relex (IsTokenized)

/-- The table was built from a grammar. -/
def Language.IsBuilt (l : Language) : Prop := ∃ g, Table.build g = .ok l.table

namespace Setup

open Config

variable {s : Setup} {c c' : Config}

theorem rest_suffix_settle (c : Config) : c.settle.rest <:+ c.rest := List.dropWhile_suffix _

theorem rest_reduce {p : Nat} {k : Kind} (h : s.reduce c p k = .ok c') : c'.rest = c.rest := by
  obtain ⟨r, trailing, popped, below, next, _, _, _, _, rfl⟩ := reduce_ok h
  rfl

theorem rest_suffix_skip (h : s.skip c = .ok c') : c'.rest <:+ c.rest := by
  obtain ⟨t, rest, front, rfl⟩ := skip_ok h
  rw [front]
  exact List.suffix_cons t rest

theorem Move.rest_suffix (move : Move s c c') : c'.rest <:+ c.rest := by
  have settled := rest_suffix_settle c
  cases move with
  | insertReduce _ _ reduced => exact ⟨[], rest_reduce reduced⟩
  | insertShift => exact List.suffix_refl _
  | insertStop => exact List.suffix_refl _
  | reduce _ _ _ reduced => exact List.IsSuffix.trans ⟨[], rest_reduce reduced⟩ settled
  | shift _ _ _ shifted =>
    obtain ⟨t, rest, front, rfl⟩ := shift_ok shifted
    exact List.IsSuffix.trans (front ▸ List.suffix_cons t rest) settled
  | takeOver =>
    refine List.IsSuffix.trans ?_ settled
    simp only [Setup.takeOver, rest_flush]
    exact List.drop_suffix _ _
  | insert => exact settled
  | wrap => exact settled
  | skip _ _ _ _ _ skipped => exact (rest_suffix_skip skipped).trans settled

theorem moves_rest_suffix (moves : Relation.ReflTransGen (Move s) c c') : c'.rest <:+ c.rest := by
  induction moves with
  | refl => exact List.suffix_refl _
  | tail _ move ih => exact move.rest_suffix.trans ih

/-- No token of these kinds is left where the end of input is next. -/
theorem rest_eq_nil {tokens : List Token} (lexical : ∀ t ∈ tokens, t.kind.IsLexical)
    (suffix : c.rest <:+ tokens) (atEnd : c.lookahead = .eof) : c.rest = [] := by
  unfold lookahead at atEnd
  cases front : c.rest with
  | nil => rfl
  | cons t rest =>
    rw [front] at atEnd
    exact absurd atEnd (lexical t (suffix.subset (by simp [front]))).ne_eof

/-- A run that ends has every token in the tree. -/
theorem leaves_of_run {tokens : List Token} {fuel : Nat}
    (accepts : ∀ state k, s.table.action state k = .accept → k = .eof)
    (lexical : ∀ t ∈ tokens, t.kind.IsLexical) (h : s.run fuel (.initial tokens) = .ok c) :
    (Setup.root c).leaves.filter hasText = (tokens.map label).filter hasText := by
  obtain ⟨last, moves, final⟩ := run_cases h
  have same := moves_output_eq moves
  have suffix := moves_rest_suffix moves
  have atEnd : last.settle.lookahead = .eof := by
    cases final with
    | accepted _ _ action => exact accepts _ _ action
    | gaveUp _ atEnd => exact atEnd
  have settled : c = last.settle := by cases final <;> rfl
  subst settled
  have done := rest_eq_nil lexical ((rest_suffix_settle last).trans suffix) atEnd
  have all : last.settle.output = (tokens.map label).filter hasText := by
    rw [output_settle, same]
    rfl
  rw [leaves_root, ← all, output, done, List.append_nil]

end Setup

namespace Parser

variable {p : Parser} {text : String} {d : Document}

theorem isTokenized_of_runOn {reuse : Option Reuse} (built : p.language.IsBuilt)
    (h : p.runOn text (Token.readAll text) reuse = .ok d) : d.text = text ∧ IsTokenized d := by
  obtain ⟨g, made⟩ := built
  unfold runOn at h
  dsimp only at h
  cases ran : (p.setup reuse).run ((p.setup reuse).stepBound (Token.readAll text).length)
      (.initial (Token.readAll text)) with
  | error f => rw [ran] at h; cases h
  | ok c =>
    rw [ran] at h
    obtain rfl := Except.ok.inj h
    have leaves := Setup.leaves_of_run (fun state k => Table.eof_of_accept made)
      (fun _ => Token.isLexical_of_mem_readAll) ran
    rw [Token.map_label_readAll, List.filter_eq_self.2 fun l => Token.hasText_of_mem_labels]
      at leaves
    exact ⟨rfl, leaves⟩

end Parser

theorem Language.relex_of_isTokenized {old : Document} {text newText : String}
    {changes : List Change} {edits : List Edit} (tokenized : old.text = text ∧ IsTokenized old)
    (changed : Change.applyAll text changes = .ok (edits, newText)) :
    ∃ map, EditMap.ofEdits? edits text.utf8ByteSize = .ok (some map) ∧
      Relex.tokens old map newText = .ok (Token.readAll newText) := by
  obtain ⟨rfl, tokenized⟩ := tokenized
  obtain ⟨map, found, describes⟩ := EditMap.ofEdits?_changes changed
  exact ⟨map, found, Relex.tokens_eq_readAll tokenized describes⟩

namespace Parser

variable {p : Parser} {text newText : String} {old d : Document} {changes : List Change}
  {edits : List Edit}

/-- A reparse has the map of its edits, and their lengths lead to the new text. -/
theorem ofEdits?_of_editMap? {map : EditMap} (mapped : editMap? old edits newText = .ok (some map)) :
    lengthAfter old.text.utf8ByteSize edits = .ok (newText.utf8ByteSize : Int) ∧
      EditMap.ofEdits? edits old.text.utf8ByteSize = .ok (some map) := by
  simp only [editMap?, bind_eq_ok] at mapped
  obtain ⟨length, total, map', found, same⟩ := mapped
  replace same := Except.ok.inj same
  split at same
  · rename_i fits
    subst fits same
    exact ⟨total, found⟩
  · cases same

/-- The edit map of a reparse gives the tokens of the new text. -/
theorem tokens_of_editMap? {map : EditMap} (tokenized : old.text = text ∧ IsTokenized old)
    (changed : Change.applyAll text changes = .ok (edits, newText))
    (mapped : editMap? old edits newText = .ok (some map)) :
    Relex.tokens old map newText = .ok (Token.readAll newText) := by
  obtain ⟨map', found, relexed⟩ := Language.relex_of_isTokenized tokenized changed
  obtain ⟨_, mapped⟩ := ofEdits?_of_editMap? mapped
  rw [tokenized.1, found] at mapped
  obtain rfl := Option.some.inj (Except.ok.inj mapped)
  exact relexed

/-- A reparse of a changed text runs over its tokens, with or without nodes of the old tree. -/
theorem runOn_readAll_of_reparse (tokenized : old.text = text ∧ IsTokenized old)
    (changed : Change.applyAll text changes = .ok (edits, newText))
    (parsed : p.reparse old edits newText = .ok d) :
    p.runOn newText (Token.readAll newText) none = .ok d ∨
      ∃ map, p.runOn newText (Token.readAll newText) (some (.ofDocument old map)) = .ok d := by
  rcases runOn_of_reparse parsed with parsed | ⟨map, tokens, _, _, mapped, relexed, parsed⟩
  · exact .inl parsed
  · obtain rfl := Except.ok.inj (relexed.symm.trans (tokens_of_editMap? tokenized changed mapped))
    exact .inr ⟨map, parsed⟩

end Parser

/-- The leaves of every document are the tokens of its text. -/
theorem Parsed.isTokenized {text : String} {d : Document}
    (h : Parsed Language.IsBuilt text d) : d.text = text ∧ IsTokenized d := by
  induction h with
  | parse known parsed => exact Parser.isTokenized_of_runOn known parsed
  | @reparse p text newText old d changes edits known before changed parsed ih =>
    rcases Parser.runOn_readAll_of_reparse ih changed parsed with run | ⟨map, run⟩
    · exact Parser.isTokenized_of_runOn known run
    · exact Parser.isTokenized_of_runOn known run
  | number next before ih =>
    refine ⟨ih.1, ?_⟩
    unfold IsTokenized Document.numbered
    rw [Tree.leaves_numberFrom]
    exact ih.2

/-- Losslessness: the texts of the leaves together are the text, and the leaves with text are its
tokens, in their order and with their kinds. -/
theorem leaves_eq_tokens {text : String} {d : Document} (h : Parsed Language.IsBuilt text d) :
    d.text = text ∧ d.root.text = text ∧
      d.root.leaves.filter hasText = (Token.readAll text).map label := by
  obtain ⟨rfl, tokenized⟩ := h.isTokenized
  refine ⟨rfl, ?_, ?_⟩
  · apply String.toList_injective
    rw [Tree.text, String.toList_join, List.flatMap_map]
    exact Relex.chars_leaves tokenized
  · rw [tokenized, Token.map_label_readAll]

/-! A small language: rows of semicolons -/

def Grammar.semicolons : Grammar :=
  { nonterminals := #[.hidden "program"]
    levels := #[]
    productions := #[⟨0, [], none⟩, ⟨0, [.nonterminal 0, .terminal .semicolon], none⟩]
    start := 0 }

theorem exists_of_toBool {α ε : Type} {x : Except ε α} (h : x.toBool = true) : ∃ y, x = .ok y := by
  cases x with
  | error e => cases h
  | ok y => exact ⟨y, rfl⟩

/-- A semicolon is parsed, and reparsed with one more in front of it. -/
theorem semicolons_parsed : ∃ old d, Parsed Language.IsBuilt ";" old ∧
    Change.applyAll ";" [⟨0, 0, ";"⟩] = .ok ([⟨0, 0, 1⟩], ";;") ∧
    Parsed Language.IsBuilt ";;" d := by
  have runs : (match Table.build .semicolons with
      | .error _ => false
      | .ok t =>
        match (Parser.mk ⟨"semicolons", t, 0⟩ {}).parse ";" with
        | .error _ => false
        | .ok old => ((Parser.mk ⟨"semicolons", t, 0⟩ {}).reparse old [⟨0, 0, 1⟩] ";;").toBool) =
      true := by with_unfolding_all decide
  have changed : Change.applyAll ";" [⟨0, 0, ";"⟩] = .ok ([⟨0, 0, 1⟩], ";;") := by decide
  split at runs
  · cases runs
  · rename_i t built
    split at runs
    · cases runs
    · rename_i old parsed
      obtain ⟨d, reparsed⟩ := exists_of_toBool runs
      have known : (Language.mk "semicolons" t 0).IsBuilt := ⟨_, built⟩
      have first : Parsed Language.IsBuilt ";" old := .parse known parsed
      exact ⟨old, d, first, changed, .reparse known first changed reparsed⟩

theorem leaves_eq_tokens_semicolons : ∃ d, Parsed Language.IsBuilt ";;" d ∧ d.root.text = ";;" := by
  obtain ⟨_, d, _, _, parsed⟩ := semicolons_parsed
  exact ⟨d, parsed, (leaves_eq_tokens parsed).2.1⟩

/-- Relexing is lexing: the tokens of an edited text are those that reading it afresh gives, with
their places. -/
theorem relex_eq_readAll {text newText : String} {old : Document} {changes : List Change}
    {edits : List Edit} (h : Parsed Language.IsBuilt text old)
    (changed : Change.applyAll text changes = .ok (edits, newText)) :
    ∃ map, EditMap.ofEdits? edits text.utf8ByteSize = .ok (some map) ∧
      Relex.tokens old map newText = .ok (Token.readAll newText) :=
  Language.relex_of_isTokenized h.isTokenized changed

theorem relex_eq_readAll_semicolons : ∃ old map, Parsed Language.IsBuilt ";" old ∧
    EditMap.ofEdits? [⟨0, 0, 1⟩] 1 = .ok (some map) ∧
      Relex.tokens old map ";;" = .ok (Token.readAll ";;") := by
  obtain ⟨old, _, parsed, changed, _⟩ := semicolons_parsed
  obtain ⟨map, found, relexed⟩ := relex_eq_readAll parsed changed
  exact ⟨old, map, parsed, found, relexed⟩

end ShaderTree
