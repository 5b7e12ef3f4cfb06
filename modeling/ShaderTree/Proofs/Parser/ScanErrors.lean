import ShaderTree.Proofs.Parser.Accounts
import ShaderTree.Proofs.Parser.ErrorTokens

/-! What cutting a text into tokens complains about is reported by every parse of the text, once and
in its order: each error token is left out with a report of its own, and no old node stands for one. -/
namespace ShaderTree

namespace Diagnostic

/-- A diagnostic without the enclosure it was found in. -/
def bare (d : Diagnostic) : Diagnostic := { d with enclosure := .topLevel }

/-- The lexical ones among some diagnostics, without what they are enclosed by. -/
def lexical (ds : List Diagnostic) : List Diagnostic := (ds.filter (·.code.isLexical)).map bare

theorem lexical_append (ds es : List Diagnostic) : lexical (ds ++ es) = lexical ds ++ lexical es := by
  simp [lexical]

theorem lexical_reverse_cons (d : Diagnostic) (ds : List Diagnostic) :
    lexical (d :: ds).reverse = lexical ds.reverse ++ lexical [d] := by
  rw [List.reverse_cons, lexical_append]

theorem lexical_singleton_of_not {d : Diagnostic} (other : d.code.isLexical = false) :
    lexical [d] = [] := by
  simp [lexical, other]

end Diagnostic

namespace Token

variable {t : Token} {d : Diagnostic}

theorem diagnostic?_eq_none (kind : t.kind ≠ .error) : t.diagnostic? = none := if_pos kind

/-- The diagnostic of an error token is lexical, lies at the token and speaks of no enclosure. -/
theorem diagnostic?_eq_some (own : t.diagnostic? = some d) :
    d.code.isLexical = true ∧ d.range = t.range ∧ d.enclosure = .topLevel := by
  unfold diagnostic? at own
  split_ifs at own <;> cases own <;> exact ⟨rfl, rfl, rfl⟩

theorem filterMap_diagnostic?_eq_nil {ts : List Token} (kinds : ∀ t ∈ ts, t.kind ≠ .error) :
    ts.filterMap diagnostic? = [] :=
  List.filterMap_eq_nil_iff.2 fun t member => diagnostic?_eq_none (kinds t member)

theorem Abreast.le_start {stop start : Nat} {ts : List Token} (abreast : Abreast stop start ts)
    (member : t ∈ ts) : start ≤ t.start := by
  induction ts generalizing start with
  | nil => cases member
  | cons u us ih =>
    obtain ⟨rfl, rest⟩ := abreast
    rcases List.mem_cons.1 member with rfl | member
    · exact le_rfl
    · exact (Nat.le_add_right _ _).trans (ih rest member)

/-- Tokens that lie side by side are sorted, and so are their diagnostics. -/
theorem Abreast.sorted {stop start : Nat} {ts : List Token} (abreast : Abreast stop start ts) :
    (ts.filterMap diagnostic?).Pairwise fun d e => d.range.start ≤ e.range.start := by
  have tokens : ts.Pairwise fun t u => t.start ≤ u.start := by
    induction ts generalizing start with
    | nil => exact .nil
    | cons t ts ih =>
      obtain ⟨rfl, rest⟩ := abreast
      refine List.pairwise_cons.2 ⟨fun u member => ?_, ih rest⟩
      exact (Nat.le_add_right _ _).trans (rest.le_start member)
  refine List.pairwise_filterMap.2 (tokens.imp fun {t u} le d own e other => ?_)
  rw [(diagnostic?_eq_some own).2.1, (diagnostic?_eq_some other).2.1]
  exact le

end Token

namespace Setup

open Config ShaderTree.Tree

variable {s : Setup} {c c' : Config} {k : Kind}

/-! The errors reported so far, and those of the tokens still to be read, are the same throughout a
run. -/

/-- Lexical errors reported and to come. -/
def scanErrors (c : Config) : List Diagnostic :=
  Diagnostic.lexical c.diagnostics.reverse ++ c.rest.filterMap Token.diagnostic?

theorem scanErrors_settle (c : Config) : scanErrors c.settle = scanErrors c := by
  have blanks : (c.rest.takeWhile (·.kind.isTrivia)).filterMap Token.diagnostic? = [] :=
    Token.filterMap_diagnostic?_eq_nil fun t => ne_error_of_mem_takeWhile
  have whole := List.takeWhile_append_dropWhile (p := fun t : Token => t.kind.isTrivia) (l := c.rest)
  rw [scanErrors, scanErrors, ← whole, List.filterMap_append, blanks]
  simp [Config.settle]

/-- Tokens without errors are read, and nothing lexical is reported. -/
theorem scanErrors_of_read (taken : List Token) (rest : c.rest = taken ++ c'.rest)
    (kinds : ∀ t ∈ taken, t.kind ≠ .error) (diagnostics : c'.diagnostics = c.diagnostics) :
    scanErrors c' = scanErrors c := by
  rw [scanErrors, scanErrors, rest, List.filterMap_append, Token.filterMap_diagnostic?_eq_nil kinds,
    List.nil_append, diagnostics]

/-- Something else is reported. -/
theorem scanErrors_report {d : Diagnostic} (other : d.code.isLexical = false)
    (rest : c'.rest = c.rest) (diagnostics : c'.diagnostics = d :: c.diagnostics) :
    scanErrors c' = scanErrors c := by
  rw [scanErrors, scanErrors, rest, diagnostics, Diagnostic.lexical_reverse_cons,
    Diagnostic.lexical_singleton_of_not other, List.append_nil]

/-- What is reported of a token left out adds its own error, if it has one. -/
theorem lexical_reportSkipped (c : Config) (t : Token) (widen : Bool) (hint : Option String) :
    Diagnostic.lexical (reportSkipped c t widen hint).reverse =
      Diagnostic.lexical c.diagnostics.reverse ++ t.diagnostic?.toList := by
  unfold reportSkipped
  split
  · rename_i d own
    rw [own, Option.toList_some]
    obtain ⟨lexical, _, enclosure⟩ := Token.diagnostic?_eq_some own
    have bare : Diagnostic.lexical [{ d with enclosure := c.enclosure }] = [d] := by
      simp [Diagnostic.lexical, Diagnostic.bare, lexical, ← enclosure]
    rw [Diagnostic.lexical_reverse_cons, bare]
  · rename_i own
    rw [own, Option.toList_none, List.append_nil]
    dsimp only
    split
    · rename_i last older reported
      split
      · rename_i widened
        have code : last.code.isLexical = false := by
          rw [Bool.and_eq_true, decide_eq_true_eq] at widened
          rw [widened.2]
          rfl
        have wide : ({ last with range := last.range.cover t.range } : Diagnostic).code.isLexical = false :=
          code
        rw [reported, Diagnostic.lexical_reverse_cons, Diagnostic.lexical_reverse_cons,
          Diagnostic.lexical_singleton_of_not wide, Diagnostic.lexical_singleton_of_not code]
      · rw [Diagnostic.lexical_reverse_cons, Diagnostic.lexical_singleton_of_not rfl,
          List.append_nil, reported]
    · rename_i none
      rw [Diagnostic.lexical_reverse_cons, Diagnostic.lexical_singleton_of_not rfl, none,
        List.append_nil]

theorem scanErrors_skip (h : s.skip c = .ok c') : scanErrors c' = scanErrors c := by
  obtain ⟨t, rest, front, rfl⟩ := skip_ok h
  have kept : (pushSkipped c t).1.diagnostics = c.diagnostics := by
    unfold pushSkipped
    split
    · rfl
    · rw [flush_eq]
  simp only [scanErrors]
  rw [lexical_reportSkipped, kept, front, List.append_assoc]
  cases own : t.diagnostic? with
  | none => rw [List.filterMap_cons_none own, Option.toList_none, List.nil_append]
  | some d => rw [List.filterMap_cons_some own, Option.toList_some, List.singleton_append]

theorem scanErrors_reduce {p : Nat} (h : s.reduce c p k = .ok c') :
    scanErrors c' = scanErrors c := by
  obtain ⟨r, trailing, popped, below, next, _, _, _, _, rfl⟩ := reduce_ok h
  rfl

theorem scanErrors_shift (stops : s.table.StopsAtErrors) {next : Nat}
    (action : s.table.action c.top c.lookahead = .shift next) (h : Setup.shift c next = .ok c') :
    scanErrors c' = scanErrors c := by
  obtain ⟨t, rest, front, rfl⟩ := shift_ok h
  refine scanErrors_of_read [t] front (fun u member => ?_) ?_
  · obtain rfl := List.mem_singleton.1 member
    intro kind
    rw [lookahead, front] at action
    exact stops c.top next (kind ▸ action)
  · rw [flush_eq]

theorem scanErrors_takeOver {r : Reuse} {gotoKind : Kind → Option Nat} {top : Nat} {found : Reusable}
    {record : Record} (old : r.KeepsClean) (fits : r.Fits gotoKind top c.rest found record) :
    scanErrors (Setup.takeOver c found) = scanErrors c := by
  refine scanErrors_of_read (c.rest.take found.count) ?_ (fun t member => ?_) ?_
  · rw [Setup.takeOver, rest_flush, List.take_append_drop]
  · have leaf : Token.label t ∈ found.node.leaves := by
      rw [← fits.leaves]
      exact List.mem_map_of_mem member
    exact (clean_of_fits old fits).1 _ leaf
  · rw [Setup.takeOver, flush_eq]

theorem Move.scanErrors_eq (stops : s.table.StopsAtErrors)
    (old : ∀ r, s.reuse = some r → r.KeepsClean) (move : Move s c c') :
    scanErrors c' = scanErrors c := by
  have settled := scanErrors_settle c
  cases move with
  | insertReduce _ _ reduced => exact scanErrors_reduce reduced
  | @insertShift k =>
    refine scanErrors_report (d := missingDiagnostic c k) ?_ rfl rfl
    unfold missingDiagnostic
    split <;> rfl
  | insertStop => rfl
  | reduce _ _ _ reduced => rw [scanErrors_reduce reduced, settled]
  | shift _ _ action shifted => rw [scanErrors_shift stops action shifted, settled]
  | takeOver _ _ _ reuse finds =>
    obtain ⟨record, fits⟩ := Reuse.find?_some finds
    rw [scanErrors_takeOver (old _ reuse) fits, settled]
  | insert => exact settled
  | wrap => rw [← settled]; exact scanErrors_report rfl rfl rfl
  | skip _ _ _ _ _ skipped => rw [scanErrors_skip skipped, settled]

theorem moves_scanErrors_eq (stops : s.table.StopsAtErrors)
    (old : ∀ r, s.reuse = some r → r.KeepsClean) (moves : Relation.ReflTransGen (Move s) c c') :
    scanErrors c' = scanErrors c := by
  induction moves with
  | refl => rfl
  | tail _ move ih => rw [move.scanErrors_eq stops old, ih]

/-- Sorting by places keeps the order of reports that are sorted already. -/
theorem lexical_report
    (sorted : (Diagnostic.lexical c.diagnostics.reverse).Pairwise fun a b =>
      a.range.start ≤ b.range.start) :
    Diagnostic.lexical (Setup.report c) = Diagnostic.lexical c.diagnostics.reverse := by
  have inOrder : (c.diagnostics.reverse.filter (·.code.isLexical)).Pairwise fun a b =>
      decide (a.range.start ≤ b.range.start) = true :=
    (List.pairwise_map.1 sorted).imp fun le => decide_eq_true le
  have same : (Setup.report c).filter (·.code.isLexical) =
      c.diagnostics.reverse.filter (·.code.isLexical) := by
    have inside : (c.diagnostics.reverse.filter (·.code.isLexical)).Sublist (Setup.report c) := by
      refine List.sublist_mergeSort (fun x y z xy yz => ?_) (fun x y => ?_) inOrder List.filter_sublist
      · exact decide_eq_true ((of_decide_eq_true xy).trans (of_decide_eq_true yz))
      · simpa using Nat.le_total x.range.start y.range.start
    have filtered := inside.filter (·.code.isLexical)
    rw [List.filter_filter] at filtered
    simp only [Bool.and_self] at filtered
    refine (filtered.eq_of_length ?_).symm
    exact (((List.mergeSort_perm _ _).filter _).length_eq).symm
  rw [Diagnostic.lexical, same, Diagnostic.lexical]

/-- A run over tokens side by side reports their lexical errors and no others. -/
theorem lexical_of_run {tokens : List Token} {fuel stop : Nat} (stops : s.table.StopsAtErrors)
    (accepts : ∀ state k, s.table.action state k = .accept → k = .eof)
    (old : ∀ r, s.reuse = some r → r.KeepsClean) (lexical : ∀ t ∈ tokens, t.kind.IsLexical)
    (abreast : Token.Abreast stop 0 tokens) (h : s.run fuel (.initial tokens) = .ok c) :
    Diagnostic.lexical (Setup.report c) = tokens.filterMap Token.diagnostic? ∧
      (Setup.root c).KeepsClean := by
  obtain ⟨last, moves, final⟩ := run_cases h
  have atEnd : last.settle.lookahead = .eof := by
    cases final with
    | accepted _ _ action => exact accepts _ _ action
    | gaveUp _ atEnd => exact atEnd
  have settled : c = last.settle := by cases final <;> rfl
  subst settled
  have done := rest_eq_nil lexical ((rest_suffix_settle last).trans (moves_rest_suffix moves)) atEnd
  have all := (scanErrors_settle last).trans (moves_scanErrors_eq stops old moves)
  have told : Diagnostic.lexical last.settle.diagnostics.reverse =
      tokens.filterMap Token.diagnostic? := by
    simpa [scanErrors, done, Config.initial, Diagnostic.lexical] using all
  refine ⟨?_, keepsClean_root (moves_clean stops old (clean_initial tokens) moves).settle⟩
  rw [lexical_report (told ▸ abreast.sorted), told]

end Setup

variable {text : String} {d : Document}

theorem Parser.lexical_of_runOn {g : Grammar} {p : Parser} (reads : g.ReadsNoErrors)
    (built : Table.build g = .ok p.language.table) {reuse : Option Reuse}
    (old : ∀ r, reuse = some r → r.KeepsClean) (h : p.runOn text (Token.readAll text) reuse = .ok d) :
    Diagnostic.lexical d.diagnostics = (Token.readAll text).filterMap Token.diagnostic? ∧
      d.root.KeepsClean := by
  unfold runOn at h
  dsimp only at h
  cases ran : (p.setup reuse).run ((p.setup reuse).stepBound (Token.readAll text).length)
      (.initial (Token.readAll text)) with
  | error f => rw [ran] at h; cases h
  | ok c =>
    rw [ran] at h
    obtain rfl := Except.ok.inj h
    exact Setup.lexical_of_run (reads.stopsAtErrors (Table.build_ok built))
      (fun state k => Table.eof_of_accept built) old (fun _ => Token.isLexical_of_mem_readAll)
      (Token.abreast_readAll text) ran

theorem Parsed.lexical {g : Grammar} (reads : g.ReadsNoErrors)
    (h : Parsed (fun l => Table.build g = .ok l.table) text d) :
    Diagnostic.lexical d.diagnostics = (Token.readAll text).filterMap Token.diagnostic? ∧
      d.root.KeepsClean := by
  induction h with
  | parse known parsed => exact Parser.lexical_of_runOn reads known (by simp) parsed
  | reparse known before changed parsed ih =>
    have tokenized := (before.mono fun _ known => ⟨g, known⟩).isTokenized
    rcases Parser.runOn_readAll_of_reparse tokenized changed parsed with run | ⟨map, run⟩
    · exact Parser.lexical_of_runOn reads known (by simp) run
    · refine Parser.lexical_of_runOn reads known ?_ run
      rintro r ⟨⟩
      exact Reuse.keepsClean_ofDocument ih.2
  | number next _ ih => exact ⟨ih.1, Tree.keepsClean_numberFrom next ih.2⟩

set_option maxRecDepth 20000 in
theorem Metal.readsNoErrors : Metal.grammar.ReadsNoErrors := by
  unfold Grammar.ReadsNoErrors
  decide

/-- Lexical errors survive parsing: however often a text was changed and parsed again, and under
whatever options, the lexical diagnostics of a document are those of the tokens of its text, in their
order and with their codes, messages and ranges. Only what they are enclosed by is added. -/
theorem Metal.parsed_lexical (parsed : Parsed (fun l => Metal.table = .ok l.table) text d) :
    (d.diagnostics.filter (·.code.isLexical)).map Diagnostic.bare =
      (Token.readAll text).filterMap Token.diagnostic? :=
  (parsed.lexical Metal.readsNoErrors).1

/-- Two characters that no token starts with, apart and inside of parentheses. -/
theorem Metal.parsed_lexical_strays : ∃ (p : Parser) (d : Document),
    Metal.table = .ok p.language.table ∧ p.parse "(`) @" = .ok d ∧
      (d.diagnostics.filter (·.code.isLexical)).map Diagnostic.bare =
        [{ code := .invalidCharacter, message := "invalid character ```", range := ⟨1, 2⟩ },
          { code := .invalidCharacter, message := "invalid character `@`", range := ⟨4, 5⟩ }] := by
  obtain ⟨t, built⟩ := Metal.exists_table
  obtain ⟨d, parsed⟩ := Metal.exists_parseTokens (p := ⟨⟨"metal", t, 0⟩, {}⟩) built
    (fun _ => Token.isLexical_of_mem_readAll) "(`) @"
  have strays : (Token.readAll "(`) @").filterMap Token.diagnostic? =
      [{ code := .invalidCharacter, message := "invalid character ```", range := ⟨1, 2⟩ },
        { code := .invalidCharacter, message := "invalid character `@`", range := ⟨4, 5⟩ }] := by
    have labels : Token.labels "(`) @".toList =
        [(.lParen, "("), (.error, "`"), (.rParen, ")"), (.whitespace, " "), (.error, "@")] := by
      with_unfolding_all decide
    have bytes : ∀ s ∈ ["(", "`", ")", " ", "@"], s.utf8ByteSize = 1 := by decide
    rw [Token.readAll_eq_layOut, labels]
    simp [Token.layOut, Token.diagnostic?, Token.range, Token.stop, bytes]
  exact ⟨_, d, built, parsed, (Metal.parsed_lexical (.parse built parsed)).trans strays⟩

end ShaderTree
