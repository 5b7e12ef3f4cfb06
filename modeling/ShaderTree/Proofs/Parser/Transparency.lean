import ShaderTree.Proofs.Parser.Beside
import ShaderTree.Proofs.Parser.Errorfree

/-! Blanks and comments are transparent: one step of a parse that reads them is one step of the parse
without them, so both make the same repairs in the same order and build the same tree. -/
namespace ShaderTree

open ShaderTree.Tree (gist plainAll)
open Token (Label label chars hasText unspaced closeUp)

namespace Config.Beside

open Setup Config

variable {g : Grammar} {s : Setup} {labels : List Label} {c c' d d' : Config} {stop stop' : Nat}

theorem made_eq {r : Reduction} {popped popped' : List Entry} {state state' : Nat}
    (trees : plainAll (popped'.flatMap Entry.trees) = gist (popped.flatMap Entry.trees)) (k : Kind) :
    plainAll (made r popped' state' k) = gist (made r popped state k) := by
  unfold made
  split
  · exact trees
  · rw [Tree.gist_node, Tree.gist_nil, ← trees]
    rfl

theorem reduce (beside : Beside labels c c') {p : Nat} {k : Kind} (h : s.reduce c p k = .ok d)
    (h' : s.reduce c' p k = .ok d') : Beside labels d d' := by
  obtain ⟨r, trailing, popped, below, next, known, trailingIs, split, goto, rfl⟩ := reduce_ok h
  obtain ⟨r', trailing', popped', below', next', known', trailingIs', split', goto', rfl⟩ := reduce_ok h'
  obtain rfl := Option.some.inj (known.symm.trans known')
  obtain ⟨under, trees, damaged⟩ := beside.mirrored.dropWhile.pop r.length
  rw [split, split'] at under trees damaged
  rw [under.topState_eq, goto] at goto'
  obtain rfl := Option.some.inj goto'
  have pushed : Mirrored
      (⟨next, .symbol, popped.any (·.damaged), startOf c popped trailing,
        made r popped (topState below) k⟩ :: below)
      (⟨next, .symbol, popped'.any (·.damaged), startOf c' popped' trailing',
        made r popped' (topState below') k⟩ :: below') :=
    .entry under rfl rfl damaged (made_eq trees k)
  have mirrored := beside.mirrored.raise pushed rfl
  rw [← trailingIs, ← trailingIs'] at mirrored
  exact { beside with mirrored }

/-- The blanks in front of it go to the first stack with the next token. -/
theorem flush (blank : ∀ t ∈ c.pending, t.kind.isTrivia = true) (beside : Beside labels c c') :
    Mirrored c.flush.stack c'.flush.stack := by
  rw [flush_eq, flush_eq, beside.pending]
  exact beside.mirrored.extras blank rfl

theorem shift (blank : ∀ t ∈ c.pending, t.kind.isTrivia = true)
    (words : ∀ t rest, c.rest = t :: rest → t.kind.isTrivia = false) (beside : Beside labels c c')
    {next : Nat} (h : Setup.shift c next = .ok d) (h' : Setup.shift c' next = .ok d') :
    Beside labels d d' := by
  have flushed := beside.flush blank
  obtain ⟨t, rest, front, rfl⟩ := shift_ok h
  obtain ⟨t', rest', front', rfl⟩ := shift_ok h'
  have word := words t rest front
  obtain ⟨u, others, next', same, behind⟩ := beside.front front word
  obtain ⟨rfl, rfl⟩ := List.cons.inj (front'.symm.trans next')
  refine ⟨.entry flushed rfl rfl rfl (gist_leaf_eq same word), behind, rfl, ?_, rfl, rfl, ?_, ?_⟩
  · rw [flush_eq, flush_eq]
    exact beside.diagnostics
  · rw [flush_eq, flush_eq]
    exact beside.inserting
  · rw [flush_eq]
    exact beside.word

theorem pushMissing (texts : ∀ l ∈ labels, hasText l = true) (grounded : Grounded g labels stop c)
    (placed' : c'.Placed stop') (beside : Beside labels c c') {k : Kind}
    (inserting : c.inserting = some k) (next : Nat) :
    Beside labels (endInsertion (Setup.pushMissing c k next))
      (endInsertion (Setup.pushMissing c' k next)) := by
  have opened := openDelimiter_eq texts grounded placed' beside.mirrored
  have cursor := closeUp_cursor texts grounded placed' beside.mirrored
  have reported : missingDiagnostic c' k = (missingDiagnostic c k).moved (closeUp labels) := by
    unfold missingDiagnostic
    rw [opened, ← cursor]
    cases c.openDelimiter? with
    | none => rfl
    | some opener =>
      simp only [Option.map_some, Diagnostic.moved, ByteRange.moved, ByteRange.empty]
      split <;> rfl
  refine ⟨.entry beside.mirrored rfl rfl rfl ?_, beside.rest, beside.pending, ?_, ?_, rfl, rfl, ?_⟩
  · rw [Tree.gist_node, Tree.gist_leaf (beside.word k inserting), Tree.gist_nil]
    rfl
  · exact List.cons_eq_cons.2 ⟨reported, beside.diagnostics⟩
  · exact congrArg (· + 1) beside.inserted
  · exact fun k is => by cases is

theorem endInsertion (beside : Beside labels c c') :
    Beside labels (Setup.endInsertion c) (Setup.endInsertion c') :=
  { beside with
    inserted := congrArg (· + 1) beside.inserted
    lastSkip := rfl
    inserting := rfl
    word := fun _ is => by cases is }

theorem wrap (texts : ∀ l ∈ labels, hasText l = true) (grounded : Grounded g labels stop c)
    (placed' : c'.Placed stop') (beside : Beside labels c c') (depth : Nat) (lookahead : Kind)
    (after : Grounded g labels stop (Setup.wrap c depth lookahead))
    (after' : (Setup.wrap c' depth lookahead).Placed stop') :
    Beside labels (Setup.wrap c depth lookahead) (Setup.wrap c' depth lookahead) := by
  obtain ⟨under, trees, _⟩ := beside.mirrored.pop depth
  have cursor := closeUp_cursor texts grounded placed' beside.mirrored
  cases split : Config.pop depth c.stack with
  | mk popped below =>
    cases split' : Config.pop depth c'.stack with
    | mk popped' below' =>
      rw [wrap_eq grounded.placed split] at after ⊢
      rw [wrap_eq placed' split'] at after' ⊢
      rw [split, split'] at under trees
      have mirrored : Mirrored (givenUp c popped below).stack (givenUp c' popped' below').stack := by
        refine .entry under under.topState_eq rfl rfl ?_
        rw [Tree.gist_node, Tree.gist_nil, ← trees]
        rfl
      have enclosed := enclosure_eq texts after after' mirrored
      have enclosure : (givenUp c' popped' below').enclosure = (givenUp c popped below).enclosure :=
        enclosed
      have lays : Lays labels below := (lays_of_output after.output).below
      have start : closeUp labels (extent below) = extent below' := closeUp_extent texts lays under
      have reported : givenUpDiagnostic c' popped' below' lookahead =
          (givenUpDiagnostic c popped below lookahead).moved (closeUp labels) := by
        unfold givenUpDiagnostic
        rw [enclosure, ← start, ← cursor]
        rfl
      refine ⟨mirrored, beside.rest, beside.pending, ?_, beside.inserted, rfl, beside.inserting,
        beside.word⟩
      exact List.cons_eq_cons.2 ⟨reported, beside.diagnostics⟩

/-! Tokens that are left out -/

theorem diagnostic?_eq {t t' : Token} {f : Nat → Nat} (same : label t' = label t)
    (range : t'.range = t.range.moved f) :
    t'.diagnostic? = t.diagnostic?.map (Diagnostic.moved f) := by
  obtain ⟨kind, text⟩ := Prod.mk.inj same
  unfold Token.diagnostic?
  rw [kind, text, range]
  split_ifs <;> rfl

theorem reportSkipped_eq {t t' : Token} {f : Nat → Nat} (mono : Monotone f)
    (same : label t' = label t) (range : t'.range = t.range.moved f)
    (enclosure : c'.enclosure = c.enclosure)
    (diagnostics : c'.diagnostics = c.diagnostics.map (Diagnostic.moved f)) (widen : Bool)
    (hint : Option String) : reportSkipped c' t' widen hint =
      (reportSkipped c t widen hint).map (Diagnostic.moved f) := by
  have text : t'.text = t.text := congrArg Prod.snd same
  unfold reportSkipped
  rw [diagnostic?_eq same range, diagnostics, enclosure, text, range]
  cases t.diagnostic? with
  | some d => rfl
  | none =>
    cases c.diagnostics with
    | nil => rfl
    | cons last older =>
      simp only [Option.map_none, List.map_cons]
      have code : (last.moved f).code = last.code := rfl
      rw [code]
      split
      · rw [List.map_cons]
        refine List.cons_eq_cons.2 ⟨?_, rfl⟩
        simp only [Diagnostic.moved, ByteRange.cover_moved mono]
      · rfl

theorem pushSkipped_open {t : Token} {e : Entry} {below : List Entry} (skipping : c.lastSkip = true)
    (stack : c.stack = e :: below) (role : e.role = .skipped) : pushSkipped c t =
      ({ c with
        stack := { e with children := e.children ++ c.pending.map leaf ++ [leaf t] } :: below
        pending := [] }, true) := by
  obtain ⟨state, role', damaged, offset, children⟩ := e
  obtain rfl : role' = .skipped := role
  simp only [pushSkipped, skipping, stack]

theorem pushSkipped_fresh {t : Token} (skipping : c.lastSkip = false) : pushSkipped c t =
    ({ c.flush with
      stack := ⟨c.flush.top, .skipped, true, t.start, [leaf t]⟩ :: c.flush.stack }, false) := by
  simp only [pushSkipped, skipping]

/-- Tokens left out just before are on top of both stacks, or of none. -/
theorem pushSkipped_eq (accounted : c.Accounted) (blank : ∀ t ∈ c.pending, t.kind.isTrivia = true)
    (beside : Beside labels c c') {t t' : Token} (same : label t' = label t)
    (word : t.kind.isTrivia = false) :
    Mirrored (pushSkipped c t).1.stack (pushSkipped c' t').1.stack ∧
      (pushSkipped c' t').2 = (pushSkipped c t).2 := by
  cases skipping : c.lastSkip with
  | false =>
    have flushed := beside.flush blank
    rw [pushSkipped_fresh skipping, pushSkipped_fresh (beside.lastSkip.trans skipping)]
    exact ⟨.entry flushed flushed.topState_eq rfl rfl (gist_leaf_eq same word), rfl⟩
  | true =>
    obtain ⟨runs, _, _, top⟩ := accounted.errors
    obtain ⟨e, below, others, d, older, run⟩ := top skipping
    have mirrored := beside.mirrored
    rw [run.stack] at mirrored
    generalize stack' : c'.stack = entries at mirrored
    cases mirrored with
    | blank _ role => cases run.role.symm.trans role
    | entry rest state role damaged children =>
      rw [pushSkipped_open skipping run.stack run.role,
        pushSkipped_open (beside.lastSkip.trans skipping) stack' (role.trans run.role), beside.pending]
      refine ⟨.entry rest state role damaged ?_, rfl⟩
      rw [Tree.plainAll_append, Tree.plainAll_append, children, gist_leaf_eq same word,
        Tree.gist_append, Tree.gist_append, Tree.gist_map_leaf blank]
      rfl

theorem skip (texts : ∀ l ∈ labels, hasText l = true) (grounded : Grounded g labels stop c)
    (words : ∀ t rest, c.rest = t :: rest → t.kind.isTrivia = false) (placed' : c'.Placed stop')
    (beside : Beside labels c c') (h : s.skip c = .ok d) (h' : s.skip c' = .ok d')
    (after : Grounded g labels stop d) (after' : d'.Placed stop') : Beside labels d d' := by
  obtain ⟨t, rest, front, rfl⟩ := skip_ok h
  obtain ⟨t', rest', front', rfl⟩ := skip_ok h'
  have word := words t rest front
  obtain ⟨u, others, next', same, behind⟩ := beside.front front word
  obtain ⟨rfl, rfl⟩ := List.cons.inj (front'.symm.trans next')
  obtain ⟨mirrored, widen⟩ := pushSkipped_eq grounded.accounted grounded.conforms.pending beside same word
  have range := range_eq texts grounded placed' beside front front' same word
  have enclosed := enclosure_eq texts after after' mirrored
  have enclosure : (pushSkipped c' t').1.enclosure = (pushSkipped c t).1.enclosure := enclosed
  have diagnostics (a : Config) (u : Token) : (pushSkipped a u).1.diagnostics = a.diagnostics := by
    unfold pushSkipped
    split
    · rfl
    · rw [flush_eq]
  have pending (a : Config) (u : Token) : (pushSkipped a u).1.pending = [] := (pushSkipped_word u).1
  have inserting (a : Config) (u : Token) := inserting_pushSkipped (c := a) u
  refine ⟨mirrored, behind, pending c' t', ?_, rfl, rfl, ?_, ?_⟩
  · have before : (pushSkipped c' t').1.diagnostics =
        (pushSkipped c t).1.diagnostics.map (Diagnostic.moved (closeUp labels)) := by
      rw [diagnostics, diagnostics]
      exact beside.diagnostics
    have reported := reportSkipped_eq (Token.closeUp_mono labels) same range enclosure before
      (pushSkipped c t).2 (expectedHint s.table c.top)
    change reportSkipped _ _ _ (expectedHint s.table c'.top) = _
    rw [widen, beside.top_eq]
    exact reported
  · change (pushSkipped c' t').1.inserting = (pushSkipped c t).1.inserting
    rw [inserting, inserting]
    exact beside.inserting
  · change ∀ k, (pushSkipped c t).1.inserting = some k → _
    rw [inserting]
    exact beside.word

theorem chooseRepair_eq (beside : Beside labels c c') (k : Kind) :
    s.chooseRepair c' k = s.chooseRepair c.settle k := by
  unfold chooseRepair
  rw [beside.states_eq, beside.upcoming_eq, beside.inserted]
  rfl

theorem asksForNode_eq (beside : Beside labels c c') (k : Kind) :
    s.asksForNode c' k = s.asksForNode c.settle k := by
  unfold asksForNode
  rw [beside.states_eq, beside.upcoming_eq]
  rfl

end Config.Beside

namespace Setup

open Config

variable {g : Grammar} {s : Setup} {labels : List Label} {c c' d : Config} {stop stop' : Nat}

/-- What the steps of both parses rest on: the table is one of the grammar, in which only the start
symbol vanishes, and no old nodes are taken over. -/
structure Plain (s : Setup) (g : Grammar) : Prop where
  built : s.table.BuiltFrom g
  names : g.NamesNodes
  only : g.OnlyStartVanishes
  fresh : s.reuse = none

theorem Move.grounded (plain : s.Plain g) (grounded : Grounded g labels stop c) (move : Move s c d) :
    Grounded g labels stop d := by
  have old {p : Reuse → Prop} : ∀ r, s.reuse = some r → p r := by simp [plain.fresh]
  obtain ⟨placed, output, conforms, tight, accounted⟩ := grounded
  exact ⟨move.placed placed, move.output_eq.trans output,
    move.conforms plain.names plain.built rfl old conforms,
    move.tight plain.only plain.built rfl conforms tight,
    move.accounted (plain.names.sparesRepairs plain.built) old placed accounted⟩

theorem grounded_initial {tokens : List Token} (abreast : Token.Abreast stop 0 tokens)
    (labels_eq : tokens.map label = labels) (texts : ∀ l ∈ labels, hasText l = true) :
    Grounded g labels stop (initial tokens) := by
  refine ⟨placed_initial abreast, ?_, conforms_initial tokens, by simp [Config.Tight, initial],
    accounted_initial tokens⟩
  have all : labels.filter hasText = labels := List.filter_eq_self.2 texts
  simpa [output, initial, labels_eq] using all

/-- The same step in both parses. -/
inductive BesideStep (labels : List Label) : Step → Step → Prop
  | next {c c' : Config} (beside : Beside labels c c') : BesideStep labels (.next c) (.next c')
  | accepted {c c' : Config} (beside : Beside labels c c') :
      BesideStep labels (.accepted c) (.accepted c')
  | gaveUp {c c' : Config} (beside : Beside labels c c') : BesideStep labels (.gaveUp c) (.gaveUp c')

/-- While a token is pretended both parses do the same. -/
theorem insertStep_beside (texts : ∀ l ∈ labels, hasText l = true)
    (grounded : Grounded g labels stop c) (placed' : c'.Placed stop') (beside : Beside labels c c')
    {k : Kind} (inserting : c.inserting = some k) {y y' : Step} (h : s.insertStep c k = .ok y)
    (h' : s.insertStep c' k = .ok y') : BesideStep labels y y' := by
  unfold insertStep at h h'
  rw [beside.top_eq] at h'
  cases action : s.table.action c.top k with
  | reduce p =>
    rw [action] at h h'
    obtain ⟨d, reduced, rfl⟩ := map_next_eq h
    obtain ⟨d', reduced', rfl⟩ := map_next_eq h'
    exact .next (beside.reduce reduced reduced')
  | shift next =>
    rw [action] at h h'
    obtain rfl := Except.ok.inj h
    obtain rfl := Except.ok.inj h'
    exact .next (beside.pushMissing texts grounded placed' inserting next)
  | accept =>
    rw [action] at h h'
    obtain rfl := Except.ok.inj h
    obtain rfl := Except.ok.inj h'
    exact .next beside.endInsertion
  | error =>
    rw [action] at h h'
    obtain rfl := Except.ok.inj h
    obtain rfl := Except.ok.inj h'
    exact .next beside.endInsertion

/-- Both parses leave the next token out, or both end. -/
theorem leaveOut_beside (texts : ∀ l ∈ labels, hasText l = true) (plain : s.Plain g)
    (grounded : Grounded g labels stop c) (placed' : c'.Placed stop') (beside : Beside labels c c')
    (reading : c.inserting = none) (terminal : c.settle.lookahead.isTerminal = true)
    (action : s.table.action c.top c.settle.lookahead = .error)
    (repair : s.chooseRepair c.settle c.settle.lookahead = .skip ∨
      s.chooseRepair c.settle c.settle.lookahead = .wrap 0) {y y' : Step}
    (h : (if c.settle.lookahead = .eof then .ok (.gaveUp c.settle)
      else (s.skip c.settle).map .next) = .ok y)
    (h' : (if c.settle.lookahead = .eof then .ok (.gaveUp c')
      else (s.skip c').map .next) = .ok y') : BesideStep labels y y' := by
  by_cases atEnd : c.settle.lookahead = .eof
  · rw [if_pos atEnd] at h h'
    obtain rfl := Except.ok.inj h
    obtain rfl := Except.ok.inj h'
    exact .gaveUp beside.settle
  · rw [if_neg atEnd] at h h'
    obtain ⟨d, skipped, rfl⟩ := map_next_eq h
    obtain ⟨d', skipped', rfl⟩ := map_next_eq h'
    have after := (Move.skip reading terminal action repair atEnd skipped).grounded plain grounded
    exact .next (beside.settle.skip texts grounded.settle (fun _ _ => Beside.word_of_settle) placed'
      skipped skipped' after (placed_skip placed' skipped'))

/-- So they do where the table has no action for the next token. -/
theorem recover_beside (texts : ∀ l ∈ labels, hasText l = true) (plain : s.Plain g)
    (grounded : Grounded g labels stop c) (placed' : c'.Placed stop') (beside : Beside labels c c')
    (reading : c.inserting = none) (terminal : c.settle.lookahead.isTerminal = true)
    (action : s.table.action c.top c.settle.lookahead = .error) {y y' : Step}
    (h : s.recover c.settle c.settle.lookahead = .ok y)
    (h' : s.recover c' c.settle.lookahead = .ok y') : BesideStep labels y y' := by
  have settled := beside.settle
  unfold recover at h h'
  rw [beside.chooseRepair_eq, beside.asksForNode_eq] at h'
  cases repair : s.chooseRepair c.settle c.settle.lookahead with
  | insert k =>
    rw [repair] at h h'
    obtain rfl := Except.ok.inj h
    obtain rfl := Except.ok.inj h'
    refine .next { settled with inserting := rfl, word := ?_ }
    rintro l ⟨⟩
    obtain ⟨closer, _⟩ := Repair.insert_cases repair
    have words : ∀ k ∈ Repair.insertable, k.isTrivia = false := by decide
    exact words k closer
  | skip =>
    rw [repair] at h h'
    dsimp only at h h'
    split at h
    · cases h
    · rename_i known
      rw [if_neg known] at h'
      exact leaveOut_beside texts plain grounded placed' beside reading terminal action (.inl repair) h h'
  | wrap depth =>
    rw [repair] at h h'
    cases depth with
    | zero =>
      dsimp only at h h'
      split at h
      · cases h
      · rename_i known
        rw [if_neg known] at h'
        exact leaveOut_beside texts plain grounded placed' beside reading terminal action (.inr repair)
          h h'
    | succ depth =>
      dsimp only at h h'
      split at h
      · cases h
      · rename_i known
        rw [if_neg known] at h'
        obtain rfl := Except.ok.inj h
        obtain rfl := Except.ok.inj h'
        have after := (Move.wrap reading terminal action repair).grounded plain grounded
        exact .next (settled.wrap texts grounded.settle placed' _ _ after (placed_wrap placed' _ _))

theorem step_beside (texts : ∀ l ∈ labels, hasText l = true) (plain : s.Plain g)
    (grounded : Grounded g labels stop c) (placed' : c'.Placed stop') (beside : Beside labels c c')
    {y y' : Step} (h : s.step c = .ok y) (h' : s.step c' = .ok y') : BesideStep labels y y' := by
  unfold step at h h'
  rw [beside.inserting] at h'
  cases inserting : c.inserting with
  | some k =>
    rw [inserting] at h h'
    exact insertStep_beside texts grounded placed' beside inserting h h'
  | none =>
    rw [inserting] at h h'
    dsimp only at h h'
    rw [beside.settle_eq, beside.lookahead_eq, beside.top_eq] at h'
    split at h
    · cases h
    · rename_i known
      rw [if_neg known] at h'
      have terminal : c.settle.lookahead.isTerminal = true := by simpa using known
      rw [top_settle] at h
      have settled := beside.settle
      cases action : s.table.action c.top c.settle.lookahead with
      | shift next =>
        rw [action] at h h'
        obtain ⟨d, advanced, rfl⟩ := map_next_eq h
        obtain ⟨d', advanced', rfl⟩ := map_next_eq h'
        simp only [advance, plain.fresh] at advanced advanced'
        exact .next (settled.shift grounded.settle.conforms.pending
          (fun _ _ => Beside.word_of_settle) advanced advanced')
      | reduce p =>
        rw [action] at h h'
        obtain ⟨d, reduced, rfl⟩ := map_next_eq h
        obtain ⟨d', reduced', rfl⟩ := map_next_eq h'
        exact .next (settled.reduce reduced reduced')
      | accept =>
        rw [action] at h h'
        obtain rfl := Except.ok.inj h
        obtain rfl := Except.ok.inj h'
        exact .accepted settled
      | error =>
        rw [action] at h h'
        exact recover_beside texts plain grounded placed' beside inserting terminal action h h'

/-- Both parses end alike. -/
theorem run_beside (texts : ∀ l ∈ labels, hasText l = true) (plain : s.Plain g) {last last' : Config}
    (grounded : Grounded g labels stop c) (placed' : c'.Placed stop') (beside : Beside labels c c')
    {fuel fuel' : Nat} (ran : s.run fuel c = .ok last) (ran' : s.run fuel' c' = .ok last') :
    Beside labels last last' ∧ ∀ t ∈ last.pending, t.kind.isTrivia = true := by
  induction fuel generalizing c c' fuel' with
  | zero => cases ran
  | succ fuel ih =>
    cases fuel' with
    | zero => cases ran'
    | succ fuel' =>
      rw [run] at ran ran'
      cases stepped : s.step c with
      | error f => rw [stepped] at ran; cases ran
      | ok y =>
        cases stepped' : s.step c' with
        | error f => rw [stepped'] at ran'; cases ran'
        | ok y' =>
          rw [stepped] at ran
          rw [stepped'] at ran'
          have pending := grounded.settle.conforms.pending
          have both := step_beside texts plain grounded placed' beside stepped stepped'
          cases both with
          | next beside' =>
            rcases step_cases stepped with ⟨d, is, move⟩ | ⟨d, is, _⟩
            · obtain rfl := Step.next.inj is
              rcases step_cases stepped' with ⟨d', is', move'⟩ | ⟨d', is', _⟩
              · obtain rfl := Step.next.inj is'
                exact ih (move.grounded plain grounded) (move'.placed placed') beside' ran ran'
              · rcases is' with is' | is' <;> cases is'
            · rcases is with is | is <;> cases is
          | accepted beside' =>
            obtain rfl := Except.ok.inj ran
            obtain rfl := Except.ok.inj ran'
            rw [settle_of_last (.inl stepped)] at beside' ⊢
            exact ⟨beside', pending⟩
          | gaveUp beside' =>
            obtain rfl := Except.ok.inj ran
            obtain rfl := Except.ok.inj ran'
            rw [settle_of_last (.inr stepped)] at beside' ⊢
            exact ⟨beside', pending⟩

/-- Without its blanks the root is that of the other parse. -/
theorem root_beside (beside : Beside labels c c') (blank : ∀ t ∈ c.pending, t.kind.isTrivia = true) :
    (Setup.root c).bare.plain = (Setup.root c').plain := by
  have forests := (beside.flush blank).forest_eq
  rw [Setup.root, Tree.plain_bare_node]
  exact congrArg (Tree.node .sourceFile {}) forests.symm

end Setup

end ShaderTree
