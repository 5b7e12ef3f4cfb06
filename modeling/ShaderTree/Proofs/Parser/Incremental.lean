import ShaderTree.Proofs.Parser.Alike
import ShaderTree.Proofs.Parser.Replay

/-! Reparses are parses. A parser with nodes of an old tree comes to what one without them comes to, as
far as it shows: either both make the same step, or an old node stands for the steps that make it again.
So both come to the same end, if the records in the old tree can be trusted. -/
namespace ShaderTree

open Relation (ReflTransGen)

namespace Setup

open Config

variable {s : Setup} {c c' : Config} {tokens : List Token}

/-- A step is one that a parser without old nodes makes, or it takes an old node over. -/
theorem step_fresh_or_takeOver {y : Step} (h : s.step c = .ok y) :
    { s with reuse := none }.step c = .ok y ∨ ∃ r next found, s.reuse = some r ∧ c.inserting = none ∧
      s.table.action c.top c.settle.lookahead = .shift next ∧
        r.find? (s.gotoKind c.top) c.top c.settle.rest = .ok (some found) ∧
          y = .next (takeOver c.settle found) := by
  unfold step at h ⊢
  split at h
  · exact .inl h
  · rename_i reading
    dsimp only at h ⊢
    split at h
    · cases h
    · rename_i terminal
      rw [if_neg terminal]
      split at h
      · rename_i next action
        obtain ⟨c', advanced, rfl⟩ := map_next_eq h
        rcases advance_cases advanced with shifted | ⟨r, found, reuse, finds, rfl⟩
        · refine .inl ?_
          unfold advance
          rw [shifted]
          rfl
        · exact .inr ⟨r, next, found, reuse, reading, action, finds, rfl⟩
      · exact .inl h
      · exact .inl h
      · exact .inl h

/-- States that show the same go on to states that show the same. -/
theorem exists_step_of_shown (fresh : s.reuse = none) (same : c.shown = c'.shown) {d : Config}
    (step : s.step c = .ok (.next d)) : ∃ d', s.step c' = .ok (.next d') ∧ d.shown = d'.shown := by
  have both := step_shown fresh same
  rw [step] at both
  rcases step' : s.step c' with f | (d' | d' | d') <;> rw [step'] at both
  · cases both
  · exact ⟨d', rfl, Step.next.inj (Except.ok.inj both)⟩
  · cases both
  · cases both

theorem Replays.shown {stop : Nat} {found : Reusable} (placed : c.Placed stop)
    (placed' : (takeOver c.settle found).Placed stop)
    (replays : s.Replays c found c') : c'.shown = (takeOver c.settle found).shown := by
  obtain ⟨steps, states, frame, e, n, stack, role, children, same⟩ := replays
  have offset : e.offset = c.settle.flush.cursor := by
    have here := (placed_of_steps placed steps).offsets
    rw [stack] at here
    exact here.1.trans placed'.offsets.1.symm
  have state : e.state = found.next := by
    change statesOf c'.stack = statesOf (_ :: c.settle.flush.stack) at states
    rw [stack, statesOf_symbol (by simp [Entry.isSymbol, role]), statesOf_symbol rfl] at states
    exact (List.cons.inj states).1
  have plain : e.plain = (Entry.mk found.next .symbol false c.settle.flush.cursor [found.node]).plain := by
    rw [Entry.plain, role, offset, state, children, Entry.plain, Tree.plainAll, Tree.plainAll, same]
    rfl
  rw [Config.shown, frame, stack]
  unfold Config.shown
  unfold Config.plain
  simp only [List.map_cons, plain]
  rfl

/-- What a parser with old nodes comes to, one without them comes to as well, as far as it shows. -/
theorem Reached.exists_shown {stop : Nat}
    (old : ∀ r, s.reuse = some r → ∀ n ∈ r.nodes, n.2.AllRemembered s.table ∧ n.2.leaves ≠ [])
    (lexical : ∀ u ∈ tokens, u.kind.IsLexical) (abreast : Token.Abreast stop 0 tokens)
    (reached : s.Reached tokens c) :
    ∃ c', { s with reuse := none }.Reached tokens c' ∧ c.shown = c'.shown := by
  unfold Reached at reached
  induction reached with
  | refl => exact ⟨_, .refl, rfl⟩
  | @tail before after reached step ih =>
    obtain ⟨c', reached', same⟩ := ih
    rcases step_fresh_or_takeOver step with fresh | ⟨r, next, found, reuse, reading, action, finds, is⟩
    · obtain ⟨d, step', same'⟩ := exists_step_of_shown rfl same fresh
      exact ⟨d, reached'.tail step', same'⟩
    · obtain rfl := Step.next.inj is
      have moves := Reached.moves reached
      have placed := moves_placed (placed_initial abreast) moves
      have lexical' (u : Token) (member : u ∈ before.rest) : u.kind.IsLexical :=
        lexical u ((moves_rest_suffix moves).subset member)
      obtain ⟨d, replays⟩ := exists_replays (old r reuse) placed lexical' reading action finds
      obtain ⟨record, fits⟩ := Reuse.find?_some finds
      rw [← replays.shown placed (placed_takeOver placed.settle fits)]
      have steps := replays.steps
      clear replays
      induction steps with
      | refl => exact ⟨c', reached', same⟩
      | tail _ goes ih =>
        obtain ⟨d', there, alike⟩ := ih
        obtain ⟨d'', step', alike'⟩ := exists_step_of_shown rfl alike goes.2
        exact ⟨d'', there.tail step', alike'⟩

/-- What shows of a state at the end is its tree and its reports. -/
theorem root_of_shown (same : c.shown = c'.shown) :
    (root c.settle).plain = (root c'.settle).plain ∧ report c.settle = report c'.settle := by
  have flushed : c.settle.flush.plain = c'.settle.flush.plain := by
    rw [← flush_plain, ← flush_plain]
    exact congrArg flush same
  have trees (d : Config) : Tree.plainAll (d.stack.reverse.flatMap Entry.trees) =
      d.plain.stack.reverse.flatMap Entry.trees := by
    rw [stack_plain, ← List.map_reverse, Entry.flatMap_trees_plain]
  refine ⟨?_, ?_⟩
  · rw [root, root, Tree.plain, Tree.plain, trees, trees, flushed]
  · rw [report, report]
    exact congrArg (fun ds : List Diagnostic => ds.reverse.mergeSort _)
      (congrArg Config.diagnostics same :)

/-- Old nodes change neither the tree, up to marks, nor the reports. -/
theorem root_of_run {stop fuel fuel' : Nat} {last last' : Config}
    (old : ∀ r, s.reuse = some r → ∀ n ∈ r.nodes, n.2.AllRemembered s.table ∧ n.2.leaves ≠ [])
    (lexical : ∀ u ∈ tokens, u.kind.IsLexical) (abreast : Token.Abreast stop 0 tokens)
    (ran : s.run fuel (.initial tokens) = .ok last)
    (ran' : { s with reuse := none }.run fuel' (.initial tokens) = .ok last') :
    (root last).plain = (root last').plain ∧ report last = report last' := by
  obtain ⟨c, reached, stepped⟩ := exists_last .refl ran
  obtain rfl := settle_of_last stepped
  obtain ⟨c', reached', same⟩ := reached.exists_shown old lexical abreast
  have ends : { s with reuse := none }.step c' = .ok (.accepted c'.settle) ∨
      { s with reuse := none }.step c' = .ok (.gaveUp c'.settle) := by
    have both := step_shown (s := { s with reuse := none }) rfl same
    have stays {y : Step} (step : s.step c = .ok y) (final : ∀ d, y ≠ .next d) :
        { s with reuse := none }.step c = .ok y := by
      rcases step_fresh_or_takeOver step with fresh | ⟨_, _, _, _, _, _, _, is⟩
      · exact fresh
      · exact absurd is (final _)
    rcases stepped with stepped | stepped <;> rw [stays stepped (by simp)] at both
    · rcases step' : { s with reuse := none }.step c' with f | (d | d | d) <;> rw [step'] at both
      · cases both
      · cases both
      · exact .inl (settle_of_last (.inl step') ▸ step')
      · cases both
    · rcases step' : { s with reuse := none }.step c' with f | (d | d | d) <;> rw [step'] at both
      · cases both
      · cases both
      · cases both
      · exact .inr (settle_of_last (.inr step') ▸ step')
  have once : { s with reuse := none }.run 1 c' = .ok c'.settle := by
    rw [run]
    rcases ends with ends | ends <;> rw [ends]
  obtain ⟨more, again⟩ := exists_run_of_reached reached' once
  have most := run_of_le (Nat.le_max_left more fuel') again
  rw [run_of_le (Nat.le_max_right more fuel') ran'] at most
  obtain rfl := Except.ok.inj most
  exact root_of_shown same

end Setup

namespace Parser

variable {p : Parser} {text newText : String} {old : Document} {changes : List Change}
  {edits : List Edit}

/-- A reparse and a parse that return give the same, up to marks. -/
theorem alike_of_runOn {tokens : List Token} {reuse : Option Reuse} {d d' : Document}
    (old : ∀ r, reuse = some r → ∀ n ∈ r.nodes,
      n.2.AllRemembered p.language.table ∧ n.2.leaves ≠ [])
    {stop : Nat} (lexical : ∀ u ∈ tokens, u.kind.IsLexical) (abreast : Token.Abreast stop 0 tokens)
    (parsed : p.runOn text tokens reuse = .ok d) (parsed' : p.runOn text tokens none = .ok d') :
    d.text = d'.text ∧ d.root.plain = d'.root.plain ∧ d.diagnostics = d'.diagnostics := by
  unfold runOn at parsed parsed'
  dsimp only at parsed parsed'
  cases ran : (p.setup reuse).run ((p.setup reuse).stepBound tokens.length) (.initial tokens) with
  | error f => rw [ran] at parsed; cases parsed
  | ok last =>
    cases ran' : p.setup.run (p.setup.stepBound tokens.length) (.initial tokens) with
    | error f => rw [ran'] at parsed'; cases parsed'
    | ok last' =>
      rw [ran] at parsed
      rw [ran'] at parsed'
      obtain rfl := Except.ok.inj parsed
      obtain rfl := Except.ok.inj parsed'
      exact ⟨rfl, Setup.root_of_run (s := p.setup reuse) old lexical abreast ran ran'⟩

/-- The map of changes is the one that a reparse uses. -/
theorem editMap?_of_changes {map : EditMap} (same : old.text = text)
    (changed : Change.applyAll text changes = .ok (edits, newText))
    (mapped : EditMap.ofEdits? edits text.utf8ByteSize = .ok (some map)) :
    editMap? old edits newText = .ok (some map) := by
  rw [editMap?, same, lengthAfter_changes changed, mapped]
  simp only [bind, Except.bind, pure, Except.pure, if_true]

/-- With the nodes of an old tree of its own table a reparse runs over the tokens of the new text. -/
theorem reparse_eq_runOn {map : EditMap} (reuse : p.options.reuse = true)
    (own : old.table = p.language.identity) (tokenized : old.text = text ∧ Relex.IsTokenized old)
    (changed : Change.applyAll text changes = .ok (edits, newText))
    (mapped : EditMap.ofEdits? edits text.utf8ByteSize = .ok (some map)) :
    p.reparse old edits newText =
      p.runOn newText (Token.readAll newText) (some (.ofDocument old map)) := by
  have found := editMap?_of_changes tokenized.1 changed mapped
  unfold reparse
  rw [if_neg (by simp [reuse, own]), found]
  simp only [bind, Except.bind, tokens_of_editMap? tokenized changed found]

/-- A reparse is a parse of the new text, or a run over its tokens with the nodes of the old tree. -/
theorem reparse_eq (tokenized : old.text = text ∧ Relex.IsTokenized old)
    (changed : Change.applyAll text changes = .ok (edits, newText)) :
    p.reparse old edits newText = p.parse newText ∨
      ∃ map, EditMap.ofEdits? edits text.utf8ByteSize = .ok (some map) ∧ old.table = p.language.identity ∧
        p.reparse old edits newText =
          p.runOn newText (Token.readAll newText) (some (.ofDocument old map)) := by
  unfold reparse
  split
  · exact .inl rfl
  · rename_i used
    obtain ⟨map, found, _⟩ := EditMap.ofEdits?_changes changed
    have both : p.options.reuse = true ∧ old.table = p.language.identity := by simpa using used
    have mapped := editMap?_of_changes tokenized.1 changed found
    refine .inr ⟨map, found, both.2, ?_⟩
    simp only [mapped, bind, Except.bind, tokens_of_editMap? tokenized changed mapped]

end Parser

end ShaderTree
