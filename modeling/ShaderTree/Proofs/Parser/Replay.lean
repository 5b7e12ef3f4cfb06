import ShaderTree.Proofs.Parser.Headway
import ShaderTree.Proofs.Parser.Keeping
import ShaderTree.Proofs.Parser.Placed

/-! Taking an old node over stands for the steps that make it. A parser without old nodes comes from the
same place, by shifts and reductions alone, to the place behind the node, with a node of the same shape
on top. -/
namespace ShaderTree

open Relation (ReflTransGen)
open Token (Label label)

/-- The symbol that was put on last is on top. -/
theorem Table.Builds.exists_top {t : Table} {base : Nat} {k : Kind} {ls : List Label}
    {cells : List Cell} (builds : t.Builds base k ls cells) (some : ls ≠ []) :
    ∃ cell below, cells = cell :: below ∧ cell.isSymbol = true := by
  cases builds with
  | nil => exact absurd rfl some
  | shift => exact ⟨_, _, rfl, rfl⟩
  | reduce => exact ⟨_, _, rfl, rfl⟩

namespace Setup

open Config

variable {s : Setup} {c c' : Config} {k : Kind} {next : Nat} {taken later : List Token}
  {entries lower : List Entry}

/-- A place further on, with some entries put on the blanks in front of the next token and some tokens
not read yet. -/
def Ahead (c : Config) (entries : List Entry) (later : List Token) (c' : Config) : Prop :=
  c'.settle = { c.settle with
    stack := entries ++ c.settle.flush.stack
    pending := later.takeWhile (·.kind.isTrivia)
    rest := later.dropWhile (·.kind.isTrivia)
    cursor := c'.cursor
    inserted := 0
    lastSkip := false }

namespace Ahead

variable (ahead : Ahead c entries later c')

include ahead

theorem stack : c'.stack = entries ++ c.settle.flush.stack := congrArg Config.stack ahead

theorem inserting : c'.inserting = c.inserting := (congrArg Config.inserting ahead :)

theorem rest : c'.settle.rest = later.dropWhile (·.kind.isTrivia) := congrArg Config.rest ahead

theorem pending : c'.settle.pending = later.takeWhile (·.kind.isTrivia) :=
  congrArg Config.pending ahead

theorem lookahead : c'.settle.lookahead = Reuse.followKind later := by
  rw [← lookahead_settle { c' with rest := later }, Config.lookahead, Config.lookahead, ahead.rest]
  rfl

theorem top : c'.top = Cell.top c.top (entries.map Entry.cell) := by
  have below : topState c.settle.flush.stack = c.top := top_flush c.settle
  rw [Config.top, ahead.stack, ← top_cells, below]

end Ahead

theorem goesOn_of_action (acts : s.table.action c.top c.settle.lookahead ≠ .error)
    (step : s.step c = .ok (.next c')) : s.GoesOn c c' :=
  ⟨fun recovers => acts recovers.2, step⟩

/-- Without old nodes the next token is shifted. -/
theorem goesOn_shift (plain : s.reuse = none) (reading : c.inserting = none) {u : Token}
    (lexical : u.kind.IsLexical) (front : c.settle.rest = u :: later)
    (action : s.table.action c.top u.kind = .shift next) :
    ∃ c' e, s.GoesOn c c' ∧ e.cell = ⟨next, true, [.leaf u.kind u.text]⟩ ∧ Ahead c [e] later c' := by
  have ahead : c.settle.lookahead = u.kind := by rw [lookahead, front]
  have terminal := lexical.isTerminal
  have inside := lexical.ne_eof
  rw [← ahead] at action terminal inside
  obtain ⟨c', shifted⟩ := exists_shift inside next
  have advanced : s.advance c.settle next = .ok c' := by
    unfold advance
    rw [plain]
    exact shifted
  have step := step_shift reading terminal action advanced
  obtain ⟨u', rest, front', rfl⟩ := shift_ok shifted
  obtain ⟨rfl, rfl⟩ := List.cons.inj (front'.symm.trans front)
  refine ⟨_, ⟨next, .symbol, false, u'.start, [leaf u']⟩, goesOn_of_action (by simp [action]) step,
    rfl, ?_⟩
  unfold Ahead
  simp only [settle, flush_eq]
  rfl

/-- A reduction takes entries off as it takes off their cells. -/
theorem goesOn_reduce (reading : c.inserting = none) (terminal : c.settle.lookahead.isTerminal = true)
    {e : Entry} (stack : c.stack = e :: (entries ++ lower)) (role : e.isSymbol = true) {p : Nat}
    {r : Reduction} {popped below : List Cell}
    (action : s.table.action c.top c.settle.lookahead = .reduce p)
    (known : s.table.reductions[p]? = some r)
    (pops : Cell.pop r.length ((e :: entries).map Entry.cell) = some (popped, below))
    (goto : s.table.goto? (Cell.top (topState lower) below) r.lhs = some next) :
    ∃ c' made, s.GoesOn c c' ∧ c'.settle = { c.settle with stack := made ++ lower } ∧
      made.map Entry.cell = ⟨next, true, r.trees (popped.flatMap (·.trees))⟩ :: below := by
  obtain ⟨out, left, popping, _, rfl, rfl⟩ := pop_cells lower rfl pops
  rw [top_cells] at goto
  rw [List.cons_append] at popping
  have whole : c.settle.stack.dropWhile (!·.isSymbol) = e :: (entries ++ lower) := by
    rw [stack_settle, stack, List.dropWhile_cons_of_neg (by simp [role])]
  have none : c.settle.stack.takeWhile (!·.isSymbol) = [] := by
    rw [stack_settle, stack, List.takeWhile_cons_of_neg (by simp [role])]
  obtain ⟨c', reduced⟩ : ∃ c', s.reduce c.settle p c.settle.lookahead = .ok c' := by
    unfold reduce
    simp only [known, whole, popping, goto]
    exact ⟨_, rfl⟩
  have step := step_reduce reading terminal action reduced
  obtain ⟨r', trailing, popped, below, next', known', rfl, popping', goto', rfl⟩ := reduce_ok reduced
  obtain rfl := Option.some.inj (known'.symm.trans known)
  rw [whole, popping] at popping'
  obtain ⟨rfl, rfl⟩ := Prod.mk.inj popping'
  obtain rfl := Option.some.inj (goto'.symm.trans goto)
  rw [none] at step
  refine ⟨_, ⟨_, .symbol, _, _, made r' out (topState (left ++ lower)) c.settle.lookahead⟩ :: left,
    goesOn_of_action (by simp [action]) step, settle_eq_of_rest rfl, ?_⟩
  rw [List.map_cons, ← plainAll_made]
  rfl

theorem followKind_of_gap {gap : List Token} {u : Token} (between : ∀ v ∈ gap, v.kind.isTrivia = true)
    (text : u.kind.isTrivia = false) : Reuse.followKind (gap ++ u :: later) = u.kind := by
  have none : gap.find? (!·.kind.isTrivia) = none :=
    List.find?_eq_none.2 fun v member => by simp [between v member]
  rw [Reuse.followKind, List.find?_append, none, Option.none_or,
    List.find?_cons_of_pos (by simp [text])]

/-- Behind some blanks the next token is shifted. -/
theorem Ahead.shift (plain : s.reuse = none) (reading : c.inserting = none) {u : Token} {gap : List Token}
    (lexical : u.kind.IsLexical) (between : ∀ v ∈ gap, v.kind.isTrivia = true)
    (text : u.kind.isTrivia = false) (ahead : Ahead c entries (gap ++ u :: later) c')
    (action : s.table.action (Cell.top c.top (entries.map Entry.cell)) u.kind = .shift next) :
    ∃ c'' e, s.GoesOn c' c'' ∧ e.cell = ⟨next, true, [.leaf u.kind u.text]⟩ ∧
      Ahead c (e :: (extras c'.top gap ++ entries)) later c'' := by
  have front : c'.settle.rest = u :: later := by
    rw [ahead.rest, List.dropWhile_append_of_pos between, List.dropWhile_cons_of_neg (by simp [text])]
  have aside : c'.settle.pending = gap := by
    rw [ahead.pending, List.takeWhile_append_of_pos between,
      List.takeWhile_cons_of_neg (by simp [text]), List.append_nil]
  rw [← ahead.top] at action
  obtain ⟨c'', e, goes, cell, further⟩ :=
    goesOn_shift plain (ahead.inserting.trans reading) lexical front action
  refine ⟨c'', e, goes, cell, ?_⟩
  rw [Ahead, further, stack_flush, aside, top_settle, stack_settle, ahead.stack, ahead,
    List.singleton_append, List.cons_append, List.append_assoc]

/-- In front of the next token a reduction is made. -/
theorem Ahead.reduce (reading : c.inserting = none) {e : Entry} (ahead : Ahead c (e :: entries) later c')
    (terminal : c'.settle.lookahead.isTerminal = true) (role : e.isSymbol = true) {p : Nat} {r : Reduction}
    {popped below : List Cell}
    (action : s.table.action (Cell.top c.top ((e :: entries).map Entry.cell)) (Reuse.followKind later) =
      .reduce p)
    (known : s.table.reductions[p]? = some r)
    (pops : Cell.pop r.length ((e :: entries).map Entry.cell) = some (popped, below))
    (goto : s.table.goto? (Cell.top c.top below) r.lhs = some next) :
    ∃ c'' made, s.GoesOn c' c'' ∧
      made.map Entry.cell = ⟨next, true, r.trees (popped.flatMap (·.trees))⟩ :: below ∧
        Ahead c made later c'' := by
  have lowest : topState c.settle.flush.stack = c.top := top_flush c.settle
  rw [← ahead.top, ← ahead.lookahead] at action
  rw [← lowest] at goto
  obtain ⟨c'', made, goes, settled, cells⟩ :=
    goesOn_reduce (ahead.inserting.trans reading) terminal ahead.stack role action known pops goto
  have cursor : c''.cursor = c'.cursor := (congrArg Config.cursor settled :)
  exact ⟨c'', made, goes, cells, by rw [Ahead, settled, ahead, cursor]⟩

/-- In front of the next token there are no blanks. -/
theorem eq_nil_of_front {gap : List Token} (front : c.settle.rest = gap ++ later)
    (between : ∀ v ∈ gap, v.kind.isTrivia = true) : gap = [] := by
  cases gap with
  | nil => rfl
  | cons v gap =>
    have text := isTrivia_lookahead_settle c
    rw [lookahead, front] at text
    exact absurd (text.symm.trans (between v List.mem_cons_self)) (by simp)

/-- What a table builds from the tokens ahead, a parser without old nodes builds from them. -/
theorem exists_ahead (plain : s.reuse = none) (reading : c.inserting = none)
    (lexical : ∀ u ∈ c.rest, u.kind.IsLexical)
    (action : s.table.action c.top c.settle.lookahead = .shift next) {base : Nat} {follow : Kind}
    {ls : List Label} {cells : List Cell} (builds : s.table.Builds base follow ls cells)
    (top : c.top = base) (split : c.settle.rest = taken ++ later) (labels : taken.map label = ls)
    (behind : Reuse.followKind later = follow) :
    (ls = [] ∧ cells = []) ∨ ls ≠ [] ∧ ∃ c' entries, ReflTransGen s.GoesOn c c' ∧
      entries.map Entry.cell = cells ∧ Ahead c entries later c' := by
  have lexical' : ∀ u ∈ c.settle.rest, u.kind.IsLexical :=
    fun u member => lexical u ((rest_suffix_settle c).subset member)
  subst top
  induction builds generalizing taken later with
  | nil => exact .inl ⟨rfl, rfl⟩
  | @shift follow l front blanks cells target before text between shifts ih =>
    obtain ⟨both, _, rfl, parts, one⟩ := List.map_eq_append_iff.1 labels
    obtain ⟨first, gap, rfl, firstIs, rfl⟩ := List.map_eq_append_iff.1 parts
    obtain ⟨u, rfl, rfl⟩ := List.map_eq_singleton_iff.1 one
    have blank : ∀ v ∈ gap, v.kind.isTrivia = true :=
      fun v member => between _ (List.mem_map_of_mem member)
    have start : c.settle.rest = first ++ (gap ++ u :: later) := by simpa using split
    have isLexical : u.kind.IsLexical := lexical' u (by simp [start])
    refine .inr ⟨by simp, ?_⟩
    rcases ih start firstIs (followKind_of_gap blank text) with
      ⟨rfl, rfl⟩ | ⟨_, c1, entries, steps, rfl, ahead⟩
    · obtain rfl := List.map_eq_nil_iff.1 firstIs
      rw [List.nil_append] at start
      obtain rfl := eq_nil_of_front start blank
      obtain ⟨c', e, goes, cell, ahead⟩ := goesOn_shift plain reading isLexical start shifts
      exact ⟨c', [e], .single goes, by rw [List.map_singleton, cell]; rfl, ahead⟩
    · obtain ⟨c', e, goes, cell, further⟩ := ahead.shift plain reading isLexical blank text shifts
      refine ⟨c', e :: (extras c1.top gap ++ entries), steps.tail goes, ?_, further⟩
      rw [List.map_cons, List.map_append, cell_extras, cell, ahead.top]
      rfl
  | @reduce follow ls cells popped below p target r before reduces known pops goto ih =>
    rcases ih split labels behind with ⟨rfl, rfl⟩ | ⟨some, c1, entries, steps, rfl, ahead⟩
    · obtain rfl := List.map_eq_nil_iff.1 labels
      have next := lookahead_settle c.settle
      rw [settle_settle, split, List.nil_append, behind] at next
      rw [next] at action
      cases action.symm.trans reduces
    · obtain ⟨_, _, is, role⟩ := before.exists_top some
      obtain ⟨e, entries, rfl, rfl, rfl⟩ := List.map_eq_cons_iff.1 is
      have terminal : c1.settle.lookahead.isTerminal = true := by
        refine Readable.isTerminal_lookahead (s := s) ⟨fun u member => lexical' u ?_, ?_⟩
        · rw [split]
          rw [ahead.rest] at member
          exact List.mem_append_right _ (List.dropWhile_subset _ member)
        · exact fun r is => by cases plain.symm.trans is
      rw [← behind] at reduces
      obtain ⟨c', made, goes, cells, further⟩ :=
        ahead.reduce reading terminal role reduces known pops goto
      exact .inr ⟨some, c', made, steps.tail goes, cells, further⟩

/-- What a parser without old nodes makes of the text of one: by steps that are no repairs it comes to
the same states, tokens, cursor, insertions and reports, with one node of the same shape on top. -/
structure Replays (s : Setup) (c : Config) (found : Reusable) (c' : Config) : Prop where
  steps : ReflTransGen (Setup.GoesOn { s with reuse := none }) c c'
  states : c'.states = (takeOver c.settle found).states
  frame : c'.settle = { (takeOver c.settle found).settle with stack := c'.stack }
  node : ∃ e n, c'.stack = e :: c.settle.flush.stack ∧ e.role = .symbol ∧ e.children = [n] ∧
    n.plain = found.node.plain

theorem placed_of_steps {stop : Nat} (placed : c.Placed stop) (steps : ReflTransGen s.GoesOn c c') :
    c'.Placed stop := by
  induction steps with
  | refl => exact placed
  | tail _ goes ih =>
    rcases step_cases goes.2 with ⟨_, is, move⟩ | ⟨_, is | is, _⟩
    · obtain rfl := Step.next.inj is
      exact move.placed ih
    · cases is
    · cases is

theorem advance_of_finds {r : Reuse} {found : Reusable} (reuse : s.reuse = some r)
    (finds : r.find? (s.gotoKind c.top) c.top c.rest = .ok (some found)) (next : Nat) :
    s.advance c next = .ok (takeOver c found) := by
  unfold advance
  rw [reuse]
  dsimp only
  rw [finds]
  rfl

/-- The entry of one tree. -/
theorem exists_child {e : Entry} {u : Tree} (cell : e.cell = ⟨next, true, [u.plain]⟩) :
    e.role = .symbol ∧ e.state = next ∧ ∃ n, e.children = [n] ∧ n.plain = u.plain := by
  obtain ⟨rfl, isSymbol, trees⟩ := Cell.mk.inj cell
  have role : e.role = .symbol := of_decide_eq_true isSymbol
  have own : e.trees = e.children := by
    unfold Entry.trees
    rw [role]
  rw [own] at trees
  refine ⟨role, rfl, ?_⟩
  cases children : e.children with
  | nil => rw [children] at trees; cases trees
  | cons n others =>
    rw [children] at trees
    obtain ⟨same, none⟩ := List.cons.inj trees
    cases others with
    | nil => exact ⟨n, rfl, same⟩
    | cons m others => cases none

/-- A node whose record can be trusted is made again. -/
theorem exists_replays {stop : Nat} {r : Reuse} {found : Reusable}
    (old : ∀ n ∈ r.nodes, n.2.AllRemembered s.table ∧ n.2.leaves ≠ []) (placed : c.Placed stop)
    (lexical : ∀ u ∈ c.rest, u.kind.IsLexical) (reading : c.inserting = none)
    (action : s.table.action c.top c.settle.lookahead = .shift next)
    (finds : r.find? (s.gotoKind c.top) c.top c.settle.rest = .ok (some found)) :
    ∃ c', s.Replays c found c' := by
  obtain ⟨record, fits⟩ := Reuse.find?_some finds
  have builds := builds_of_fits (c := c.settle) (fun n inside => (old n inside).1) fits
  obtain ⟨start, known⟩ := fits.known
  rcases exists_ahead (s := { s with reuse := none }) rfl reading lexical action builds rfl
      (List.take_append_drop found.count c.settle.rest).symm fits.leaves fits.follow with
    ⟨none, _⟩ | ⟨_, c', entries, steps, cells, ahead⟩
  · exact absurd none (old _ known).2
  · obtain ⟨e, rfl, cell⟩ := List.map_eq_singleton_iff.1 cells
    obtain ⟨role, state, n, children, same⟩ := exists_child cell
    have stack : c'.stack = e :: c.settle.flush.stack := ahead.stack
    have cursor : c'.cursor = (takeOver c.settle found).cursor := by
      have here := (placed_of_steps placed steps).settle.tokens.stop_eq
      have there := (placed_takeOver placed.settle fits).settle.tokens.stop_eq
      rw [ahead.pending, ahead.rest] at here
      simp only [settle, takeOver, flush_eq] at here there ⊢
      exact Nat.add_right_cancel (here.symm.trans there)
    refine ⟨c', steps, ?_, ?_, e, n, stack, role, children, same⟩
    · change statesOf c'.stack = statesOf (_ :: c.settle.flush.stack)
      rw [stack, statesOf_symbol (by simp [Entry.isSymbol, role]), statesOf_symbol rfl, state]
    · rw [ahead, cursor, stack]
      simp only [settle, takeOver, flush_eq]
      rfl

/-- Where the steps up to the next repair lead, if there are less than so many. -/
def upToRepair? (s : Setup) : Nat → Config → Option (List Config)
  | 0, _ => none
  | n + 1, c =>
    if c.inserting = none ∧ s.table.action c.top c.settle.lookahead = .error then some [c]
    else match s.step c with
      | .ok (.next c') => (upToRepair? s n c').map (c :: ·)
      | _ => some [c]

theorem mem_upToRepair? {n : Nat} {places : List Config} (h : s.upToRepair? n c = some places)
    (steps : ReflTransGen s.GoesOn c c') : c' ∈ places := by
  induction n generalizing c places with
  | zero => cases h
  | succ n ih =>
    unfold upToRepair? at h
    split at h
    · rename_i recovers
      obtain rfl := Option.some.inj h
      rcases steps.cases_head with rfl | ⟨_, ⟨goes, _⟩, _⟩
      · exact List.mem_cons_self
      · exact absurd recovers goes
    · split at h
      · rename_i next step
        obtain ⟨others, more, rfl⟩ := Option.map_eq_some_iff.1 h
        rcases steps.cases_head with rfl | ⟨_, ⟨_, step'⟩, steps⟩
        · exact List.mem_cons_self
        · obtain rfl := Step.next.inj (Except.ok.inj (step.symm.trans step'))
          exact List.mem_cons_of_mem _ (ih more steps)
      · rename_i final
        obtain rfl := Option.some.inj h
        rcases steps.cases_head with rfl | ⟨next, ⟨_, step⟩, _⟩
        · exact List.mem_cons_self
        · exact absurd step (final next)

/-- Up to the next repair no step leads to the states that a node taken over leads to. -/
def missesNode (s : Setup) (n : Nat) (c : Config) (found : Reusable) : Bool :=
  (upToRepair? { s with reuse := none } n c).any fun places =>
    places.all fun c' => c'.states ≠ (takeOver c.settle found).states

theorem not_replays_of_missesNode {n : Nat} {found : Reusable} (misses : s.missesNode n c found = true) :
    ¬ ∃ c', s.Replays c found c' := by
  rintro ⟨c', replays⟩
  obtain ⟨places, known, apart⟩ := (Option.any_eq_true _ _).1 misses
  have other := List.all_eq_true.1 apart c' (mem_upToRepair? known replays.steps)
  exact of_decide_eq_true other replays.states

end Setup

namespace Parser

open Setup

/-- In a reparse of a changed text the parser takes a node of the old tree over. -/
inductive TakesOver (p : Parser) (text : String) (old : Document) : Setup → Config → Reusable → Prop
  | intro {newText : String} {changes : List Change} {edits : List Edit} {map : EditMap}
      {tokens : List Token} {c : Config} {next : Nat} {found : Reusable}
      (changed : Change.applyAll text changes = .ok (edits, newText))
      (mapped : editMap? old edits newText = .ok (some map))
      (relexed : Relex.tokens old map newText = .ok tokens)
      (reached : (p.setup (some (.ofDocument old map))).Reached tokens c)
      (reading : c.inserting = none)
      (action : p.language.table.action c.top c.settle.lookahead = .shift next)
      (finds : (Reuse.ofDocument old map).find? ((p.setup (some (.ofDocument old map))).gotoKind c.top)
        c.top c.settle.rest = .ok (some found)) :
      TakesOver p text old (p.setup (some (.ofDocument old map))) c found

/-- What a parser takes over after some steps of a reparse, if it does. -/
def takenOver? (p : Parser) (text : String) (old : Document) (changes : List Change) (steps : Nat) :
    Option (Setup × Config × Reusable) := do
  let (edits, newText) ← (Change.applyAll text changes).toOption
  let map ← (← (editMap? old edits newText).toOption)
  let tokens ← (Relex.tokens old map newText).toOption
  let s := p.setup (some (.ofDocument old map))
  let c ← s.after? steps (.initial tokens)
  guard (c.inserting = none)
  let .shift _ := p.language.table.action c.top c.settle.lookahead | none
  let .ok (some found) := (Reuse.ofDocument old map).find? (s.gotoKind c.top) c.top c.settle.rest | none
  return (s, c, found)

variable {p : Parser} {text : String} {old : Document} {s : Setup} {c : Config}
  {found : Reusable}

theorem eq_ok_of_toOption {ε α : Type} {x : Except ε α} {a : α} (h : x.toOption = some a) :
    x = .ok a := by
  cases x with
  | error e => cases h
  | ok b => rw [Option.some.inj h]

theorem takesOver_of_takenOver? {changes : List Change} {steps : Nat}
    (h : p.takenOver? text old changes steps = some (s, c, found)) : p.TakesOver text old s c found := by
  simp only [takenOver?, Option.bind_eq_bind, Option.bind_eq_some_iff, Option.pure_def,
    Option.guard_eq_some'] at h
  obtain ⟨⟨edits, newText⟩, changed, _, mapped, map, rfl, tokens, relexed, c', reached, _, reading,
    rest⟩ := h
  split at rest
  · rename_i next action
    split at rest
    · rename_i finds
      cases rest
      exact .intro (eq_ok_of_toOption changed) (eq_ok_of_toOption mapped) (eq_ok_of_toOption relexed)
        (steps_of_after? reached) reading action finds
    · cases rest
  · cases rest

/-- Where an old node is taken over, a parser without old nodes makes it again, by shifts and reductions
alone. Each kind of node has to belong to one nonterminal, and the records have to be sound: because the
table is steady, or because nothing was reported on the way to the old tree. -/
theorem takeOver_replays (named : p.language.table.Named)
    (trusts : p.language.table.Steady ∧
        Parsed (Language.Speaks p.language.identity p.language.table) text old ∨
      ParsedQuietly (Language.Speaks p.language.identity p.language.table) text old)
    (own : old.table = p.language.identity) (takes : p.TakesOver text old s c found) :
    s.step c = .ok (.next (takeOver c.settle found)) ∧ ∃ c', s.Replays c found c' := by
  have parsed : Parsed (Language.Speaks p.language.identity p.language.table) text old :=
    trusts.elim And.right ParsedQuietly.parsed
  have remembered : old.root.AllRemembered p.language.table := by
    rcases trusts with ⟨steady, parsed⟩ | parsed
    · exact parsed.allRemembered named steady own
    · exact parsed.allRemembered named own
  obtain ⟨changed, mapped, relexed, reached, reading, action, finds⟩ := takes
  have tokens := tokens_of_editMap? (parsed.mono fun _ => And.left).isTokenized changed mapped
  obtain rfl := Except.ok.inj (relexed.symm.trans tokens)
  have lexical (u : Token) (member : u ∈ c.rest) : u.kind.IsLexical :=
    Token.isLexical_of_mem_readAll ((moves_rest_suffix reached.moves).subset member)
  have placed := moves_placed (Config.placed_initial (Token.abreast_readAll _)) reached.moves
  refine ⟨?_, exists_replays (Reuse.remembered_ofDocument _ remembered) placed lexical reading action
    finds⟩
  have terminal : c.settle.lookahead.isTerminal = true :=
    Readable.isTerminal_lookahead (s := p.setup) ⟨fun u member =>
      lexical u ((rest_suffix_settle c).subset member), fun _ is => by cases is⟩
  exact step_shift reading terminal action (advance_of_finds rfl finds _)

end Parser

/-- Names in nodes, each with a semicolon behind it. -/
def Grammar.nodedNames : Grammar :=
  { nonterminals := #[.hidden "list", .node .name]
    levels := #[]
    productions := #[⟨0, [], none⟩, ⟨0, [.nonterminal 0, .nonterminal 1, .terminal .semicolon], none⟩,
      ⟨1, [.terminal .ident], none⟩]
    start := 0 }

/-- The old text lacks a semicolon. -/
theorem Parser.takeOver_replays_nodedNames : ∃ (p : Parser) (old : Document) (s : Setup) (c : Config)
    (found : Reusable), Table.build .nodedNames = .ok p.language.table ∧
      p.language.table.Named ∧ p.language.table.Steady ∧ p.parse "a;b" = .ok old ∧
      old.diagnostics ≠ [] ∧ p.TakesOver "a;b" old s c found ∧
      s.step c = .ok (.next (Setup.takeOver c.settle found)) ∧ ∃ c', s.Replays c found c' := by
  obtain ⟨t, built, named, lands, taken⟩ := Table.exists_built (g := .nodedNames)
    (P := fun t => t.Named ∧ t.landsSteadily = true ∧
      ((Parser.mk ⟨"noded names", t, 0⟩ {}).parse "a;b").toOption.any (fun old =>
        !old.diagnostics.isEmpty && ((Parser.mk ⟨"noded names", t, 0⟩ {}).takenOver? "a;b" old
          [⟨3, 3, " "⟩] 1).isSome) = true) (by decide +kernel)
  obtain ⟨old, parsed, holds⟩ := (Option.any_eq_true _ _).1 taken
  obtain ⟨reported, taken⟩ := Bool.and_eq_true_iff.1 holds
  obtain ⟨⟨s, c, found⟩, taken⟩ := Option.isSome_iff_exists.1 taken
  have parsed := eq_ok_of_toOption parsed
  have takes := takesOver_of_takenOver? taken
  have steady : t.Steady := Table.steady_of_landsSteadily lands
  have speaks : Language.Speaks 0 t ⟨"noded names", t, 0⟩ := ⟨⟨_, built⟩, fun _ => rfl⟩
  exact ⟨⟨⟨"noded names", t, 0⟩, {}⟩, old, s, c, found, built, named, steady, parsed,
    by simpa using reported, takes, takeOver_replays named (.inl ⟨steady, .parse speaks parsed⟩)
      (table_of_runOn parsed) takes⟩

/-- In some reparse of a language of the grammar a node of the text's tree is taken over that a parser
without old nodes does not make. -/
def Grammar.TakesAmiss (g : Grammar) (text : String) : Prop :=
  ∃ (p : Parser) (old : Document) (s : Setup) (c : Config) (found : Reusable),
    Table.build g = .ok p.language.table ∧ p.parse text = .ok old ∧ p.TakesOver text old s c found ∧
      ¬ ∃ c', s.Replays c found c'

theorem Grammar.takesAmiss_of_evaluates {g : Grammar} {text : String} (changes : List Change) (n m : Nat)
    (evaluates : ((Table.build g).toOption.any fun t => ((Parser.mk ⟨"", t, 0⟩ {}).parse text).toOption.any
      fun old => ((Parser.mk ⟨"", t, 0⟩ {}).takenOver? text old changes n).any
        fun (s, c, found) => s.missesNode m c found) = true) : g.TakesAmiss text := by
  obtain ⟨t, built, parses⟩ := (Option.any_eq_true _ _).1 evaluates
  obtain ⟨old, parsed, takes⟩ := (Option.any_eq_true _ _).1 parses
  obtain ⟨⟨s, c, found⟩, taken, misses⟩ := (Option.any_eq_true _ _).1 takes
  exact ⟨⟨⟨"", t, 0⟩, {}⟩, old, s, c, found, Parser.eq_ok_of_toOption built,
    Parser.eq_ok_of_toOption parsed, Parser.takesOver_of_takenOver? taken,
    Setup.not_replays_of_missesNode misses⟩

/-- Two sorts of names that become the same kind of node, each with its own token behind it. -/
def Grammar.sharedKind : Grammar :=
  { nonterminals := #[.hidden "program", .node .name, .node .name]
    levels := #[]
    productions := #[⟨0, [.nonterminal 1, .terminal .semicolon], none⟩,
      ⟨0, [.nonterminal 2, .terminal .plus], none⟩, ⟨1, [.terminal .ident], none⟩,
      ⟨2, [.terminal .intNumber], none⟩]
    start := 0 }

/-- Names behind brackets. The states behind a name are the same behind a parenthesis and a brace, those
behind what becomes a name are the same behind a parenthesis and a bracket. -/
def Grammar.mergedLooks : Grammar :=
  { nonterminals := #[.hidden "program", .node .name, .hidden "atom", .hidden "term", .hidden "mixed"]
    levels := #[]
    productions := #[⟨0, [.terminal .lParen, .nonterminal 1, .terminal .plus], none⟩,
      ⟨0, [.terminal .lParen, .nonterminal 4], none⟩,
      ⟨0, [.terminal .lBracket, .nonterminal 1, .terminal .colon], none⟩,
      ⟨0, [.terminal .lBrace, .nonterminal 3], none⟩, ⟨0, [.terminal .lBrace, .nonterminal 4], none⟩,
      ⟨3, [.nonterminal 2, .terminal .comma], none⟩, ⟨4, [.terminal .ident, .terminal .star], none⟩,
      ⟨1, [.nonterminal 2], none⟩, ⟨2, [.terminal .ident], none⟩]
    start := 0 }

/-- A node is pushed as another nonterminal of its kind; and a node is taken over in front of a colon
that it was closed on only because a comma before it was left out. -/
theorem Grammar.takesAmiss :
    sharedKind.TakesAmiss "a;" ∧ mergedLooks.TakesAmiss "(x , : +" :=
  ⟨takesAmiss_of_evaluates [⟨2, 2, " "⟩] 0 9 (by decide +kernel),
    takesAmiss_of_evaluates [⟨3, 5, ""⟩] 1 9 (by decide +kernel)⟩

end ShaderTree
