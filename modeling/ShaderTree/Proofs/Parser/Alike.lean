import ShaderTree.Proofs.Parser.Records

/-! What a parse does hangs on what shows of its stack: the states, roles and places of its entries and
the shapes of their trees. The marks in the trees and whether a repair took part in an entry do not
matter, nor whether the blanks in front of the next token were set aside. -/
namespace ShaderTree

open ShaderTree.Tree (plainAll)

namespace Entry

/-- The entry without marks, as if no repair had taken part in it. -/
def plain (e : Entry) : Entry := { e with damaged := false, children := plainAll e.children }

@[simp] theorem plain_plain (e : Entry) : e.plain.plain = e.plain :=
  congrArg (Entry.mk e.state e.role false e.offset) (Tree.plainAll_plainAll e.children)

theorem plain_comp_plain : plain ∘ plain = plain := funext plain_plain

@[simp] theorem state_plain (e : Entry) : e.plain.state = e.state := rfl

@[simp] theorem isSymbol_plain (e : Entry) : e.plain.isSymbol = e.isSymbol := rfl

theorem trees_plain (e : Entry) : e.plain.trees = plainAll e.trees := by
  obtain ⟨state, role, damaged, offset, children⟩ := e
  cases role <;> rfl

theorem flatMap_trees_plain (entries : List Entry) :
    (entries.map plain).flatMap trees = plainAll (entries.flatMap trees) := by
  rw [List.flatMap_map, Tree.plainAll_flatMap]
  exact congrArg entries.flatMap (funext trees_plain)

end Entry

namespace Config

def plain (c : Config) : Config := { c with stack := c.stack.map Entry.plain }

/-- What the next step hangs on. -/
def shown (c : Config) : Config := c.settle.plain

variable {c c' : Config}

theorem plain_mk (stack : List Entry) (rest pending : List Token) (cursor : Nat)
    (diagnostics : List Diagnostic) (inserted : Nat) (lastSkip : Bool) (inserting : Option Kind) :
    plain ⟨stack, rest, pending, cursor, diagnostics, inserted, lastSkip, inserting⟩ =
      ⟨stack.map Entry.plain, rest, pending, cursor, diagnostics, inserted, lastSkip, inserting⟩ := rfl

@[simp] theorem stack_plain (c : Config) : c.plain.stack = c.stack.map Entry.plain := rfl

@[simp] theorem rest_plain (c : Config) : c.plain.rest = c.rest := rfl

@[simp] theorem pending_plain (c : Config) : c.plain.pending = c.pending := rfl

@[simp] theorem cursor_plain (c : Config) : c.plain.cursor = c.cursor := rfl

@[simp] theorem diagnostics_plain (c : Config) : c.plain.diagnostics = c.diagnostics := rfl

@[simp] theorem inserted_plain (c : Config) : c.plain.inserted = c.inserted := rfl

@[simp] theorem lastSkip_plain (c : Config) : c.plain.lastSkip = c.lastSkip := rfl

@[simp] theorem inserting_plain (c : Config) : c.plain.inserting = c.inserting := rfl

@[simp] theorem plain_plain (c : Config) : c.plain.plain = c.plain := by
  rw [plain, plain_mk, List.map_map, Entry.plain_comp_plain]

theorem topState_plain (stack : List Entry) : topState (stack.map Entry.plain) = topState stack := by
  cases stack <;> rfl

@[simp] theorem top_plain (c : Config) : c.plain.top = c.top := topState_plain c.stack

@[simp] theorem states_plain (c : Config) : c.plain.states = c.states := by
  simp [states, List.filter_map, Function.comp_def]

@[simp] theorem settle_plain (c : Config) : c.plain.settle = c.settle.plain := rfl

@[simp] theorem lookahead_plain (c : Config) : c.plain.lookahead = c.lookahead := rfl

theorem extras_plain (state : Nat) (tokens : List Token) :
    (extras state tokens).map Entry.plain = extras state tokens := by
  rw [extras, List.map_reverse, List.map_map]
  rfl

theorem flush_plain (c : Config) : c.plain.flush = c.flush.plain := by
  rw [flush_eq, flush_eq, top_plain, plain, plain, List.map_append, extras_plain]

theorem pop_plain (n : Nat) (stack : List Entry) : pop n (stack.map Entry.plain) =
    ((pop n stack).1.map Entry.plain, (pop n stack).2.map Entry.plain) := by
  fun_induction pop n stack with
  | case1 stack => cases stack <;> rfl
  | case2 => rfl
  | case3 n e below popped rest eq ih =>
    rw [eq] at ih
    rw [List.map_cons, pop, Entry.isSymbol_plain, ih, List.map_append, List.map_singleton]

theorem openDelimiterIn_plain (closed : Nat) (stack : List Entry) :
    openDelimiterIn closed (stack.map Entry.plain) = openDelimiterIn closed stack := by
  induction stack generalizing closed with
  | nil => rfl
  | cons e below ih =>
    obtain ⟨state, role, damaged, offset, children⟩ := e
    match children with
    | [] => exact ih closed
    | [.leaf k text] =>
      simp only [List.map_cons, Entry.plain, plainAll, Tree.plain, openDelimiterIn, Entry.isSymbol, ih]
    | [.node k m cs] => exact ih closed
    | t :: u :: ts => cases t <;> exact ih closed

@[simp] theorem openDelimiter_plain (c : Config) : c.plain.openDelimiter? = c.openDelimiter? :=
  openDelimiterIn_plain 0 c.stack

/-- The enclosure hangs on what shows of the stack. -/
theorem enclosure_congr (same : c.stack.map Entry.plain = c'.stack.map Entry.plain) :
    c.enclosure = c'.enclosure := by
  rw [enclosure, enclosure, openDelimiter?, openDelimiter?, ← openDelimiterIn_plain 0 c.stack, same,
    openDelimiterIn_plain]

end Config

/-- What shows of a step. -/
def Step.map (f : Config → Config) : Step → Step
  | .next c => .next (f c)
  | .accepted c => .accepted (f c)
  | .gaveUp c => .gaveUp (f c)

def Step.plain : Step → Step := Step.map Config.plain

namespace Setup

open Config

variable {s : Setup} {c c' : Config}

/-- What a reduction puts on the stack shows the same. -/
theorem plainAll_made_plain (r : Reduction) (popped : List Entry) (state : Nat) (k : Kind) :
    plainAll (made r (popped.map Entry.plain) state k) = plainAll (made r popped state k) := by
  rw [made, made, Entry.flatMap_trees_plain]
  cases r.node? with
  | none => exact Tree.plainAll_plainAll _
  | some l => simp only [plainAll, Tree.plain, Tree.plainAll_plainAll]

theorem startOf_plain (c : Config) (popped trailing : List Entry) :
    startOf c.plain (popped.map Entry.plain) (trailing.map Entry.plain) = startOf c popped trailing := by
  unfold startOf
  rw [List.head?_map, List.getLast?_map]
  cases popped.head? <;> cases trailing.getLast? <;> rfl

theorem reduced_plain (c : Config) (r : Reduction) (next : Nat) (k : Kind) :
    (reduced c.plain r next k).plain = (reduced c r next k).plain := by
  have symbols : (fun e => !e.isSymbol) ∘ Entry.plain = fun e : Entry => !e.isSymbol := rfl
  unfold reduced
  simp only [stack_plain, List.takeWhile_map, List.dropWhile_map, symbols, pop_plain]
  rcases Config.pop r.length (c.stack.dropWhile (!·.isSymbol)) with ⟨popped, below⟩
  have front : Entry.plain ∘ (fun e => { e with state := next }) ∘ Entry.plain =
      Entry.plain ∘ fun e => { e with state := next } :=
    funext fun e => congrArg (Entry.mk next e.role false e.offset) (Tree.plainAll_plainAll e.children)
  have lower : (below.map Entry.plain).map Entry.plain = below.map Entry.plain := by
    rw [List.map_map, Entry.plain_comp_plain]
  simp only [startOf_plain, topState_plain, plain_mk, rest_plain, pending_plain, cursor_plain,
    diagnostics_plain, inserted_plain, lastSkip_plain, inserting_plain, List.map_append, List.map_map,
    List.map_cons, front, lower, Entry.plain, plainAll_made_plain]

theorem reduce_plain (s : Setup) (c : Config) (p : Nat) (k : Kind) :
    (s.reduce c.plain p k).map plain = (s.reduce c p k).map plain := by
  have symbols : (fun e => !e.isSymbol) ∘ Entry.plain = fun e : Entry => !e.isSymbol := rfl
  rw [reduce_eq, reduce_eq]
  cases s.table.reductions[p]? with
  | none => rfl
  | some r =>
    simp only [stack_plain, List.dropWhile_map, symbols, pop_plain, topState_plain]
    cases s.table.goto? (topState (Config.pop r.length (c.stack.dropWhile (!·.isSymbol))).2) r.lhs with
    | none => rfl
    | some next => exact congrArg Except.ok (reduced_plain c r next k)

theorem shift_plain (c : Config) (next : Nat) :
    (Setup.shift c.plain next).map plain = (Setup.shift c next).map plain := by
  unfold Setup.shift
  simp only [flush_plain, rest_plain]
  cases rest : c.flush.rest with
  | nil => rfl
  | cons u rest => simp [plain_mk, pure, Except.pure, Except.map, Entry.plain_comp_plain]

theorem missingDiagnostic_plain (c : Config) (k : Kind) :
    missingDiagnostic c.plain k = missingDiagnostic c k := by
  unfold missingDiagnostic
  rw [openDelimiter_plain]
  rfl

theorem pushMissing_plain (c : Config) (k : Kind) (next : Nat) :
    (endInsertion (pushMissing c.plain k next)).plain = (endInsertion (pushMissing c k next)).plain := by
  simp [plain_mk, pushMissing, endInsertion, missingDiagnostic_plain, Entry.plain_comp_plain]

/-- A step shows what the next state shows. -/
theorem map_next_plain (x : Except Fault Config) :
    (x.map Step.next).map Step.plain = (x.map plain).map Step.next := by cases x <;> rfl

theorem insertStep_plain (s : Setup) (c : Config) (k : Kind) :
    (s.insertStep c.plain k).map Step.plain = (s.insertStep c k).map Step.plain := by
  unfold insertStep
  rw [top_plain]
  cases s.table.action c.top k with
  | reduce p =>
    dsimp only
    rw [map_next_plain, map_next_plain, reduce_plain]
  | shift next => exact congrArg (Except.ok ∘ Step.next) (pushMissing_plain c k next)
  | accept => exact congrArg (Except.ok ∘ Step.next) (plain_plain (endInsertion c))
  | error => exact congrArg (Except.ok ∘ Step.next) (plain_plain (endInsertion c))

theorem pushSkipped_plain (c : Config) (u : Token) :
    (pushSkipped c.plain u).1.plain = (pushSkipped c u).1.plain ∧
      (pushSkipped c.plain u).2 = (pushSkipped c u).2 := by
  have pushed : ({ c.plain.flush with
      stack := ⟨c.plain.flush.top, .skipped, true, u.start, [leaf u]⟩ :: c.plain.flush.stack } :
        Config).plain = ({ c.flush with
      stack := ⟨c.flush.top, .skipped, true, u.start, [leaf u]⟩ :: c.flush.stack } : Config).plain := by
    rw [flush_plain, top_plain]
    simp [plain_mk, Entry.plain_comp_plain]
  obtain ⟨stack, rest, pending, cursor, diagnostics, inserted, lastSkip, inserting⟩ := c
  cases lastSkip with
  | false => exact ⟨pushed, rfl⟩
  | true =>
    cases stack with
    | nil => exact ⟨pushed, rfl⟩
    | cons e below =>
      obtain ⟨state, role, damaged, offset, children⟩ := e
      cases role with
      | symbol => exact ⟨pushed, rfl⟩
      | extra => exact ⟨pushed, rfl⟩
      | skipped =>
        refine ⟨?_, rfl⟩
        simp [pushSkipped, plain_mk, Entry.plain, Entry.plain_comp_plain]

theorem reportSkipped_plain (same : c.stack.map Entry.plain = c'.stack.map Entry.plain)
    (reports : c.diagnostics = c'.diagnostics) (u : Token) (widen : Bool) (hint : Option String) :
    reportSkipped c u widen hint = reportSkipped c' u widen hint := by
  unfold reportSkipped
  rw [enclosure_congr same, reports]

theorem skip_plain (s : Setup) (c : Config) : (s.skip c.plain).map plain = (s.skip c).map plain := by
  unfold skip
  rw [rest_plain, top_plain]
  cases c.rest with
  | nil => rfl
  | cons u rest =>
    obtain ⟨same, widen⟩ := pushSkipped_plain c u
    dsimp only
    rw [widen]
    rw [reportSkipped_plain (congrArg stack same :) (congrArg diagnostics same :)]
    refine congrArg Except.ok ?_
    obtain ⟨stack, _, pending, _, _, _, _, inserting⟩ := Config.mk.inj same
    simp only [plain_mk, stack, pending, inserting]

/-- The state with some entries from a place on given up. -/
def wrapped (c : Config) (start : Nat) (popped below : List Entry) (k : Kind) : Config :=
  let stack :=
    ⟨topState below, .extra, true, start, [.node .error {} (popped.flatMap Entry.trees)]⟩ :: below
  let d : Diagnostic :=
    { code := .unexpectedInput
      message := "unexpected input before " ++ k.describe
      range := ⟨start, c.cursor⟩
      enclosure := { c with stack, lastSkip := false }.enclosure }
  { c with stack, lastSkip := false, diagnostics := d :: c.diagnostics }

theorem wrapped_plain (c : Config) (start : Nat) (popped below : List Entry) (k : Kind) :
    (wrapped c.plain start (popped.map Entry.plain) (below.map Entry.plain) k).plain =
      (wrapped c start popped below k).plain := by
  have stack : (Entry.mk (topState below) .extra true start
      [.node .error {} (plainAll (popped.flatMap Entry.trees))] :: below.map Entry.plain).map Entry.plain =
        (Entry.mk (topState below) .extra true start
          [.node .error {} (popped.flatMap Entry.trees)] :: below).map Entry.plain := by
    simp [Entry.plain, plainAll, Tree.plain, Entry.plain_comp_plain]
  have enclosure {upper upper' : List Entry} (same : upper.map Entry.plain = upper'.map Entry.plain) :
      { c.plain with stack := upper, lastSkip := false }.enclosure =
        { c with stack := upper', lastSkip := false }.enclosure := enclosure_congr same
  unfold wrapped
  simp only [topState_plain, Entry.flatMap_trees_plain]
  rw [enclosure stack]
  simp only [plain_mk, stack, rest_plain, pending_plain, cursor_plain, diagnostics_plain,
    inserted_plain, inserting_plain]

theorem wrap_plain (c : Config) (depth : Nat) (k : Kind) :
    (wrap c.plain depth k).plain = (wrap c depth k).plain := by
  unfold wrap
  simp only [stack_plain, pop_plain]
  rcases Config.pop depth c.stack with ⟨popped, below⟩
  cases popped <;> exact wrapped_plain c _ _ below k

theorem recover_plain (s : Setup) (c : Config) (k : Kind) :
    (s.recover c.plain k).map Step.plain = (s.recover c k).map Step.plain := by
  have choice : s.chooseRepair c.plain k = s.chooseRepair c k := by
    unfold chooseRepair
    rw [states_plain]
    rfl
  have asks : s.asksForNode c.plain k = s.asksForNode c k := by
    unfold asksForNode
    rw [states_plain]
    rfl
  unfold recover
  rw [choice, asks]
  split
  · exact congrArg (Except.ok ∘ Step.next) (plain_plain { c with inserting := some _ })
  · split
    · rfl
    · split
      · exact congrArg (Except.ok ∘ Step.next) (wrap_plain c _ k)
      · split
        · exact congrArg (Except.ok ∘ Step.gaveUp) (plain_plain c)
        · rw [map_next_plain, map_next_plain, skip_plain]

theorem step_plain (fresh : s.reuse = none) (c : Config) :
    (s.step c.plain).map Step.plain = (s.step c).map Step.plain := by
  unfold step
  rw [inserting_plain]
  cases c.inserting with
  | some k => exact insertStep_plain s c k
  | none =>
    simp only [settle_plain, lookahead_plain, top_plain]
    split
    · rfl
    · cases s.table.action c.settle.top c.settle.lookahead with
      | shift next =>
        dsimp only
        rw [map_next_plain, map_next_plain]
        unfold advance
        rw [fresh]
        exact congrArg _ (shift_plain _ _)
      | reduce p =>
        dsimp only
        rw [map_next_plain, map_next_plain, reduce_plain]
      | accept => exact congrArg (Except.ok ∘ Step.accepted) (plain_plain _)
      | error => exact recover_plain s _ _

theorem reduce_settle (s : Setup) (c : Config) (p : Nat) (k : Kind) :
    s.reduce c.settle p k = (s.reduce c p k).map settle := by
  rw [reduce_eq, reduce_eq]
  cases s.table.reductions[p]? with
  | none => rfl
  | some r =>
    simp only [stack_settle]
    cases s.table.goto? (topState (Config.pop r.length (c.stack.dropWhile (!·.isSymbol))).2) r.lhs <;> rfl

theorem step_settle (s : Setup) (c : Config) :
    (s.step c.settle).map (Step.map settle) = (s.step c).map (Step.map settle) := by
  have same : c.settle.inserting = c.inserting := rfl
  cases inserting : c.inserting with
  | none => simp only [step, same, inserting, settle_settle]
  | some k =>
    simp only [step, same, inserting]
    unfold insertStep
    rw [top_settle]
    cases s.table.action c.top k with
    | reduce p =>
      dsimp only
      rw [reduce_settle]
      cases s.reduce c p k with
      | error => rfl
      | ok c' => exact congrArg (Except.ok ∘ Step.next) (settle_settle c')
    | shift next =>
      exact congrArg (Except.ok ∘ Step.next) (settle_settle (endInsertion (pushMissing c k next)))
    | accept => exact congrArg (Except.ok ∘ Step.next) (settle_settle (endInsertion c))
    | error => exact congrArg (Except.ok ∘ Step.next) (settle_settle (endInsertion c))

/-- Without old nodes, states that show the same make the same step. -/
theorem step_shown (fresh : s.reuse = none) (same : c.shown = c'.shown) :
    (s.step c).map (Step.map shown) = (s.step c').map (Step.map shown) := by
  have through (x : Except Fault Step) : x.map (Step.map shown) =
      (x.map (Step.map settle)).map Step.plain := by rcases x with f | (c | c | c) <;> rfl
  have back (x : Except Fault Step) : (x.map (Step.map settle)).map Step.plain =
      (x.map Step.plain).map (Step.map settle) := by rcases x with f | (c | c | c) <;> rfl
  rw [through, through, ← step_settle s c, ← step_settle s c', back, back, ← step_plain fresh c.settle,
    ← step_plain fresh c'.settle]
  exact congrArg (fun d => ((s.step d).map Step.plain).map (Step.map settle)) same

end Setup

end ShaderTree
