import ShaderTree.Parser.Config
import ShaderTree.Parser.Reuse

/-!
One action of the parser: a shift, a reduction, the taking over of an old node, or a repair. The
machine is a function from states to states; running it is `Parser.Run`.
-/
namespace ShaderTree

structure Setup where
  table : Table
  options : Options
  reuse : Option Reuse := none

inductive Step where
  | next (c : Config)
  | accepted (c : Config)
  /-- No repair is left at the end of input. -/
  | gaveUp (c : Config)

namespace Setup

/-- State behind a node of a kind that is put on the state `top`. -/
def gotoKind (s : Setup) (top : Nat) (k : Kind) : Option Nat :=
  (s.table.nonterminalOf? k).bind (s.table.goto? top)

/-- A reduction. Extra entries on top go behind the node that is made, not into it. A node with
text and without repairs records the state below it and the lookahead. -/
def reduce (s : Setup) (c : Config) (production : Nat) (lookahead : Kind) :
    Except Fault Config := do
  let some r := s.table.reductions[production]? | throw .noGoto
  let trailing := c.stack.takeWhile (!·.isSymbol)
  let (popped, below) := Config.pop r.length (c.stack.dropWhile (!·.isSymbol))
  let state := Config.topState below
  let some next := s.table.goto? state r.lhs | throw .noGoto
  let damaged := popped.any (·.damaged)
  let children := popped.flatMap Entry.trees
  let start := match popped.head?, trailing.getLast? with
    | some e, _ => e.offset
    | none, some e => e.offset
    | none, none => c.cursor
  let made := match r.node? with
    | none => children
    | some k =>
      let record := if damaged || Tree.sizeAll children = 0 then none else some ⟨state, lookahead⟩
      [Tree.node k { record } children]
  return { c with
    stack := trailing.map (fun e => { e with state := next })
      ++ ⟨next, .symbol, damaged, start, made⟩ :: below }

def shift (c : Config) (next : Nat) : Except Fault Config := do
  let c := c.flush
  match c.rest with
  | [] => throw .noToken
  | t :: rest => return { c with
      stack := ⟨next, .symbol, false, t.start, [Config.leaf t]⟩ :: c.stack
      rest := rest
      cursor := t.stop
      inserted := 0
      lastSkip := false }

def takeOver (c : Config) (found : Reusable) : Config :=
  let c := c.flush
  { c with
    stack := ⟨found.next, .symbol, false, c.cursor, [found.node]⟩ :: c.stack
    rest := c.rest.drop found.count
    cursor := c.cursor + found.node.size
    inserted := 0
    lastSkip := false }

/-- A shift, or an old node in its place. -/
def advance (s : Setup) (c : Config) (next : Nat) : Except Fault Config := do
  let found ← match s.reuse with
    | none => pure none
    | some r => r.find? (s.gotoKind c.top) c.top c.rest
  match found with
  | some found => return takeOver c found
  | none => shift c next

def missingDiagnostic (c : Config) (k : Kind) : Diagnostic :=
  let base : Diagnostic :=
    { code := .missingToken
      message := "missing " ++ k.describe
      range := .empty c.cursor
      hint := some ("insert " ++ k.describe) }
  match c.openDelimiter? with
  | none => base
  | some (enclosure, opener) =>
    { base with
      enclosure := enclosure
      related := if enclosure.closer? = some k then
          [⟨enclosure.description ++ " opened here", opener⟩]
        else [] }

def pushMissing (c : Config) (k : Kind) (next : Nat) : Config :=
  { c with
    stack := ⟨next, .symbol, true, c.cursor, [.node .missing {} [.leaf k ""]]⟩ :: c.stack
    diagnostics := missingDiagnostic c k :: c.diagnostics }

def endInsertion (c : Config) : Config :=
  { c with inserted := c.inserted + 1, lastSkip := false, inserting := none }

def expectedHint (t : Table) (state : Nat) : Option String :=
  match (t.expected state).map Kind.describe with
  | [] => none
  | [only] => some ("expected " ++ only)
  | many =>
    if many.length ≤ 6 then some ("expected one of " ++ ", ".intercalate many) else none

/-- Puts a token that is left out on the stack, behind those left out just before it if there are
any. Also says whether there were. -/
def pushSkipped (c : Config) (t : Token) : Config × Bool :=
  match c.lastSkip, c.stack with
  | true, ⟨state, .skipped, damaged, offset, children⟩ :: below =>
    let children := children ++ c.pending.map Config.leaf ++ [Config.leaf t]
    ({ c with stack := ⟨state, .skipped, damaged, offset, children⟩ :: below, pending := [] }, true)
  | _, _ =>
    let c := c.flush
    ({ c with stack := ⟨c.top, .skipped, true, t.start, [Config.leaf t]⟩ :: c.stack }, false)

/-- Adds the diagnostic of a token left out. An error token keeps its own; any other widens the
diagnostic of the token left out before it. -/
def reportSkipped (c : Config) (t : Token) (widen : Bool) (hint : Option String) :
    List Diagnostic :=
  match t.diagnostic?, c.diagnostics with
  | some d, ds => { d with enclosure := c.enclosure } :: ds
  | none, ds =>
    let fresh : Diagnostic :=
      { code := .unexpectedToken
        message := "unexpected `" ++ t.text ++ "`"
        range := t.range
        enclosure := c.enclosure
        hint := hint }
    match ds with
    | last :: older =>
      if widen && last.code = .unexpectedToken then
        { last with range := last.range.cover t.range } :: older
      else fresh :: ds
    | [] => [fresh]

def skip (s : Setup) (c : Config) : Except Fault Config :=
  match c.rest with
  | [] => .error .noToken
  | t :: rest =>
    let hint := expectedHint s.table c.top
    let (c, widen) := pushSkipped c t
    .ok { c with
      rest := rest
      cursor := t.stop
      diagnostics := reportSkipped c t widen hint
      lastSkip := true
      inserted := 0 }

def wrap (c : Config) (depth : Nat) (lookahead : Kind) : Config :=
  let (popped, below) := Config.pop depth c.stack
  let start := match popped with
    | e :: _ => e.offset
    | [] => c.cursor
  let wrapped := Tree.node .error {} (popped.flatMap Entry.trees)
  let c := { c with
    stack := ⟨Config.topState below, .extra, true, start, [wrapped]⟩ :: below
    lastSkip := false }
  let d : Diagnostic :=
    { code := .unexpectedInput
      message := "unexpected input before " ++ lookahead.describe
      range := ⟨start, c.cursor⟩
      enclosure := c.enclosure }
  { c with diagnostics := d :: c.diagnostics }

def chooseRepair (s : Setup) (c : Config) (lookahead : Kind) : Repair :=
  Repair.choose s.table c.states lookahead (c.upcoming s.options.skipWindow)
    (c.inserted < s.options.maxInsertions)

/-- Whether the search for a token that speaks for skipping comes upon the kind of a tree node,
which no table has a column for. -/
def asksForNode (s : Setup) (c : Config) (lookahead : Kind) : Bool :=
  lookahead ≠ .eof && lookahead ≠ .error &&
    match (c.upcoming s.options.skipWindow).find? fun k =>
      !k.isTerminal || s.table.accepts c.states k with
    | some k => !k.isTerminal
    | none => false

def recover (s : Setup) (c : Config) (lookahead : Kind) : Except Fault Step :=
  match s.chooseRepair c lookahead with
  | .insert k => .ok (.next { c with inserting := some k })
  | repair =>
    if s.asksForNode c lookahead then .error .notTerminal
    else match repair with
    | .wrap (d + 1) => .ok (.next (wrap c (d + 1) lookahead))
    | _ => if lookahead = .eof then .ok (.gaveUp c) else (s.skip c).map .next

def insertStep (s : Setup) (c : Config) (k : Kind) : Except Fault Step :=
  match s.table.action c.top k with
  | .reduce p => (s.reduce c p k).map .next
  | .shift next => .ok (.next (endInsertion (pushMissing c k next)))
  | .accept | .error => .ok (.next (endInsertion c))

def step (s : Setup) (c : Config) : Except Fault Step :=
  match c.inserting with
  | some k => s.insertStep c k
  | none =>
    let c := c.settle
    let lookahead := c.lookahead
    if !lookahead.isTerminal then .error .notTerminal
    else match s.table.action c.top lookahead with
      | .shift next => (s.advance c next).map .next
      | .reduce p => (s.reduce c p lookahead).map .next
      | .accept => .ok (.accepted c)
      | .error => s.recover c lookahead

end Setup

end ShaderTree
