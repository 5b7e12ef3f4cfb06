import ShaderTree.Fault
import ShaderTree.Language
import ShaderTree.Repair
import ShaderTree.Token
import ShaderTree.Tree.Basic

/-!
The state of a parse. Besides one entry for each grammar symbol the stack holds extra entries:
blanks, comments and text given up. They repeat the state below them, so the table never sees them,
and their text ends up in the tree where it stands.
-/
namespace ShaderTree

structure Options where
  /-- Tokens that may be pretended at one place before something else is tried. -/
  maxInsertions : Nat := 3
  /-- Tokens behind an unexpected one that may speak for skipping it. -/
  skipWindow : Nat := 3
  reuse : Bool := true
  deriving DecidableEq

inductive Role where
  | symbol
  /-- Blanks, comments, or text already wrapped. -/
  | extra
  /-- Tokens left out one after the other, not wrapped yet. -/
  | skipped
  deriving DecidableEq

structure Entry where
  state : Nat
  role : Role
  damaged : Bool
  offset : Nat
  children : List Tree

namespace Entry

def isSymbol (e : Entry) : Bool := e.role = .symbol

/-- What the entry adds to a node: skipped tokens get a node of their own. -/
def trees (e : Entry) : List Tree :=
  match e.role with
  | .skipped => [.node .error {} e.children]
  | _ => e.children

end Entry

structure Config where
  /-- Top first. -/
  stack : List Entry
  rest : List Token
  /-- Blanks and comments read while looking for the next token, not on the stack yet. -/
  pending : List Token
  /-- End of the text on the stack. -/
  cursor : Nat
  /-- Latest first. -/
  diagnostics : List Diagnostic
  /-- Tokens pretended since the last one was consumed. -/
  inserted : Nat
  lastSkip : Bool
  /-- The kind that is being pretended, while reductions make room for it. -/
  inserting : Option Kind

namespace Config

def initial (tokens : List Token) : Config :=
  { stack := [], rest := tokens, pending := [], cursor := 0, diagnostics := [], inserted := 0
    lastSkip := false, inserting := none }

def topState : List Entry → Nat
  | e :: _ => e.state
  | [] => 0

def top (c : Config) : Nat := topState c.stack

def states (c : Config) : List Nat := (c.stack.filter Entry.isSymbol).map (·.state) ++ [0]

/-- Sets the blanks and comments in front of the next token aside. -/
def settle (c : Config) : Config :=
  { c with
    pending := c.pending ++ c.rest.takeWhile (·.kind.isTrivia)
    rest := c.rest.dropWhile (·.kind.isTrivia) }

def lookahead (c : Config) : Kind :=
  match c.rest with
  | t :: _ => t.kind
  | [] => .eof

/-- Kinds of the tokens behind the next one, at most `window`; the end of input if fewer follow. -/
def upcoming (c : Config) (window : Nat) : List Kind :=
  let kinds := (((c.rest.drop 1).map (·.kind)).filter (!·.isTrivia)).take window
  if kinds.length < window then kinds ++ [.eof] else kinds

def leaf (t : Token) : Tree := .leaf t.kind t.text

def pushTrivia (c : Config) (t : Token) : Config :=
  { c with
    stack := ⟨c.top, .extra, false, t.start, [leaf t]⟩ :: c.stack
    cursor := t.stop }

def flush (c : Config) : Config := { c.pending.foldl pushTrivia c with pending := [] }

/-- Takes entries off the stack until `n` symbols are gone. The entries come bottom first. -/
def pop : Nat → List Entry → List Entry × List Entry
  | 0, stack => ([], stack)
  | _ + 1, [] => ([], [])
  | n + 1, e :: below =>
    let (popped, rest) := pop (if e.isSymbol then n else n + 1) below
    (popped ++ [e], rest)

/-- The innermost opening delimiter that is not closed, with the place of its token. -/
def openDelimiterIn (closed : Nat) : List Entry → Option (Enclosure × ByteRange)
  | [] => none
  | e :: below =>
    match e.children with
    | [.leaf k text] =>
      if !e.isSymbol then openDelimiterIn closed below
      else if k = .rParen ∨ k = .rBracket ∨ k = .rBrace then openDelimiterIn (closed + 1) below
      else match Enclosure.openedBy? k with
        | none => openDelimiterIn closed below
        | some enclosure =>
          if enclosure.closerCount ≤ closed then
            openDelimiterIn (closed - enclosure.closerCount) below
          else some (enclosure, ⟨e.offset, e.offset + text.utf8ByteSize⟩)
    | _ => openDelimiterIn closed below

def openDelimiter? (c : Config) : Option (Enclosure × ByteRange) := openDelimiterIn 0 c.stack

def enclosure (c : Config) : Enclosure := (c.openDelimiter?.map (·.1)).getD .topLevel

end Config

end ShaderTree
