import ShaderTree.Parser.Step

/-!
A whole parse: steps until the table accepts or no repair is left, then everything on the stack
becomes the root. The bound on the number of steps is computed from the input and is no part of the
answer.
-/
namespace ShaderTree

namespace Setup

def run (s : Setup) : Nat → Config → Except Fault Config
  | 0, _ => .error .outOfFuel
  | fuel + 1, c =>
    match s.step c with
    | .error f => .error f
    | .ok (.next c) => run s fuel c
    | .ok (.accepted c) => .ok c
    | .ok (.gaveUp c) => .ok c

/-- More steps than a parse of this many tokens takes if it ends: at each token some repairs, and
between two of them one chain of reductions. -/
def stepBound (s : Setup) (tokens : Nat) : Nat :=
  let events := (tokens + 1) * (s.options.maxInsertions + 2) * (s.table.stateCount + 2)
  events * s.table.reductionBound events

def root (c : Config) : Tree := .node .sourceFile {} (c.flush.stack.reverse.flatMap Entry.trees)

/-- The diagnostics in the order of their places, those of one place in the order of the parse. -/
def report (c : Config) : List Diagnostic :=
  c.diagnostics.reverse.mergeSort fun a b => a.range.start ≤ b.range.start

end Setup

structure Parser where
  language : Language
  options : Options := {}

namespace Parser

def setup (p : Parser) (reuse : Option Reuse := none) : Setup :=
  { table := p.language.table, options := p.options, reuse }

def runOn (p : Parser) (text : String) (tokens : List Token) (reuse : Option Reuse) :
    Except Fault Document := do
  let s := p.setup reuse
  let c ← s.run (s.stepBound tokens.length) (.initial tokens)
  return { root := Setup.root c, text, diagnostics := Setup.report c, table := p.language.identity }

def parseTokens (p : Parser) (text : String) (tokens : List Token) : Except Fault Document :=
  p.runOn text tokens none

def parse (p : Parser) (text : String) : Except Fault Document :=
  p.parseTokens text (Token.readAll text)

/-- A parser with another language, if its table can be driven. -/
def withLanguage (p : Parser) (l : Language) : Except Incompatibility Parser := do
  l.table.checkCompatible
  return { p with language := l }

end Parser

end ShaderTree
