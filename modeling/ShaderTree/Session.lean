import ShaderTree.Parser.Reparse

/-!
An editing session: a parser whose language and options may change, and the documents parsed so far.
A document that is kept gets numbers for its new nodes, and a language made in the session gets a
new table identity, so that what is shared can be told from what is merely equal.
-/
namespace ShaderTree

structure Change where
  start : Nat
  stop : Nat
  replacement : String

/-- Makes changes one after the other; each speaks of the text that the one before it left. -/
def Change.applyAll (text : String) : List Change → Except Fault (List Edit × String)
  | [] => .ok ([], text)
  | c :: cs => do
    let (edit, changed) ← Edit.apply text c.start c.stop c.replacement
    let (edits, final) ← applyAll changed cs
    return (edit :: edits, final)

structure Session where
  parser : Parser
  documents : Array Document := #[]
  nextNode : Nat := 0
  nextTable : Nat := 1

namespace Session

def keep (s : Session) (d : Document) : Document × Session :=
  let (root, next) := d.root.numberFrom s.nextNode
  let d := { d with root := root }
  (d, { s with documents := s.documents.push d, nextNode := next })

def parse (s : Session) (text : String) : Except Fault (Document × Session) := do
  return s.keep (← s.parser.parse text)

def reparse (s : Session) (base : Document) (edits : List Edit) (text : String) :
    Except Fault (Document × Session) := do
  return s.keep (← s.parser.reparse base edits text)

def base? (s : Session) : Option Nat → Option Document
  | some i => s.documents[i]?
  | none => s.documents.back?

/-- Numbers of the documents whose trees have the shape of the given one. -/
def sameShape (s : Session) (d : Document) : List Nat :=
  (List.range s.documents.size).filter fun i => s.documents[i]?.any (·.root.sameShape d.root)

def makeLanguage (s : Session) (name : String) (g : Grammar) :
    Except GrammarError (Language × Session) := do
  let l ← Language.ofGrammar name s.nextTable g
  return (l, { s with nextTable := s.nextTable + 1 })

/-- Changes to a language whose table can be driven; any other is refused and changes nothing. -/
def setLanguage (s : Session) (l : Language) : Except Incompatibility Session := do
  return { s with parser := ← s.parser.withLanguage l }

end Session

end ShaderTree
