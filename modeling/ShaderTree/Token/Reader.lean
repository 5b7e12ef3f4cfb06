import ShaderTree.Token

/-!
Reading tokens from what a matcher finds, whatever its rules are. Failures in a row make one token, so a
reader that has come upon one looks at the lexeme behind it, and keeps it for the next token if it does
not fail too.
-/
namespace ShaderTree

structure Found where
  kind? : Option Kind
  start : Nat
  stop : Nat

/-- Finds the lexeme of a text behind a byte of it, if there is one. -/
def Matcher := List Char → Nat → Option Found

def Matcher.rules : Matcher := fun source offset =>
  match Text.cut? offset source with
  | some (_, c :: cs) =>
    let (k, n) := Lexeme.munch c cs
    some ⟨k, offset, offset + Text.size (c :: cs.take n)⟩
  | _ => none

/-- Where a lexeme ends: a failure goes on to the end of the character it stops in. -/
def Found.wholeStop (source : List Char) (f : Found) : Nat :=
  match f.kind? with
  | some _ => f.stop
  | none => Text.size (Text.cutFrom f.stop source).1

structure Reader where
  text : String
  base : Nat
  reached : Nat
  position : Position
  /-- Found and not part of a token yet. -/
  peeked : Option Found

namespace Reader

def source (r : Reader) : List Char := (Text.cutFrom r.base r.text.toList).2

def startingAt (text : String) (offset : Nat) : Reader :=
  let before := (Text.cutFrom offset text.toList).1
  { text, base := Text.size before, reached := 0, position := Position.zero.advance before
    peeked := none }

def found? (m : Matcher) (r : Reader) : Option (Found × Reader) :=
  match r.peeked with
  | some f => some (f, { r with peeked := none })
  | none => (m r.source r.reached).map fun f =>
    let stop := f.wholeStop r.source
    (⟨f.kind?, f.start + r.base, stop + r.base⟩, { r with reached := stop })

/-- The token of a lexeme. What follows it is looked at for a match only. -/
def token (r : Reader) (f : Found) : Except Fault (Token × Reader) :=
  match Text.slice? r.text f.start f.stop, Text.cut? f.stop r.text.toList with
  | some text, some (_, ahead) =>
    let q := r.position.advance text.toList
    let k := (Lexeme.mk f.kind? text.toList).kindBefore ahead.head?
    .ok (⟨k, text, f.start, ⟨r.position, q⟩⟩, { r with position := q })
  | _, _ => .error .badCut

/-- Takes in the failures right behind one, and keeps the lexeme at which they end. -/
def absorb (m : Matcher) : Nat → Found → Reader → Except Fault (Found × Reader)
  | 0, _, _ => .error .outOfFuel
  | fuel + 1, f, r =>
    match r.found? m with
    | none => .ok (f, r)
    | some (g, after) =>
      if g.kind? = none ∧ g.start = f.stop then absorb m fuel { f with stop := g.stop } after
      else .ok (f, { after with peeked := some g })

def tokens (m : Matcher) : Nat → Reader → Except Fault (List Token)
  | 0, _ => .error .outOfFuel
  | fuel + 1, r =>
    match r.found? m with
    | none => .ok []
    | some (f, r) => do
      let (f, r) ← match f.kind? with
        | some _ => pure (f, r)
        | none => absorb m (fuel + 1) f r
      let (t, r) ← r.token f
      let ts ← tokens m fuel r
      return t :: ts

end Reader

/-- Tokens of a text from a byte on. There are no more lexemes than bytes. -/
def Matcher.readFrom (m : Matcher) (text : String) (offset : Nat) : Except Fault (List Token) :=
  (Reader.startingAt text offset).tokens m (text.utf8ByteSize + 1)

end ShaderTree
