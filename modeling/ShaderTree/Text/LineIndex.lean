import ShaderTree.Text.Bytes
import ShaderTree.Word

/-!
Where the lines of a text start, and the two maps between offsets and lines with columns that this
gives. A line holds the break that ends it.
-/
namespace ShaderTree

structure LineCol where
  line : Nat
  col : Nat
  deriving DecidableEq, Inhabited

structure LineIndex where
  starts : List Nat
  length : Nat

namespace LineIndex

/-- Offsets that follow a line break, for a text that starts at `offset`. -/
def startsAfterBreaks (offset : Nat) : List Char → List Nat
  | [] => []
  | c :: cs =>
    let next := offset + c.utf8Size
    if c = '\n' then next :: startsAfterBreaks next cs else startsAfterBreaks next cs

def ofText (text : String) : LineIndex :=
  ⟨0 :: startsAfterBreaks 0 text.toList, text.utf8ByteSize⟩

def lineCount (i : LineIndex) : Nat := i.starts.length

/-- Line and column of an offset; an offset past the end stands for the end. -/
def lineCol (i : LineIndex) (offset : Nat) : LineCol :=
  let offset := min offset i.length
  let upTo := i.starts.takeWhile (· ≤ offset)
  ⟨upTo.length - 1, offset - upTo.getLast?.getD 0⟩

def lineStart? (i : LineIndex) (line : Nat) : Option Nat := i.starts[line]?

/-- Offset of a line and column, in words of 32 bits. The start of the next line is still a column
of this one. -/
def offset? (i : LineIndex) (p : LineCol) : Except Fault (Option Nat) :=
  match i.lineStart? p.line with
  | none => return none
  | some start => do
    let offset ← Word.add 32 start p.col
    let stop := (i.lineStart? (p.line + 1)).getD i.length
    return if offset ≤ stop then some offset else none

end LineIndex

end ShaderTree
