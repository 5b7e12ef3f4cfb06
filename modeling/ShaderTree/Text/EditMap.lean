import ShaderTree.Text.Edit

/-!
The changed regions of a text after a sequence of edits, in old and in new offsets. Between the
regions the two texts agree up to a shift, so an offset there has one counterpart.
-/
namespace ShaderTree

structure Segment where
  newStart : Nat
  newEnd : Nat
  oldStart : Nat
  oldEnd : Nat
  deriving DecidableEq

/-- Segments in order; no two touch. -/
structure EditMap where
  segments : List Segment
  deriving DecidableEq

namespace EditMap

/-- Old offset of a new one that lies behind the segments `before`. -/
def unchangedToOld (before : List Segment) (offset : Nat) : Except Fault Nat :=
  match before.getLast? with
  | some last => do Word.add 64 (← Word.sub 64 offset last.newEnd) last.oldEnd
  | none => return offset

/-- The region that an edit and the segments it touches make together, before its bytes change. -/
def join (before touched : List Segment) (e : Edit) : Except Fault Segment :=
  match touched.head?, touched.getLast? with
  | some a, some b =>
    return {
      newStart := min e.start a.newStart
      newEnd := max e.oldEnd b.newEnd
      oldStart := ← Word.sub 64 a.oldStart (a.newStart - e.start)
      oldEnd := ← Word.add 64 b.oldEnd (e.oldEnd - b.newEnd) }
  | _, _ =>
    return ⟨e.start, e.oldEnd, ← unchangedToOld before e.start, ← unchangedToOld before e.oldEnd⟩

def moved (delta : Int) (offset : Nat) : Except Fault Nat :=
  return Word.unsigned (← Word.checkSigned (Word.signed offset + delta))

def movedAll (delta : Int) : List Segment → Except Fault (List Segment)
  | [] => return []
  | s :: ss =>
    return { s with newStart := ← moved delta s.newStart, newEnd := ← moved delta s.newEnd } ::
      (← movedAll delta ss)

def add (m : EditMap) (e : Edit) : Except Fault EditMap := do
  let before := m.segments.takeWhile (·.newEnd < e.start)
  let rest := m.segments.dropWhile (·.newEnd < e.start)
  let touched := rest.takeWhile (·.newStart ≤ e.oldEnd)
  let after := rest.dropWhile (·.newStart ≤ e.oldEnd)
  let joined ← join before touched e
  let delta ← e.delta
  let newEnd ← moved delta joined.newEnd
  return ⟨before ++ { joined with newEnd := newEnd } :: (← movedAll delta after)⟩

/-- Adds the edits one by one to a map whose new text has `length` bytes. -/
def addAll? (m : EditMap) (length : Nat) : List Edit → Except Fault (Option EditMap)
  | [] => return some m
  | e :: es =>
    if e.isWellFormed && e.oldEnd ≤ length then do
      let kept ← Word.sub 64 length (e.oldEnd - e.start)
      let length ← Word.add 64 kept (e.newEnd - e.start)
      let m ← (if e.isVoid then pure m else m.add e)
      addAll? m length es
    else return none

/-- The map of a sequence of edits of a text with `oldLength` bytes; refused when an edit reaches
past the text it applies to. -/
def ofEdits? (edits : List Edit) (oldLength : Nat) : Except Fault (Option EditMap) :=
  addAll? ⟨[]⟩ oldLength edits

def isEmpty (m : EditMap) : Bool := m.segments.isEmpty

/-- First changed byte; old and new offset are the same. -/
def firstChange? (m : EditMap) : Option Nat := m.segments.head?.map (·.newStart)

def lastChange? (m : EditMap) : Option Nat := m.segments.getLast?.map (·.newEnd)

/-- Old offset of a new one, `none` inside changed text. -/
def toOld? (m : EditMap) (offset : Nat) : Except Fault (Option Nat) :=
  let before := m.segments.takeWhile (·.newEnd ≤ offset)
  if (m.segments.dropWhile (·.newEnd ≤ offset)).head?.any (·.newStart ≤ offset) then return none
  else return some (← unchangedToOld before offset)

/-- Whether the old bytes from `start` to `stop` meet changed text, or hold an insertion inside. -/
def touches (m : EditMap) (start stop : Nat) : Bool :=
  m.segments.any fun s =>
    if s.oldStart = s.oldEnd then start < s.oldStart && s.oldStart < stop
    else start < s.oldEnd && s.oldStart < stop

end EditMap

end ShaderTree
