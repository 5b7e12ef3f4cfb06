import ShaderTree.Diagnostic.Code
import ShaderTree.Diagnostic.Enclosure
import ShaderTree.Text.ByteRange
import ShaderTree.Text.LineIndex

/-!
Diagnostics as plain data over byte ranges, and their two printed forms. The form with a place
counts lines and columns from one.
-/
namespace ShaderTree

structure Related where
  message : String
  range : ByteRange
  deriving DecidableEq

structure Diagnostic where
  code : Code
  message : String := code.defaultMessage
  range : ByteRange := .empty 0
  enclosure : Enclosure := .topLevel
  hint : Option String := none
  related : List Related := []
  deriving DecidableEq

namespace Diagnostic

def severity : String := "error"

def lineCol (d : Diagnostic) (index : LineIndex) : LineCol := index.lineCol d.range.start

def hintLine (d : Diagnostic) : String :=
  match d.hint with
  | some hint => "\n  hint: " ++ hint
  | none => ""

def format (d : Diagnostic) : String := d.code.label ++ ": " ++ d.message ++ d.hintLine

def formatPlace (p : LineCol) : String := s!"{p.line + 1}:{p.col + 1}: "

/-- The form that editors print: place, level, code and message, then a line for each related
place and one for the hint. -/
def formatWith (d : Diagnostic) (index : LineIndex) : String :=
  let related := d.related.map fun r =>
    "\n  " ++ formatPlace (index.lineCol r.range.start) ++ r.message
  formatPlace (d.lineCol index) ++ severity ++ "[" ++ d.code.label ++ "]: " ++ d.message
    ++ String.join related ++ d.hintLine

def render (d : Diagnostic) : String :=
  severity ++ "[" ++ d.code.label ++ "] at " ++ d.range.render ++ ": " ++ d.message

end Diagnostic

end ShaderTree
