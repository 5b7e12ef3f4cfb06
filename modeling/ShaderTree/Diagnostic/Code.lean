/-!
Numbered causes of diagnostics: `E01xx` come from cutting the text into tokens, `E02xx` from
repairing the parse.
-/
namespace ShaderTree

inductive Code where
  | invalidCharacter
  | unterminatedString
  | unterminatedComment
  | missingToken
  | unexpectedToken
  | unexpectedInput
  deriving DecidableEq, Inhabited

namespace Code

def all : List Code :=
  [invalidCharacter, unterminatedString, unterminatedComment, missingToken, unexpectedToken,
    unexpectedInput]

def label : Code → String
  | invalidCharacter => "E0101"
  | unterminatedString => "E0102"
  | unterminatedComment => "E0103"
  | missingToken => "E0201"
  | unexpectedToken => "E0202"
  | unexpectedInput => "E0203"

def ofLabel? (s : String) : Option Code := all.find? fun c => c.label = s

def isLexical : Code → Bool
  | invalidCharacter | unterminatedString | unterminatedComment => true
  | _ => false

def isMissing (c : Code) : Bool := c = missingToken

def category (c : Code) : String := if c.isLexical then "lexical error" else "syntax error"

def defaultMessage : Code → String
  | invalidCharacter => "invalid character"
  | unterminatedString => "unterminated string literal"
  | unterminatedComment => "unterminated block comment"
  | missingToken => "missing token"
  | unexpectedToken => "unexpected token"
  | unexpectedInput => "unexpected input"

end Code

end ShaderTree
