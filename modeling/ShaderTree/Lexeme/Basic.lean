import ShaderTree.Lexeme.Number
import ShaderTree.Lexeme.Word

/-!
Cutting a text into lexemes by longest match. Where nothing matches, a failed lexeme takes what the
attempt read, so the lexemes of a text put together are the text.
-/
namespace ShaderTree

structure Lexeme where
  kind? : Option Kind
  text : List Char
  deriving DecidableEq

namespace Lexeme

def isSpace (c : Char) : Bool :=
  c = ' ' || c = '\t' || c = '\r' || c = '\n' || c = '\x0c'

def isWordStart (c : Char) : Bool := c.isAlpha || c = '_'

def isWordPart (c : Char) : Bool := c.isAlphanum || c = '_'

def commentEnd? : List Char → Option Nat
  | [] => none
  | [_] => none
  | '*' :: '/' :: _ => some 2
  | _ :: cs => (commentEnd? cs).map (· + 1)

/-- Length of a preprocessor line: up to the break, where a backslash takes one more character,
a break too. -/
def directive : List Char → Nat
  | [] => 0
  | '\\' :: _ :: cs => directive cs + 2
  | c :: cs => if c = '\\' || c = '\n' then 0 else directive cs + 1

/-- Length of the inside of a literal: up to the quote, the break or the end, where a backslash
takes one more character of its line. -/
def literalBody (quote : Char) : List Char → Nat
  | [] => 0
  | [c] => if c = quote || c = '\\' || c = '\n' then 0 else 1
  | c :: d :: cs =>
    if c = '\\' then if d = '\n' then 0 else literalBody quote cs + 2
    else if c = quote || c = '\n' then 0
    else literalBody quote (d :: cs) + 1

/-- A string reaches to its closing quote; without one it is an error token to where it stopped. -/
def stringLiteral (cs : List Char) : Option Kind × Nat :=
  let n := literalBody '"' cs
  match cs.drop n with
  | '"' :: _ => (some .string, n + 1)
  | _ => (some .error, n)

/-- A character literal without its closing quote is a failure that takes all that was read, a
backslash at which it stopped too. -/
def charLiteral (cs : List Char) : Option Kind × Nat :=
  let n := literalBody '\'' cs
  match cs.drop n with
  | '\'' :: _ => (some .char, n + 1)
  | '\\' :: _ => (none, n + 1)
  | _ => (none, n)

def marks : List (String × Kind) :=
  [("<<=", .shlEq), (">>=", .shrEq),
    ("[[", .lAttr), ("::", .colonColon), ("->", .arrow), ("+=", .plusEq), ("-=", .minusEq),
    ("*=", .starEq), ("/=", .slashEq), ("%=", .percentEq), ("&=", .ampEq), ("|=", .pipeEq),
    ("^=", .caretEq), ("==", .eqEq), ("!=", .bangEq), ("<=", .ltEq), (">=", .gtEq), ("<<", .shl),
    ("++", .plusPlus), ("--", .minusMinus), ("&&", .ampAmp), ("||", .pipePipe),
    ("\x7b", .lBrace), ("\x7d", .rBrace), ("[", .lBracket), ("]", .rBracket), ("(", .lParen),
    (")", .rParen), (";", .semicolon), (":", .colon), (",", .comma), ("?", .question), ("=", .eq),
    ("<", .lt), (">", .gt), ("+", .plus), ("-", .minus), ("*", .star), ("/", .slash),
    ("%", .percent), ("!", .bang), ("~", .tilde), ("&", .amp), ("|", .pipe), ("^", .caret)]

/-- The longest mark at the front of the text; any other character fails by itself. -/
def mark (c : Char) (cs : List Char) : Option Kind × Nat :=
  match marks.find? fun (text, _) => text.toList.isPrefixOf (c :: cs) with
  | some (text, k) => (some k, text.length - 1)
  | none => (none, 0)

/-- What a slash starts: a comment or a mark. A block comment that never ends is an error token. -/
def slashed : List Char → Option Kind × Nat
  | '/' :: rest => (some .lineComment, run (· ≠ '\n') rest + 1)
  | '*' :: rest =>
    match commentEnd? rest with
    | some n => (some .blockComment, n + 1)
    | none => (some .error, rest.length + 1)
  | cs => mark '/' cs

def munch (c : Char) (cs : List Char) : Option Kind × Nat :=
  if isSpace c then (some .whitespace, run isSpace cs)
  else if isWordStart c then
    let n := run isWordPart cs
    (some (wordKind (String.ofList (c :: cs.take n))), n)
  else if c.isDigit then
    let (k, n) := number c cs
    (some k, n)
  else if c = '.' then
    let (k, n) := point cs
    (some k, n)
  else if c = '"' then stringLiteral cs
  else if c = '\'' then charLiteral cs
  else if c = '#' then (some .preprocessor, directive cs)
  else if c = '/' then slashed cs
  else mark c cs

def split : List Char → List Lexeme
  | [] => []
  | c :: cs =>
    let (k, n) := munch c cs
    ⟨k, c :: cs.take n⟩ :: split (cs.drop n)
termination_by cs => cs.length
decreasing_by simp only [List.length_drop, List.length_cons]; omega

def joinFailures : List Lexeme → List Lexeme
  | [] => []
  | l :: ls =>
    match l.kind?, joinFailures ls with
    | none, ⟨none, text⟩ :: rest => ⟨none, l.text ++ text⟩ :: rest
    | _, rest => l :: rest

/-- The kind of token that a lexeme makes in front of the character `next`: the first of two
adjacent `>` is joint, and a template name without `<` is an identifier. -/
def kindBefore (l : Lexeme) (next : Option Char) : Kind :=
  match l.kind? with
  | none => .error
  | some .gt => if next = some '>' then .gtJoint else .gt
  | some .primitiveType =>
    if String.ofList l.text ∈ templateTypes ∧ next ≠ some '<' then .ident else .primitiveType
  | some k => k

theorem flatten_split (cs : List Char) : ((split cs).map (·.text)).flatten = cs := by
  fun_induction split cs with
  | case1 => rfl
  | case2 c cs k n _ ih => simp [ih]

theorem flatten_joinFailures (ls : List Lexeme) :
    ((joinFailures ls).map (·.text)).flatten = (ls.map (·.text)).flatten := by
  fun_induction joinFailures ls <;> simp_all

end Lexeme

end ShaderTree
