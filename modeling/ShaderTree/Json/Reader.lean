import ShaderTree.Json.Value

/-!
Reading JSON texts. The whole text has to be one value; blanks may stand between its parts. Each
reader returns what it read and the rest of the text.
-/
namespace ShaderTree.JsonValue

def isBlank (c : Char) : Bool := c = ' ' || c = '\n' || c = '\t' || c = '\r'

def skipBlanks (cs : List Char) : List Char := cs.dropWhile isBlank

def hexValue? (c : Char) : Option Nat :=
  if c.isDigit then some (c.toNat - '0'.toNat)
  else if 'a' ≤ c && c ≤ 'f' then some (c.toNat - 'a'.toNat + 10)
  else if 'A' ≤ c && c ≤ 'F' then some (c.toNat - 'A'.toNat + 10)
  else none

def unit? : List Char → Option (Nat × List Char)
  | a :: b :: c :: d :: rest => do
    let a ← hexValue? a
    let b ← hexValue? b
    let c ← hexValue? c
    let d ← hexValue? d
    return (((a * 16 + b) * 16 + c) * 16 + d, rest)
  | _ => none

/-- A character by its number: one unit, or two that together stand for a greater number. -/
def numbered? (cs : List Char) : Option (Char × List Char) := do
  let (high, rest) ← unit? cs
  if 0xd800 ≤ high && high < 0xdc00 then
    match rest with
    | '\\' :: 'u' :: rest =>
      let (low, rest) ← unit? rest
      guard (0xdc00 ≤ low && low < 0xe000)
      return (Char.ofNat (0x10000 + (high - 0xd800) * 0x400 + (low - 0xdc00)), rest)
    | _ => none
  else
    guard (!(0xdc00 ≤ high && high < 0xe000))
    return (Char.ofNat high, rest)

def escaped? : List Char → Option (Char × List Char)
  | '"' :: rest => some ('"', rest)
  | '\\' :: rest => some ('\\', rest)
  | '/' :: rest => some ('/', rest)
  | 'n' :: rest => some ('\n', rest)
  | 'r' :: rest => some ('\r', rest)
  | 't' :: rest => some ('\t', rest)
  | 'b' :: rest => some ('\x08', rest)
  | 'f' :: rest => some ('\x0c', rest)
  | 'u' :: rest => numbered? rest
  | _ => none

def stringBody? : Nat → List Char → Option (List Char × List Char)
  | 0, _ => none
  | _, [] => none
  | fuel + 1, c :: cs =>
    if c = '"' then some ([], cs)
    else if c = '\\' then do
      let (d, rest) ← escaped? cs
      let (body, rest) ← stringBody? fuel rest
      return (d :: body, rest)
    else if c.toNat < 32 then none
    else do
      let (body, rest) ← stringBody? fuel cs
      return (c :: body, rest)

def readString? : List Char → Option (String × List Char)
  | '"' :: cs => do
    let (body, rest) ← stringBody? (cs.length + 1) cs
    return (String.ofList body, rest)
  | _ => none

def isNumberPart (c : Char) : Bool :=
  c.isDigit || c = '-' || c = '+' || c = '.' || c = 'e' || c = 'E'

/-- Digits without a needless zero in front. -/
def isInteger : List Char → Bool
  | [] => false
  | ['0'] => true
  | c :: cs => c.isDigit && c ≠ '0' && cs.all Char.isDigit

def isExponent : List Char → Bool
  | [] => true
  | e :: '+' :: ds => (e = 'e' || e = 'E') && !ds.isEmpty && ds.all Char.isDigit
  | e :: '-' :: ds => (e = 'e' || e = 'E') && !ds.isEmpty && ds.all Char.isDigit
  | e :: ds => (e = 'e' || e = 'E') && !ds.isEmpty && ds.all Char.isDigit

def isUnsigned (cs : List Char) : Bool :=
  isInteger (cs.takeWhile Char.isDigit) &&
    match cs.dropWhile Char.isDigit with
    | '.' :: rest =>
      !(rest.takeWhile Char.isDigit).isEmpty && isExponent (rest.dropWhile Char.isDigit)
    | rest => isExponent rest

def decimal (digits : List Char) : Nat :=
  digits.foldl (fun n c => n * 10 + (c.toNat - '0'.toNat)) 0

def number? (cs : List Char) : Option JsonValue :=
  if isInteger cs then some (natural (decimal cs))
  else
    let unsigned := match cs with
      | '-' :: rest => rest
      | _ => cs
    if isUnsigned unsigned then some (number (String.ofList cs)) else none

def keyword? (cs : List Char) : Option (JsonValue × List Char) :=
  match cs with
  | 'n' :: 'u' :: 'l' :: 'l' :: rest => some (null, rest)
  | 't' :: 'r' :: 'u' :: 'e' :: rest => some (bool true, rest)
  | 'f' :: 'a' :: 'l' :: 's' :: 'e' :: rest => some (bool false, rest)
  | _ => none

mutual

def value? : Nat → List Char → Option (JsonValue × List Char)
  | 0, _ => none
  | fuel + 1, cs =>
    match skipBlanks cs with
    | '[' :: rest =>
      match skipBlanks rest with
      | ']' :: rest => some (array [], rest)
      | rest => do
        let (x, rest) ← value? fuel rest
        let (xs, rest) ← elements? fuel rest
        return (array (x :: xs), rest)
    | '\x7b' :: rest =>
      match skipBlanks rest with
      | '\x7d' :: rest => some (object [], rest)
      | rest => do
        let (m, rest) ← member? fuel rest
        let (ms, rest) ← members? fuel rest
        return (object (m :: ms), rest)
    | '"' :: rest => do
      let (s, rest) ← readString? ('"' :: rest)
      return (string s, rest)
    | cs =>
      match keyword? cs with
      | some r => some r
      | none => (number? (cs.takeWhile isNumberPart)).map fun n => (n, cs.dropWhile isNumberPart)

def elements? : Nat → List Char → Option (List JsonValue × List Char)
  | 0, _ => none
  | fuel + 1, cs =>
    match skipBlanks cs with
    | ']' :: rest => some ([], rest)
    | ',' :: rest => do
      let (x, rest) ← value? fuel rest
      let (xs, rest) ← elements? fuel rest
      return (x :: xs, rest)
    | _ => none

def member? : Nat → List Char → Option ((String × JsonValue) × List Char)
  | 0, _ => none
  | fuel + 1, cs => do
    let (key, rest) ← readString? (skipBlanks cs)
    match skipBlanks rest with
    | ':' :: rest =>
      let (x, rest) ← value? fuel rest
      return ((key, x), rest)
    | _ => none

def members? : Nat → List Char → Option (List (String × JsonValue) × List Char)
  | 0, _ => none
  | fuel + 1, cs =>
    match skipBlanks cs with
    | '\x7d' :: rest => some ([], rest)
    | ',' :: rest => do
      let (m, rest) ← member? fuel rest
      let (ms, rest) ← members? fuel rest
      return (m :: ms, rest)
    | _ => none

end

/-- The value that a text is. Every reader but the outermost is called on a shorter text or, once,
on the same one, which bounds the depth of the calls. -/
def parse? (text : String) : Option JsonValue := do
  let cs := text.toList
  let (v, rest) ← value? (2 * cs.length + 2) cs
  guard (skipBlanks rest).isEmpty
  return v

end ShaderTree.JsonValue
