import ShaderTree.Kind

/-!
How far a number reaches. Of the readings that a text allows the longest is taken: `1e+` is the
number `1`, and `0xg` the number `0`.
-/
namespace ShaderTree.Lexeme

def run (p : Char → Bool) (cs : List Char) : Nat := (cs.takeWhile p).length

def isHexDigit (c : Char) : Bool :=
  c.isDigit || 'a' ≤ c && c ≤ 'f' || 'A' ≤ c && c ≤ 'F'

def optional (p : Char → Bool) : List Char → Nat
  | c :: _ => if p c then 1 else 0
  | [] => 0

def unsignedSuffix (cs : List Char) : Nat := optional (fun c => c = 'u' || c = 'U') cs

def floatSuffix (cs : List Char) : Nat :=
  optional (fun c => c = 'f' || c = 'F' || c = 'h' || c = 'H') cs

def exponent : List Char → Nat
  | c :: cs =>
    if c = 'e' || c = 'E' then
      let sign := optional (fun c => c = '+' || c = '-') cs
      let digits := run Char.isDigit (cs.drop sign)
      if digits = 0 then 0 else 1 + sign + digits
    else 0
  | [] => 0

def exponentAndSuffix (cs : List Char) : Nat :=
  let e := exponent cs
  e + floatSuffix (cs.drop e)

/-- Hexadecimal digits and suffix behind a leading zero and an `x`, 0 if no digit follows. -/
def hexadecimal : List Char → Nat
  | x :: cs =>
    if x = 'x' || x = 'X' then
      let digits := run isHexDigit cs
      if digits = 0 then 0 else 1 + digits + unsignedSuffix (cs.drop digits)
    else 0
  | [] => 0

def number (first : Char) (cs : List Char) : Kind × Nat :=
  let hex := hexadecimal cs
  if first = '0' ∧ hex ≠ 0 then (.intNumber, hex)
  else
    let digits := run Char.isDigit cs
    match cs.drop digits with
    | '.' :: fraction =>
      let places := run Char.isDigit fraction
      (.floatNumber, digits + 1 + places + exponentAndSuffix (fraction.drop places))
    | rest =>
      if exponent rest = 0 then (.intNumber, digits + unsignedSuffix rest)
      else (.floatNumber, digits + exponentAndSuffix rest)

/-- A point and what follows it: a number if that starts with a digit. -/
def point (cs : List Char) : Kind × Nat :=
  let places := run Char.isDigit cs
  if places = 0 then (.dot, 0) else (.floatNumber, places + exponentAndSuffix (cs.drop places))

end ShaderTree.Lexeme
