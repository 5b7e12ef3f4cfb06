import ShaderTree.Json.Value

/-!
JSON texts without blanks. In strings the quote, the backslash and the control characters are
escaped, those with a letter by their letter and the others by four hexadecimal digits.
-/
namespace ShaderTree.JsonValue

def hexDigit (n : Nat) : Char :=
  if n < 10 then Char.ofNat ('0'.toNat + n) else Char.ofNat ('a'.toNat + (n - 10))

def escape (c : Char) : List Char :=
  if c = '"' then ['\\', '"']
  else if c = '\\' then ['\\', '\\']
  else if c = '\n' then ['\\', 'n']
  else if c = '\r' then ['\\', 'r']
  else if c = '\t' then ['\\', 't']
  else if c = '\x08' then ['\\', 'b']
  else if c = '\x0c' then ['\\', 'f']
  else if c.toNat < 32 then
    ['\\', 'u', '0', '0', hexDigit (c.toNat / 16), hexDigit (c.toNat % 16)]
  else [c]

def writeString (s : String) : List Char := '"' :: s.toList.flatMap escape ++ ['"']

mutual

def write : JsonValue → List Char
  | null => "null".toList
  | bool true => "true".toList
  | bool false => "false".toList
  | natural n => Nat.toDigits 10 n
  | number written => written.toList
  | string s => writeString s
  | array [] => ['[', ']']
  | array (x :: xs) => '[' :: write x ++ writeElements xs
  | object [] => ['\x7b', '\x7d']
  | object ((key, x) :: members) =>
    '\x7b' :: writeString key ++ ':' :: write x ++ writeMembers members

def writeElements : List JsonValue → List Char
  | [] => [']']
  | x :: xs => ',' :: write x ++ writeElements xs

def writeMembers : List (String × JsonValue) → List Char
  | [] => ['\x7d']
  | (key, x) :: members => ',' :: writeString key ++ ':' :: write x ++ writeMembers members

end

def render (v : JsonValue) : String := String.ofList v.write

end ShaderTree.JsonValue
