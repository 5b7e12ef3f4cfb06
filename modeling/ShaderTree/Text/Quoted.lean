import ShaderTree.Text.Unprinted

/-!
Quoted texts. Quotes and backslashes take a backslash, common controls have letters, other
characters that do not show are written as their number in hexadecimal.
-/
namespace ShaderTree.Text

def hexNumber (n : Nat) : String := String.ofList (Nat.toDigits 16 n)

def quoteChar (c : Char) : String :=
  if c = '\t' then "\\t"
  else if c = '\r' then "\\r"
  else if c = '\n' then "\\n"
  else if c = '\\' then "\\\\"
  else if c = '"' then "\\\""
  else if c = '\x00' then "\\0"
  else if isUnprinted c then "\\u\x7b" ++ hexNumber c.toNat ++ "\x7d"
  else c.toString

def quote (s : String) : String := "\"" ++ String.join (s.toList.map quoteChar) ++ "\""

end ShaderTree.Text
