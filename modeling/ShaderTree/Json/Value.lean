/-!
JSON values. Objects keep their members in order. Numbers that are not written as plain natural
numbers are kept as they are written.
-/
namespace ShaderTree

inductive JsonValue where
  | null
  | bool (value : Bool)
  | natural (value : Nat)
  | number (written : String)
  | string (value : String)
  | array (elements : List JsonValue)
  | object (members : List (String × JsonValue))

namespace JsonValue

instance : Inhabited JsonValue := ⟨null⟩

def natural? : JsonValue → Option Nat
  | natural n => some n
  | _ => none

def string? : JsonValue → Option String
  | string s => some s
  | _ => none

def array? : JsonValue → Option (List JsonValue)
  | array xs => some xs
  | _ => none

end JsonValue

end ShaderTree
