import ShaderTree.Json.Value

/-!
Pointers into JSON values: a slash in front of each step, `~1` for a slash in a step and `~0` for a
tilde. A step is a member's key or an element's index without needless zeros.
-/
namespace ShaderTree.JsonValue

def unescapeStep : List Char → List Char
  | '~' :: '1' :: cs => '/' :: unescapeStep cs
  | '~' :: '0' :: cs => '~' :: unescapeStep cs
  | c :: cs => c :: unescapeStep cs
  | [] => []

/-- The steps of a pointer, `none` without a slash in front. -/
def steps? (pointer : String) : Option (List String) :=
  match pointer.splitOn "/" with
  | [""] => some []
  | "" :: steps => some (steps.map fun s => String.ofList (unescapeStep s.toList))
  | _ => none

def index? (step : String) : Option Nat :=
  match step.toList with
  | [] => none
  | ['0'] => some 0
  | c :: cs =>
    if c ≠ '0' && c.isDigit && cs.all Char.isDigit then
      some ((c :: cs).foldl (fun n d => n * 10 + (d.toNat - '0'.toNat)) 0)
    else none

def child? (v : JsonValue) (step : String) : Option JsonValue :=
  match v with
  | array xs => (index? step).bind fun i => xs[i]?
  | object ms => (ms.find? fun m => m.1 = step).map (·.2)
  | _ => none

def setChild (v : JsonValue) (step : String) (x : JsonValue) : JsonValue :=
  match v with
  | array xs => match index? step with
    | some i => array (xs.set i x)
    | none => v
  | object ms => object (ms.map fun m => if m.1 = step then (m.1, x) else m)
  | _ => v

def at? (v : JsonValue) : List String → Option JsonValue
  | [] => some v
  | s :: rest => (v.child? s).bind fun c => c.at? rest

/-- Puts `x` at the end of a way, `none` if it leads nowhere. -/
def setAt? (v x : JsonValue) : List String → Option JsonValue
  | [] => some x
  | s :: rest => do
    let c ← v.child? s
    let changed ← c.setAt? x rest
    return v.setChild s changed

def pointer? (v : JsonValue) (pointer : String) : Option JsonValue :=
  (steps? pointer).bind v.at?

def replace? (v : JsonValue) (pointer : String) (x : JsonValue) : Option JsonValue :=
  (steps? pointer).bind (v.setAt? x)

def without (v : JsonValue) (key : String) : JsonValue :=
  match v with
  | object ms => object (ms.filter fun m => m.1 ≠ key)
  | _ => v

end ShaderTree.JsonValue
