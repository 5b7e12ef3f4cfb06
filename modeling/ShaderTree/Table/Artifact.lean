import ShaderTree.Json.Printer
import ShaderTree.Json.Reader
import ShaderTree.Language

/-!
Tables as JSON texts. All rows of a table stand one after the other in one array of actions and one
of gotos. Reading refuses missing and repeated members and numbers that are too large for their
places, and leaves unknown members out of account.
-/
namespace ShaderTree

structure Artifact where
  version : Nat
  kindCount : Nat
  stateCount : Nat
  nonterminalCount : Nat
  actions : List Action
  gotos : List (Option Nat)
  reductions : List Reduction
  nonterminalNames : List String

namespace Artifact

def ofTable (t : Table) : Artifact :=
  { version := t.version
    kindCount := t.kindCount
    stateCount := t.stateCount
    nonterminalCount := t.nonterminalCount
    actions := t.rows.toList.flatMap fun r => r.actions.toList
    gotos := t.rows.toList.flatMap fun r => r.gotos.toList
    reductions := t.reductions.toList
    nonterminalNames := t.nonterminalNames.toList }

def pieces (length : Nat) : Nat → List α → List (List α)
  | 0, _ => []
  | n + 1, xs => xs.take length :: pieces length n (xs.drop length)

def toTable? (a : Artifact) : Option Table := do
  guard (a.actions.length = a.stateCount * Kind.terminalCount)
  guard (a.gotos.length = a.stateCount * a.nonterminalCount)
  guard (a.nonterminalNames.length = a.nonterminalCount)
  let rows := ((pieces Kind.terminalCount a.stateCount a.actions).zip
    (pieces a.nonterminalCount a.stateCount a.gotos)).map fun (actions, gotos) =>
      Row.mk actions.toArray gotos.toArray
  return {
    version := a.version
    kindCount := a.kindCount
    rows := rows.toArray
    reductions := a.reductions.toArray
    nonterminalNames := a.nonterminalNames.toArray }

/-! Writing -/

def actionJson : Action → JsonValue
  | .error => .string "Error"
  | .accept => .string "Accept"
  | .shift n => .object [("Shift", .natural n)]
  | .reduce p => .object [("Reduce", .natural p)]

def optionJson (f : α → JsonValue) : Option α → JsonValue
  | some x => f x
  | none => .null

def reductionJson (r : Reduction) : JsonValue :=
  .object [("lhs", .natural r.lhs), ("len", .natural r.length),
    ("node", optionJson (fun k => .string k.label) r.node?)]

def toJson (a : Artifact) : JsonValue :=
  .object [("abi_version", .natural a.version), ("symbol_count", .natural a.kindCount),
    ("state_count", .natural a.stateCount), ("nonterminal_count", .natural a.nonterminalCount),
    ("actions", .array (a.actions.map actionJson)),
    ("gotos", .array (a.gotos.map (optionJson .natural))),
    ("productions", .array (a.reductions.map reductionJson)),
    ("nonterminal_names", .array (a.nonterminalNames.map .string))]

/-! Reading -/

def word? (bits : Nat) (v : JsonValue) : Option Nat := do
  let n ← v.natural?
  guard (n < Nat.pow 2 bits)
  return n

/-- The name of a choice with what it holds; a bare name holds nothing. -/
def choice? : JsonValue → Option (String × JsonValue)
  | .string name => some (name, .null)
  | .object [(name, v)] => some (name, v)
  | _ => none

def action? (v : JsonValue) : Option Action := do
  match ← choice? v with
  | ("Error", .null) => return .error
  | ("Accept", .null) => return .accept
  | ("Shift", n) => return .shift (← word? 32 n)
  | ("Reduce", n) => return .reduce (← word? 32 n)
  | _ => none

def kind? (v : JsonValue) : Option Kind := do
  match ← choice? v with
  | (name, .null) => Kind.ofLabel? name
  | _ => none

def option? (f : JsonValue → Option α) : JsonValue → Option (Option α)
  | .null => some none
  | v => (f v).map some

def list? (f : JsonValue → Option α) (v : JsonValue) : Option (List α) :=
  v.array?.bind fun xs => xs.mapM f

/-- The values of named members, in the order of the names. An array holds them in that order; an
object may hold more, but no name twice. -/
def fields? (names : List String) : JsonValue → Option (List (Option JsonValue))
  | .array xs => if xs.length = names.length then some (xs.map some) else none
  | .object ms =>
    names.mapM fun name =>
      match ms.filter fun m => m.1 = name with
      | [] => some none
      | [m] => some (some m.2)
      | _ => none
  | _ => none

def reduction? (v : JsonValue) : Option Reduction := do
  match ← fields? ["lhs", "len", "node"] v with
  | [some lhs, some length, node] =>
    return ⟨← word? 16 lhs, ← word? 16 length, ← option? kind? (node.getD .null)⟩
  | _ => none

def memberNames : List String :=
  ["abi_version", "symbol_count", "state_count", "nonterminal_count", "actions", "gotos",
    "productions", "nonterminal_names"]

def ofJson? (v : JsonValue) : Option Artifact := do
  match ← fields? memberNames v with
  | [some version, some kindCount, some stateCount, some nonterminalCount, some actions,
      some gotos, some reductions, some names] =>
    return {
      version := ← word? 32 version
      kindCount := ← word? 16 kindCount
      stateCount := ← word? 32 stateCount
      nonterminalCount := ← word? 16 nonterminalCount
      actions := ← list? action? actions
      gotos := ← list? (option? (word? 32)) gotos
      reductions := ← list? reduction? reductions
      nonterminalNames := ← list? JsonValue.string? names }
  | _ => none

end Artifact

inductive LoadError where
  | unreadable
  | incompatible (reason : Incompatibility)
  deriving DecidableEq

namespace Language

def toArtifact (l : Language) : String := (Artifact.ofTable l.table).toJson.render

/-- Reads a table. Version and number of kinds are looked at before the rest. -/
def ofArtifact (name : String) (identity : Nat) (text : String) : Except LoadError Language := do
  let some a := (JsonValue.parse? text).bind Artifact.ofJson? | throw .unreadable
  match a.toTable? with
  | some t =>
    match t.checkCompatible with
    | .ok () => return ⟨name, t, identity⟩
    | .error reason => throw (.incompatible reason)
  | none =>
    match Table.checkKinds a.version a.kindCount with
    | .ok () => throw (.incompatible .malformed)
    | .error reason => throw (.incompatible reason)

end Language

end ShaderTree
