import ShaderTree.Table.Basic

/-!
How to go on when the table has no action for the next token. The choice looks only at the states
on the stack, the next token and a few kinds after it: pretend a missing closer, skip the token, or
give up the fewest stack entries that lead to a state which takes the token. Stacks of states have
their top first and end with the start state.
-/
namespace ShaderTree

inductive Repair where
  | insert (kind : Kind)
  | skip
  | wrap (depth : Nat)
  deriving DecidableEq

namespace Table

/-- The states after the table's reductions for a terminal and its shift or acceptance, with at
most `fuel` reductions. -/
def simulateWith (t : Table) (k : Kind) : Nat → List Nat → Option (List Nat)
  | _, [] => none
  | fuel, top :: below =>
    match t.action top k, fuel with
    | .shift next, _ => some (next :: top :: below)
    | .accept, _ => some (top :: below)
    | .error, _ => none
    | .reduce _, 0 => none
    | .reduce p, fuel + 1 =>
      match t.reductions[p]? with
      | none => none
      | some r =>
        match (top :: below).drop r.length with
        | [] => none
        | base :: rest =>
          match t.goto? base r.lhs with
          | none => none
          | some next => simulateWith t k fuel (next :: base :: rest)

def simulate (t : Table) (states : List Nat) (k : Kind) : Option (List Nat) :=
  t.simulateWith k (t.reductionBound states.length) states

def accepts (t : Table) (states : List Nat) (k : Kind) : Bool := (t.simulate states k).isSome

end Table

namespace Repair

/-- The closers that may be pretended, in the order in which they are tried. -/
def insertable : List Kind := [.semicolon, .rParen, .rBracket, .rBrace, .gt, .colon]

/-- The first closer after which the next token is taken; at the end of input, failing that, the
first that is taken itself. -/
def closer? (t : Table) (states : List Nat) (lookahead : Kind) : Option Kind :=
  let fits (k : Kind) : Bool := (t.simulate states k).any fun after => t.accepts after lookahead
  (insertable.find? fits).or
    (if lookahead = .eof then insertable.find? fun k => t.accepts states k else none)

/-- The fewest entries whose removal leaves a state that takes the token, not counting none. -/
def depth? (t : Table) (states : List Nat) (lookahead : Kind) : Option Nat :=
  ((List.range states.length).drop 1).find? fun d => t.accepts (states.drop d) lookahead

/-- Chooses a repair. `upcoming` are the kinds after the next token; `canInsert` says whether one
more token may be pretended here. An error token is never kept by an insertion, and the end of
input is never skipped. -/
def choose (t : Table) (states : List Nat) (lookahead : Kind) (upcoming : List Kind)
    (canInsert : Bool) : Repair :=
  let inserted := if canInsert && lookahead ≠ .error then closer? t states lookahead else none
  match inserted with
  | some k => .insert k
  | none =>
    if lookahead ≠ .eof && (lookahead = .error || upcoming.any fun k => t.accepts states k) then
      .skip
    else match depth? t states lookahead with
      | some d => .wrap d
      | none => if lookahead = .eof then .wrap (states.length - 1) else .skip

end Repair

end ShaderTree
