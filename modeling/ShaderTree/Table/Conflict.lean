import ShaderTree.Grammar.Basic
import ShaderTree.Grammar.Error
import ShaderTree.Table.Basic

/-!
What a state does with a terminal that several of its items want to act on. Precedence decides
where both sides have it: the higher level wins, and at equal levels the terminal's associativity
decides between shift and reduce. Every other case is a conflict.
-/
namespace ShaderTree.Grammar

def renderAction (g : Grammar) (lookahead : Kind) : Action → String
  | .shift _ => "shift " ++ lookahead.label
  | .reduce p => g.renderProduction p
  | .accept => "accept"
  | .error => "error"

/-- Shift or reduce, by the levels of the production and the terminal; `none` if one has none. -/
def shiftOrReduce? (g : Grammar) (lookahead : Kind) (shift : Action) (production : Nat) :
    Option Action := do
  let p ← g.productionPrecedence? production
  let t ← g.tokenPrecedence? lookahead
  if t.level < p.level then return .reduce production
  else if p.level < t.level then return shift
  else match t.associativity with
    | .left => return .reduce production
    | .right => return shift
    | .nonassoc => return .error

/-- The production of the higher level; `none` if one has no level or the levels are equal. -/
def reduceOrReduce? (g : Grammar) (old new : Nat) : Option Action := do
  let a ← g.productionPrecedence? old
  let b ← g.productionPrecedence? new
  guard (a.level ≠ b.level)
  return .reduce (if a.level < b.level then new else old)

def resolve (g : Grammar) (state : Nat) (lookahead : Kind) (current candidate : Action) :
    Except GrammarError Action :=
  let conflict (kind : ConflictKind) : Except GrammarError Action :=
    .error (.conflict kind state lookahead (g.renderAction lookahead current)
      (g.renderAction lookahead candidate))
  let orConflict (kind : ConflictKind) : Option Action → Except GrammarError Action
    | some action => .ok action
    | none => conflict kind
  match current, candidate with
  | .error, _ => .ok candidate
  | .shift _, .reduce p => orConflict .shiftReduce (g.shiftOrReduce? lookahead current p)
  | .reduce old, .reduce new => orConflict .reduceReduce (g.reduceOrReduce? old new)
  | _, _ => conflict .reduceReduce

end ShaderTree.Grammar
