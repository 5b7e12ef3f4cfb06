import ShaderTree.Grammar.Validity
import ShaderTree.Table.Conflict
import ShaderTree.Table.Lookahead

/-!
From a grammar to its parse table. Shifts and gotos are the automaton's transitions; complete items
add reductions on their lookaheads, and the start rule acceptance.
-/
namespace ShaderTree.Table

def shiftRow (transitions : List (Symbol × Nat)) : Array Action :=
  transitions.foldl (fun row (x, target) =>
    match x with
    | .terminal k => row.setIfInBounds k.index (.shift target)
    | .nonterminal _ => row) (Array.replicate Kind.terminalCount .error)

def gotoRow (nonterminals : Nat) (transitions : List (Symbol × Nat)) : Array (Option Nat) :=
  transitions.foldl (fun row (x, target) =>
    match x with
    | .terminal _ => row
    | .nonterminal n => row.setIfInBounds n (some target)) (Array.replicate nonterminals none)

def enter (g : Grammar) (state : Nat) (action : Action) (row : Array Action) (k : Kind) :
    Except GrammarError (Array Action) := do
  let resolved ← g.resolve state k (row[k.index]?.getD .error) action
  return row.setIfInBounds k.index resolved

/-- Enters the action of an item, if it is complete, for all its lookaheads in order. -/
def enterItem (g : Grammar) (state : Nat) (row : Array Action) (entry : Item × IndexSet) :
    Except GrammarError (Array Action) :=
  if entry.1.dot < (g.rhs entry.1.production).length then .ok row
  else
    let action := if entry.1.production = g.startRule then Action.accept
      else .reduce entry.1.production
    (Kind.terminals.filter fun k => entry.2.mem k.index).foldlM (enter g state action) row

def buildRow (a : Analysis) (known : Analysis.Lookaheads) (state : Nat) :
    Except GrammarError Row := do
  let transitions := (a.automaton.states[state]?.map (·.transitions)).getD []
  let actions ← (a.itemsWith known state).foldlM (enterItem a.grammar state) (shiftRow transitions)
  return ⟨actions, gotoRow a.grammar.nonterminals.size transitions⟩

def reductionsOf (g : Grammar) : Array Reduction :=
  g.productions.map fun p => ⟨p.lhs, p.rhs.length, g.nonterminals[p.lhs]?.bind (·.node?)⟩

/-- Nonterminals and places in right-hand sides are numbered in 16 bits, productions in 32. -/
def fitsWords (g : Grammar) : Bool :=
  g.nonterminals.size < Nat.pow 2 16 && g.productions.size < Nat.pow 2 32 &&
    g.productions.toList.all (·.rhs.length < Nat.pow 2 16)

def build (g : Grammar) : Except GrammarError Table := do
  g.validate
  if !fitsWords g then throw .tooLarge
  let a := Analysis.ofGrammar g
  let known := a.lookaheads
  let rows ← (List.range a.automaton.states.size).mapM (buildRow a known)
  return {
    version := currentVersion
    kindCount := Kind.count
    rows := rows.toArray
    reductions := reductionsOf g
    nonterminalNames := g.nonterminals.map (·.name) }

end ShaderTree.Table
