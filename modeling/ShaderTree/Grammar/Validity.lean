import ShaderTree.Grammar.Basic
import ShaderTree.Grammar.Error
import ShaderTree.IndexSet

/-!
Which grammars can be used: every terminal is one that the parser can read, and every nonterminal
has a production, is reachable from the start symbol and derives some string of terminals. The
sets of reachable and of productive nonterminals are least fixed points; each round adds a member
or changes nothing, so as many rounds as there are nonterminals reach them.
-/
namespace ShaderTree.Grammar

def isUsable (k : Kind) : Bool := k.isTerminal && !k.isTrivia && k ≠ .eof

def terminals (g : Grammar) : List Kind :=
  g.productions.toList.flatMap fun p => p.rhs.filterMap fun
    | .terminal k => some k
    | .nonterminal _ => none

def reachMore (g : Grammar) (s : IndexSet) : IndexSet :=
  g.productions.foldl (fun s p =>
    if s.mem p.lhs then
      p.rhs.foldl (fun s x => match x with
        | .terminal _ => s
        | .nonterminal i => s.insert i) s
    else s) s

/-- Adds the nonterminals with a right-hand side of terminals and members. -/
def produceMore (g : Grammar) (s : IndexSet) : IndexSet :=
  g.productions.foldl (fun s p =>
    let productive : Symbol → Bool
      | .terminal _ => true
      | .nonterminal i => s.mem i
    if p.rhs.all productive then s.insert p.lhs else s) s

def rounds (step : IndexSet → IndexSet) : Nat → IndexSet → IndexSet
  | 0, s => s
  | n + 1, s => rounds step n (step s)

def reachable (g : Grammar) : IndexSet :=
  rounds g.reachMore g.nonterminals.size (IndexSet.empty.insert g.start)

def productive (g : Grammar) : IndexSet :=
  rounds g.produceMore g.nonterminals.size IndexSet.empty

def firstWithout? (g : Grammar) (p : Nat → Bool) : Option String :=
  ((List.range g.nonterminals.size).find? fun i => !p i).map g.nonterminalName

def validate (g : Grammar) : Except GrammarError Unit := do
  if g.productions.isEmpty then throw .noProductions
  if let some k := g.terminals.find? fun k => !isUsable k then throw (.badTerminal k)
  if let some n := g.firstWithout? fun i => !(g.productionsOf i).isEmpty then
    throw (.noProductionFor n)
  if let some n := g.firstWithout? g.reachable.mem then throw (.unreachable n)
  if let some n := g.firstWithout? g.productive.mem then throw (.unproductive n)

end ShaderTree.Grammar
