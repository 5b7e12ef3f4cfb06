import ShaderTree.Kind

/-!
Why a grammar gives no parse table.
-/
namespace ShaderTree

inductive ConflictKind where
  | shiftReduce
  | reduceReduce
  deriving DecidableEq

inductive GrammarError where
  | noProductions
  | badTerminal (kind : Kind)
  | noProductionFor (nonterminal : String)
  | unreachable (nonterminal : String)
  | unproductive (nonterminal : String)
  /-- Two actions for one state and terminal, with the readings `first` and `second`. -/
  | conflict (kind : ConflictKind) (state : Nat) (lookahead : Kind) (first second : String)
  /-- A count, or a place in a right-hand side, that is no word of its width: not a report, but no
  table either. -/
  | tooLarge
  deriving DecidableEq

def ConflictKind.label : ConflictKind → String
  | shiftReduce => "shift/reduce"
  | reduceReduce => "reduce/reduce"

def GrammarError.message : GrammarError → String
  | noProductions => "grammar has no productions"
  | badTerminal k => "`" ++ k.label ++ "` cannot appear in a production"
  | noProductionFor n => "nonterminal `" ++ n ++ "` has no productions"
  | unreachable n => "nonterminal `" ++ n ++ "` is unreachable from the start symbol"
  | unproductive n => "nonterminal `" ++ n ++ "` derives no terminal string"
  | conflict kind state lookahead first second =>
    kind.label ++ " conflict in state " ++ toString state ++ " on " ++ lookahead.label ++ ": `"
      ++ first ++ "` vs `" ++ second ++ "`"
  | tooLarge => "grammar is too large"

end ShaderTree
