import ShaderTree.Grammar.First
import ShaderTree.Table.Automaton

/-!
Lookaheads of the automaton's items: the terminals that can follow the item's production in the
state. Inside a state they spread from an item in front of a nonterminal to that nonterminal's
starts, between states along the transitions; both are least fixed points.
-/
namespace ShaderTree

structure Analysis where
  grammar : Grammar
  starts : Array (List Item)
  first : Array First
  automaton : Automaton

namespace Analysis

def ofGrammar (g : Grammar) : Analysis :=
  { grammar := g
    starts := (Array.range g.nonterminals.size).map g.startsOf
    first := First.ofGrammar g
    automaton := .ofGrammar g }

def startsOf (a : Analysis) (nonterminal : Nat) : List Item := a.starts[nonterminal]?.getD []

end Analysis

/-- Lookaheads inside one state. The starts of a nonterminal are added together and always have the
same lookaheads, so they are kept by nonterminal, in the order of their addition. -/
structure Spread where
  order : List Nat
  lookaheads : Array (Option IndexSet)

namespace Spread

def empty (nonterminals : Nat) : Spread := ⟨[], Array.replicate nonterminals none⟩

def get? (s : Spread) (nonterminal : Nat) : Option IndexSet := s.lookaheads[nonterminal]?.join

/-- Lets `follow` follow a nonterminal; `none` when nothing changes. -/
def add? (s : Spread) (nonterminal : Nat) (follow : IndexSet) : Option Spread :=
  match s.get? nonterminal with
  | none => some ⟨s.order ++ [nonterminal], s.lookaheads.setIfInBounds nonterminal (some follow)⟩
  | some old =>
    let new := old.union follow
    if new = old then none
    else some { s with lookaheads := s.lookaheads.setIfInBounds nonterminal (some new) }

/-- Works off a stack of items. The starts whose lookaheads change are put on it, the last one on
top. -/
def work (a : Analysis) (own : Item → IndexSet) : Nat → List Item → Spread → Spread
  | _, [], s => s
  | 0, _ :: _, s => s
  | fuel + 1, i :: stack, s =>
    match a.grammar.next? i with
    | some (.nonterminal n) =>
      let rest := First.ofSymbols a.first ((a.grammar.rhs i.production).drop (i.dot + 1))
      let lookahead := if i.dot = 0 ∧ i.production ≠ a.grammar.startRule then
          (a.grammar.productions[i.production]?.bind fun p => s.get? p.lhs).getD .empty
        else own i
      let follow := if rest.nullable then rest.terminals.union lookahead else rest.terminals
      match s.add? n follow with
      | some s => work a own fuel ((a.startsOf n).reverse ++ stack) s
      | none => work a own fuel stack s
    | _ => work a own fuel stack s

end Spread

namespace Analysis

/-- The items of a state with their lookaheads, given those of its kernel. Each start is put on the
stack when it is added and when its lookaheads grow, which bounds the work. -/
def closeState (a : Analysis) (kernel : List (Item × IndexSet)) : List (Item × IndexSet) :=
  let own (i : Item) : IndexSet := ((kernel.find? (·.1 = i)).map (·.2)).getD .empty
  let fuel := kernel.length + a.grammar.productions.size * (Kind.terminalCount + 1)
  let spread := Spread.work a own fuel (kernel.map (·.1)).reverse
    (.empty a.grammar.nonterminals.size)
  kernel ++ spread.order.flatMap fun n =>
    (a.startsOf n).map fun i => (i, (spread.get? n).getD .empty)

/-- Kernel lookaheads, state by state in the order of the kernel's items. -/
abbrev Lookaheads := Array (List IndexSet)

def kernelOf (a : Analysis) (state : Nat) : List Item :=
  match a.automaton.states[state]? with
  | some s => s.kernel
  | none => []

def target? (a : Analysis) (state : Nat) (x : Symbol) : Option Nat := do
  let s ← a.automaton.states[state]?
  (s.transitions.find? (·.1 = x)).map (·.2)

def itemsWith (a : Analysis) (known : Lookaheads) (state : Nat) : List (Item × IndexSet) :=
  a.closeState ((a.kernelOf state).zip (known[state]?.getD []))

def passItem (a : Analysis) (state : Nat) (known : Lookaheads) (entry : Item × IndexSet) :
    Lookaheads :=
  match (a.grammar.next? entry.1).bind (a.target? state) with
  | none => known
  | some target =>
    match (a.kernelOf target).findIdx? (· = entry.1.advance) with
    | none => known
    | some slot => known.modify target fun sets => sets.modify slot (·.union entry.2)

def passState (a : Analysis) (known : Lookaheads) (state : Nat) : Lookaheads :=
  (a.itemsWith known state).foldl (a.passItem state) known

def saturate (a : Analysis) : Nat → Lookaheads → Lookaheads
  | 0, known => known
  | n + 1, known =>
    let next := (List.range a.automaton.states.size).foldl a.passState known
    if next = known then known else saturate a n next

def initialLookaheads (a : Analysis) : Lookaheads :=
  let none := a.automaton.states.map fun s => s.kernel.map fun _ => IndexSet.empty
  none.modify 0 fun sets => sets.modify 0 (·.insert Kind.eof.index)

/-- Lookaheads of all kernel items. Each round but the last adds a terminal somewhere. -/
def lookaheads (a : Analysis) : Lookaheads :=
  let kernelItems := a.automaton.states.foldl (fun n s => n + s.kernel.length) 0
  a.saturate (kernelItems * Kind.terminalCount + 1) a.initialLookaheads

end Analysis

end ShaderTree
