import ShaderTree.Grammar.Basic
import ShaderTree.IndexSet

/-!
The automaton of viable prefixes. A state is its kernel: the items with the dot behind the symbol
that leads to the state, and the start item in state 0. States are numbered in the order in which
they are found, symbols of a state in the order in which its items show them.
-/
namespace ShaderTree

/-- A production with a dot in its right-hand side. The number behind the last production stands
for the start rule, whose right-hand side is the start symbol. -/
structure Item where
  production : Nat
  dot : Nat
  deriving DecidableEq

namespace Item

def le (a b : Item) : Bool :=
  a.production < b.production || a.production == b.production && a.dot ≤ b.dot

def advance (i : Item) : Item := { i with dot := i.dot + 1 }

def insert (i : Item) : List Item → List Item
  | [] => [i]
  | j :: js => if i.le j then i :: j :: js else j :: insert i js

def sort (items : List Item) : List Item := items.foldr insert []

end Item

namespace Grammar

def startRule (g : Grammar) : Nat := g.productions.size

def startItem (g : Grammar) : Item := ⟨g.startRule, 0⟩

def rhs (g : Grammar) (production : Nat) : List Symbol :=
  match g.productions[production]? with
  | some p => p.rhs
  | none => [.nonterminal g.start]

def next? (g : Grammar) (i : Item) : Option Symbol := (g.rhs i.production)[i.dot]?

def startsOf (g : Grammar) (nonterminal : Nat) : List Item :=
  (g.productionsOf nonterminal).map fun p => ⟨p, 0⟩

/-- Items of a state from those of its queue: an item in front of a nonterminal seen for the first
time brings that nonterminal's starts to the end of the queue. -/
def closeQueue (g : Grammar) (starts : Nat → List Item) : Nat → List Item → IndexSet → List Item
  | _, [], _ => []
  | 0, _ :: _, _ => []
  | fuel + 1, i :: queue, seen =>
    match g.next? i with
    | some (.nonterminal n) =>
      if seen.mem n then i :: closeQueue g starts fuel queue seen
      else i :: closeQueue g starts fuel (queue ++ starts n) (seen.insert n)
    | _ => i :: closeQueue g starts fuel queue seen

def closure (g : Grammar) (starts : Nat → List Item) (kernel : List Item) : List Item :=
  closeQueue g starts (kernel.length + g.productions.size) kernel .empty

end Grammar

structure AutomatonState where
  kernel : List Item
  transitions : List (Symbol × Nat)

structure Automaton where
  states : Array AutomatonState

namespace Automaton

def moves (g : Grammar) : List Item → List (Symbol × List Item)
  | [] => []
  | i :: rest =>
    match g.next? i with
    | none => moves g rest
    | some x =>
      let later := moves g rest
      let same := later.find? (·.1 = x)
      (x, i.advance :: (same.map (·.2)).getD []) :: later.filter (·.1 ≠ x)

/-- Number of a kernel, the next free one if it is new. -/
def intern (kernels : Array (List Item)) (kernel : List Item) : Array (List Item) × Nat :=
  match kernels.findIdx? (· = kernel) with
  | some i => (kernels, i)
  | none => (kernels.push kernel, kernels.size)

def internAll (kernels : Array (List Item)) :
    List (Symbol × List Item) → Array (List Item) × List (Symbol × Nat)
  | [] => (kernels, [])
  | (x, items) :: rest =>
    let (kernels, target) := intern kernels (Item.sort items)
    let (kernels, transitions) := internAll kernels rest
    (kernels, (x, target) :: transitions)

def explore (g : Grammar) (starts : Nat → List Item) :
    Nat → Array (List Item) → Array AutomatonState → Array AutomatonState
  | 0, _, done => done
  | fuel + 1, kernels, done =>
    match kernels[done.size]? with
    | none => done
    | some kernel =>
      let (kernels, transitions) := internAll kernels (moves g (g.closure starts kernel))
      explore g starts fuel kernels (done.push ⟨kernel, transitions⟩)

def itemCount (g : Grammar) : Nat :=
  g.productions.foldl (fun n p => n + p.rhs.length + 1) 2

def ofGrammar (g : Grammar) : Automaton :=
  let table := (Array.range g.nonterminals.size).map g.startsOf
  let starts (n : Nat) : List Item := table[n]?.getD []
  ⟨explore g starts (Nat.pow 2 (itemCount g)) #[[g.startItem]] #[]⟩

end Automaton

end ShaderTree
