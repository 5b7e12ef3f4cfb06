import Mathlib.Data.List.TakeWhile
import ShaderTree.Proofs.Grammar.Expansion
import ShaderTree.Proofs.Parser.Conservation
import ShaderTree.Proofs.Table.States

/-! The entries of a stack spell what the automaton has read: each symbol's elements are what the
grammar allows for it. Every move keeps this, repairs included, so that a reduction finds the
right-hand side of its production. -/
namespace ShaderTree

open ShaderTree.Tree (outlines outline AllConformIn AllConform)

/-- A stack whose symbols lead from the first state to its top. Blanks and given-up text in between
repeat the state below them and show nothing. -/
inductive Viable (g : Grammar) : List Entry → List Symbol → Prop
  | nil : Viable g [] []
  | extra {e : Entry} {below : List Entry} {path : List Symbol} (rest : Viable g below path)
      (role : e.isSymbol = false) (same : e.state = Config.topState below)
      (blank : outlines e.trees = []) : Viable g (e :: below) path
  | symbol {e : Entry} {below : List Entry} {path : List Symbol} {x : Symbol}
      (rest : Viable g below path) (role : e.isSymbol = true)
      (leads : g.Leads (Config.topState below) x e.state)
      (expands : g.Expands [x] (outlines e.trees)) : Viable g (e :: below) (x :: path)

namespace Viable

open Config

variable {g : Grammar} {stack : List Entry} {path : List Symbol}

theorem reaches (viable : Viable g stack path) : g.Reaches path (topState stack) := by
  induction viable with
  | nil => exact .start
  | extra rest role same blank ih =>
    rw [← same] at ih
    exact ih
  | symbol rest role leads expands ih => exact .step ih leads

theorem length_filter (viable : Viable g stack path) :
    (stack.filter Entry.isSymbol).length = path.length := by
  induction viable with
  | nil => rfl
  | extra rest role same blank ih => rw [List.filter_cons_of_neg (by simp [role]), ih]
  | symbol rest role leads own ih =>
    rw [List.filter_cons_of_pos role, List.length_cons, ih, List.length_cons]

theorem topState_eq_zero (viable : Viable g stack path) (none : path = []) :
    topState stack = 0 := by
  induction viable with
  | nil => rfl
  | extra rest role same blank ih => exact same.trans (ih none)
  | symbol => cases none

/-- All entries together show what the symbols expand to. -/
theorem expands (viable : Viable g stack path) :
    g.Expands path.reverse (outlines (stack.reverse.flatMap Entry.trees)) := by
  induction viable with
  | nil => exact .nil
  | extra rest role same blank ih =>
    rw [List.reverse_cons, List.flatMap_append, List.flatMap_singleton, Tree.outlines_append, blank,
      List.append_nil]
    exact ih
  | symbol rest role leads own ih =>
    rw [List.reverse_cons, List.reverse_cons, List.flatMap_append, List.flatMap_singleton,
      Tree.outlines_append]
    exact ih.append own

/-- Taking symbols off a stack gives what they expand to. -/
theorem pop (viable : Viable g stack path) (n : Nat) :
    Viable g (Config.pop n stack).2 (path.drop n) ∧
      g.Expands (path.take n).reverse (outlines ((Config.pop n stack).1.flatMap Entry.trees)) := by
  induction viable generalizing n with
  | nil =>
    cases n with
    | zero => exact ⟨.nil, .nil⟩
    | succ n => exact ⟨.nil, .nil⟩
  | @extra e below path rest role same blank ih =>
    cases n with
    | zero => exact ⟨.extra rest role same blank, .nil⟩
    | succ n =>
      obtain ⟨under, shown⟩ := ih (n + 1)
      simp only [Config.pop, role, Bool.false_eq_true, if_false, List.flatMap_append,
        List.flatMap_singleton, Tree.outlines_append, blank, List.append_nil]
      exact ⟨under, shown⟩
  | @symbol e below path x rest role leads expands ih =>
    cases n with
    | zero => exact ⟨.symbol rest role leads expands, .nil⟩
    | succ n =>
      obtain ⟨under, shown⟩ := ih n
      simp only [Config.pop, role, if_true, List.flatMap_append, List.flatMap_singleton,
        Tree.outlines_append, List.take_succ_cons, List.reverse_cons, List.drop_succ_cons]
      exact ⟨under, shown.append expands⟩

/-- Without the extra entries on top a stack shows the same. -/
theorem dropWhile (viable : Viable g stack path) :
    Viable g (stack.dropWhile (!·.isSymbol)) path ∧
      ∀ e ∈ stack.takeWhile (!·.isSymbol), e.isSymbol = false ∧ outlines e.trees = [] := by
  induction viable with
  | nil => exact ⟨.nil, by simp⟩
  | extra rest role same blank ih =>
    obtain ⟨under, above⟩ := ih
    simp only [List.dropWhile_cons, List.takeWhile_cons, role, Bool.not_false, if_true]
    refine ⟨under, ?_⟩
    intro e member
    rcases List.mem_cons.mp member with rfl | member
    · exact ⟨role, blank⟩
    · exact above e member
  | symbol rest role leads expands ih =>
    simp only [List.dropWhile_cons, List.takeWhile_cons, role, Bool.not_true, Bool.false_eq_true,
      if_false]
    exact ⟨.symbol rest role leads expands, by simp⟩

/-- Extra entries may be put on top. -/
theorem raise (viable : Viable g stack path) (extras : List Entry)
    (repeats : ∀ e ∈ extras, e.isSymbol = false ∧ e.state = topState stack ∧ outlines e.trees = []) :
    Viable g (extras ++ stack) path := by
  induction extras with
  | nil => exact viable
  | cons e es ih =>
    obtain ⟨role, same, blank⟩ := repeats e (by simp)
    refine .extra (ih fun e member => repeats e (by simp [member])) role ?_ blank
    rw [same]
    cases es with
    | nil => rfl
    | cons f fs => exact (repeats f (by simp)).2.1.symm

end Viable

/-- The stack is viable, the nodes on it conform, and only blanks and comments were set aside. -/
structure Config.Conforms (g : Grammar) (c : Config) : Prop where
  path : ∃ path, Viable g c.stack path
  nodes : ∀ e ∈ c.stack, AllConformIn g e.children
  pending : ∀ t ∈ c.pending, t.kind.isTrivia = true

namespace Config

variable {g : Grammar} {c : Config}

theorem conforms_initial (tokens : List Token) : (initial tokens).Conforms g :=
  ⟨⟨[], .nil⟩, by simp [initial], by simp [initial]⟩

theorem Conforms.settle (conforms : c.Conforms g) : c.settle.Conforms g := by
  obtain ⟨path, nodes, pending⟩ := conforms
  refine ⟨path, nodes, ?_⟩
  intro t member
  rcases List.mem_append.mp member with old | new
  · exact pending t old
  · simpa using List.mem_takeWhile_imp new

theorem blank_extras {state : Nat} {tokens : List Token}
    (trivia : ∀ t ∈ tokens, t.kind.isTrivia = true) : ∀ e ∈ extras state tokens,
    e.isSymbol = false ∧ e.state = state ∧ outlines e.trees = [] ∧ AllConformIn g e.children := by
  intro e member
  obtain ⟨t, inside, rfl⟩ := List.mem_map.1 (List.mem_reverse.1 member)
  refine ⟨rfl, rfl, ?_, ?_⟩
  · simp [Entry.trees, leaf, outline, trivia t inside]
  · simp [leaf]

theorem Conforms.flush (conforms : c.Conforms g) : c.flush.Conforms g := by
  obtain ⟨⟨path, viable⟩, nodes, pending⟩ := conforms
  rw [flush_eq]
  refine ⟨⟨path, viable.raise _ fun e member => ?_⟩, ?_, by simp⟩
  · obtain ⟨role, same, blank, _⟩ := blank_extras (g := g) pending e member
    exact ⟨role, same, blank⟩
  · intro e member
    rcases List.mem_append.mp member with new | old
    · exact (blank_extras pending e new).2.2.2
    · exact nodes e old

/-- A symbol may be put on top. -/
theorem Conforms.push (conforms : c.Conforms g) {e : Entry} {x : Symbol}
    (role : e.isSymbol = true) (leads : g.Leads c.top x e.state)
    (expands : g.Expands [x] (outlines e.trees)) (below : AllConformIn g e.children)
    {c' : Config} (stack : c'.stack = e :: c.stack) (pending : c'.pending = c.pending) :
    c'.Conforms g := by
  obtain ⟨⟨path, viable⟩, nodes, trivia⟩ := conforms
  refine ⟨⟨x :: path, stack ▸ .symbol viable role leads expands⟩, ?_, pending ▸ trivia⟩
  intro f member
  rw [stack] at member
  rcases List.mem_cons.mp member with rfl | member
  · exact below
  · exact nodes f member

theorem allConformIn_leaves (tokens : List Token) : AllConformIn g (tokens.map leaf) := by
  induction tokens with
  | nil => simp
  | cons t ts ih => exact (Tree.allConformIn_cons _ _).2 ⟨Tree.allConform_leaf _ _, ih⟩

theorem allConformIn_trees (names : g.NamesNodes) {e : Entry} (below : AllConformIn g e.children) :
    AllConformIn g e.trees := by
  unfold Entry.trees
  split
  · refine (Tree.allConformIn_cons _ _).2 ⟨Tree.allConform_node.2 ⟨?_, below⟩, by simp⟩
    exact Tree.conformsTo_reserved names (.inl rfl)
  · exact below

theorem allConformIn_flatMap_trees (names : g.NamesNodes) {entries : List Entry}
    (nodes : ∀ e ∈ entries, AllConformIn g e.children) :
    AllConformIn g (entries.flatMap Entry.trees) := by
  induction entries with
  | nil => simp
  | cons e es ih =>
    rw [List.flatMap_cons]
    exact (Tree.allConformIn_append _ _).2 ⟨allConformIn_trees names (nodes e (by simp)),
      ih fun f member => nodes f (by simp [member])⟩

end Config

end ShaderTree
