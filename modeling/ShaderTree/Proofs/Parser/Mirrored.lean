import ShaderTree.Proofs.Parser.Unspaced

/-! Stacks of two parses, one of which reads blanks and comments where the other reads none. Their
symbols and repairs are the same; besides, the first stack has entries for what is left out of the
second. -/
namespace ShaderTree

open ShaderTree.Tree (gist plainAll leavesAll)
open Token (label chars hasText unspaced closeUp)

theorem Entry.isSymbol_eq {e e' : Entry} (role : e'.role = e.role) : e'.isSymbol = e.isSymbol := by
  rw [isSymbol, isSymbol, role]

namespace Config

/-- The second stack is the first one without its blanks. Offsets do not matter. -/
inductive Mirrored : List Entry → List Entry → Prop
  | nil : Mirrored [] []
  | blank {e : Entry} {below below' : List Entry} (rest : Mirrored below below')
      (role : e.role = .extra) (undamaged : e.damaged = false) (same : e.state = topState below)
      (blank : gist e.children = []) : Mirrored (e :: below) below'
  | entry {e e' : Entry} {below below' : List Entry} (rest : Mirrored below below')
      (state : e'.state = e.state) (role : e'.role = e.role) (damaged : e'.damaged = e.damaged)
      (children : plainAll e'.children = gist e.children) : Mirrored (e :: below) (e' :: below')

namespace Mirrored

variable {stack stack' lower lower' : List Entry}

theorem topState_eq (mirrored : Mirrored stack stack') : topState stack' = topState stack := by
  induction mirrored with
  | nil => rfl
  | blank _ _ _ same _ ih => exact ih.trans same.symm
  | entry _ state => exact state

theorem states_eq (mirrored : Mirrored stack stack') :
    (stack'.filter Entry.isSymbol).map (·.state) = (stack.filter Entry.isSymbol).map (·.state) := by
  induction mirrored with
  | nil => rfl
  | blank _ role _ _ _ ih => rw [ih, List.filter_cons_of_neg (by simp [Entry.isSymbol, role])]
  | @entry e e' below below' _ state role _ _ ih =>
    have same := Entry.isSymbol_eq role
    cases symbol : e.isSymbol with
    | true =>
      rw [List.filter_cons_of_pos (same.trans symbol), List.filter_cons_of_pos symbol, List.map_cons,
        List.map_cons, ih, state]
    | false =>
      rw [List.filter_cons_of_neg (by simp [same, symbol]), List.filter_cons_of_neg (by simp [symbol]),
        ih]

theorem trees_eq {e e' : Entry} (role : e'.role = e.role)
    (children : plainAll e'.children = gist e.children) : plainAll e'.trees = gist e.trees := by
  unfold Entry.trees
  rw [role]
  split
  · rw [Tree.gist_node, Tree.gist_nil, ← children]
    rfl
  · exact children

theorem trees_blank {e : Entry} (role : e.role = .extra) (blank : gist e.children = []) :
    gist e.trees = [] := by
  simpa [Entry.trees, role] using blank

theorem forest_eq (mirrored : Mirrored stack stack') :
    plainAll (forest stack') = gist (forest stack) := by
  induction mirrored with
  | nil => exact Tree.gist_nil.symm
  | blank _ role _ _ blank ih =>
    rw [forest_cons, Tree.gist_append, trees_blank role blank, ih, List.append_nil]
  | entry _ _ role _ children ih =>
    rw [forest_cons, forest_cons, Tree.plainAll_append, Tree.gist_append, ih, trees_eq role children]

theorem word_eq (mirrored : Mirrored stack stack') : word stack' = unspaced (word stack) := by
  have leaves (entries : List Entry) : word entries = leavesAll (forest entries) := by
    rw [forest, leavesAll_flatMap_trees, List.reverse_reverse]
  rw [leaves, leaves, ← Tree.leavesAll_plainAll, mirrored.forest_eq, Tree.leavesAll_gist]

/-- Taking symbols off takes the same off both. -/
theorem pop (mirrored : Mirrored stack stack') (n : Nat) :
    Mirrored (Config.pop n stack).2 (Config.pop n stack').2 ∧
      plainAll ((Config.pop n stack').1.flatMap Entry.trees) =
        gist ((Config.pop n stack).1.flatMap Entry.trees) ∧
      (Config.pop n stack').1.any (·.damaged) = (Config.pop n stack).1.any (·.damaged) := by
  induction mirrored generalizing n with
  | nil => cases n <;> exact ⟨.nil, Tree.gist_nil.symm, rfl⟩
  | @blank e below below' rest role undamaged same blank ih =>
    have hidden : e.isSymbol = false := by simp [Entry.isSymbol, role]
    cases n with
    | zero =>
      have none : Config.pop 0 below' = ([], below') := by cases below' <;> rfl
      rw [none]
      exact ⟨.blank rest role undamaged same blank, Tree.gist_nil.symm, rfl⟩
    | succ n =>
      obtain ⟨under, trees, damaged⟩ := ih (n + 1)
      simp only [Config.pop, hidden, Bool.false_eq_true, if_false, List.flatMap_append,
        List.flatMap_singleton, Tree.gist_append, trees_blank role blank, List.append_nil,
        List.any_append, List.any_cons, undamaged, List.any_nil, Bool.or_false]
      exact ⟨under, trees, damaged⟩
  | @entry e e' below below' rest state role damaged children ih =>
    cases n with
    | zero => exact ⟨.entry rest state role damaged children, Tree.gist_nil.symm, rfl⟩
    | succ n =>
      have same := Entry.isSymbol_eq role
      obtain ⟨under, trees, any⟩ := ih (if e.isSymbol then n else n + 1)
      simp only [Config.pop, same, List.flatMap_append, List.flatMap_singleton, Tree.gist_append,
        Tree.plainAll_append, trees_eq role children, List.any_append, List.any_cons, List.any_nil,
        damaged]
      exact ⟨under, by rw [trees], by rw [any]⟩

theorem dropWhile (mirrored : Mirrored stack stack') :
    Mirrored (stack.dropWhile (!·.isSymbol)) (stack'.dropWhile (!·.isSymbol)) := by
  induction mirrored with
  | nil => exact .nil
  | blank _ role _ _ _ ih => rwa [List.dropWhile_cons_of_pos (by simp [Entry.isSymbol, role])]
  | @entry e e' below below' rest state role damaged children ih =>
    have same := Entry.isSymbol_eq role
    cases symbol : e.isSymbol with
    | true =>
      rw [List.dropWhile_cons_of_neg (by simp [symbol]), List.dropWhile_cons_of_neg (by simp [same, symbol])]
      exact .entry rest state role damaged children
    | false =>
      rwa [List.dropWhile_cons_of_pos (by simp [symbol]), List.dropWhile_cons_of_pos (by simp [same, symbol])]

theorem topState_raised {entries : List Entry} {next : Nat} (top : topState lower = next) :
    topState (entries.map (fun e => { e with state := next }) ++ lower) = next := by
  cases entries with
  | nil => exact top
  | cons e es => rfl

/-- What is not a symbol goes from the top of a stack to the top of another one. -/
theorem raise (mirrored : Mirrored stack stack') (under : Mirrored lower lower') {next : Nat}
    (top : topState lower = next) :
    Mirrored ((stack.takeWhile (!·.isSymbol)).map (fun e => { e with state := next }) ++ lower)
      ((stack'.takeWhile (!·.isSymbol)).map (fun e => { e with state := next }) ++ lower') := by
  induction mirrored with
  | nil => exact under
  | blank _ role undamaged _ blank ih =>
    rw [List.takeWhile_cons_of_pos (by simp [Entry.isSymbol, role])]
    exact .blank ih role undamaged (topState_raised top).symm blank
  | @entry e e' below below' rest state role damaged children ih =>
    have same := Entry.isSymbol_eq role
    cases symbol : e.isSymbol with
    | true =>
      rw [List.takeWhile_cons_of_neg (by simp [symbol]), List.takeWhile_cons_of_neg (by simp [same, symbol])]
      exact under
    | false =>
      rw [List.takeWhile_cons_of_pos (by simp [symbol]), List.takeWhile_cons_of_pos (by simp [same, symbol])]
      exact .entry ih rfl role damaged children

/-- Blanks may be put on the first stack. -/
theorem extras (mirrored : Mirrored stack stack') {tokens : List Token}
    (blank : ∀ t ∈ tokens, t.kind.isTrivia = true) {state : Nat} (top : topState stack = state) :
    Mirrored (Config.extras state tokens ++ stack) stack' := by
  induction tokens generalizing stack with
  | nil => exact mirrored
  | cons t ts ih =>
    obtain ⟨own, others⟩ := List.forall_mem_cons.1 blank
    have pushed : Mirrored (⟨state, .extra, false, t.start, [leaf t]⟩ :: stack) stack' :=
      .blank mirrored rfl rfl top.symm ((Tree.gist_blank own _ _).trans Tree.gist_nil)
    have split : Config.extras state (t :: ts) ++ stack =
        Config.extras state ts ++ (⟨state, .extra, false, t.start, [leaf t]⟩ :: stack) := by
      simp [Config.extras]
    rw [split]
    exact ih pushed others rfl

end Mirrored

end Config

end ShaderTree
