import Mathlib.Logic.Relation
import ShaderTree.Grammar.Basic

/-! What a grammar generates: by replacing nonterminals anywhere, by replacing the last one only, and
by trees, which list their productions in the order in which a parser from left to right completes
them. A production counts only for a nonterminal that the grammar declares. -/
namespace ShaderTree.Grammar

variable {g : Grammar} {xs ys zs : List Symbol} {u v w : List Kind} {ps qs : List Nat}

/-- A production by its number, for a nonterminal of the grammar. -/
def IsRule (g : Grammar) (p : Nat) (production : Production) : Prop :=
  g.productions[p]? = some production ∧ production.lhs < g.nonterminals.size

theorem IsRule.mem {p : Nat} {production : Production} (rule : g.IsRule p production) :
    production ∈ g.productions.toList :=
  Array.mem_toList_iff.2 (Array.mem_of_getElem? rule.1)

theorem IsRule.mem_zipIdx {p : Nat} {production : Production} (rule : g.IsRule p production) :
    (production, p) ∈ g.productions.toList.zipIdx :=
  List.mem_zipIdx_iff_getElem?.2 (by rw [Array.getElem?_toList]; exact rule.1)

/-- One nonterminal is replaced by the right-hand side of one of its productions. -/
inductive Produces (g : Grammar) : List Symbol → List Symbol → Prop
  | replace {p : Nat} {production : Production} (rule : g.IsRule p production)
      (front back : List Symbol) : Produces g
        (front ++ .nonterminal production.lhs :: back) (front ++ production.rhs ++ back)

def terminalWord (w : List Kind) : List Symbol := w.map .terminal

@[simp] theorem terminalWord_nil : terminalWord [] = [] := rfl

@[simp] theorem terminalWord_cons (k : Kind) (w : List Kind) :
    terminalWord (k :: w) = .terminal k :: terminalWord w := rfl

@[simp] theorem terminalWord_append (v w : List Kind) :
    terminalWord (v ++ w) = terminalWord v ++ terminalWord w := by
  simp [terminalWord]

/-- The words of the language. -/
def Generates (g : Grammar) (w : List Kind) : Prop :=
  Relation.ReflTransGen g.Produces [.nonterminal g.start] (terminalWord w)

/-- A derivation that always replaces the last nonterminal, by the productions in their order. -/
inductive RightDerives (g : Grammar) : List Nat → List Symbol → List Symbol → Prop
  | refl (xs : List Symbol) : RightDerives g [] xs xs
  | step {p : Nat} {production : Production} {ps : List Nat} {front ys : List Symbol}
      {w : List Kind} (rule : g.IsRule p production)
      (later : RightDerives g ps (front ++ production.rhs ++ terminalWord w) ys) :
      RightDerives g (p :: ps) (front ++ .nonterminal production.lhs :: terminalWord w) ys

theorem RightDerives.produces (derives : g.RightDerives ps xs ys) :
    Relation.ReflTransGen g.Produces xs ys := by
  induction derives with
  | refl xs => exact .refl
  | step rule later ih => exact .head (.replace rule _ _) ih

/-- Trees over symbols for a word, with their productions in postorder. -/
inductive Parses (g : Grammar) : List Symbol → List Kind → List Nat → Prop
  | nil : Parses g [] [] []
  | terminal (k : Kind) {xs : List Symbol} {w : List Kind} {ps : List Nat}
      (rest : Parses g xs w ps) : Parses g (.terminal k :: xs) (k :: w) ps
  | nonterminal {p : Nat} {production : Production} {xs : List Symbol} {v w : List Kind}
      {ps qs : List Nat} (rule : g.IsRule p production) (own : Parses g production.rhs v ps)
      (rest : Parses g xs w qs) :
      Parses g (.nonterminal production.lhs :: xs) (v ++ w) (ps ++ p :: qs)

theorem Parses.append (front : g.Parses xs v ps) (back : g.Parses ys w qs) :
    g.Parses (xs ++ ys) (v ++ w) (ps ++ qs) := by
  induction front with
  | nil => exact back
  | terminal k rest ih => exact .terminal k ih
  | nonterminal rule own rest ihOwn ih =>
    rw [List.cons_append, List.append_assoc, List.append_assoc, List.cons_append]
    exact .nonterminal rule own ih

theorem Parses.split (parses : g.Parses (xs ++ ys) w ps) : ∃ u v qs rs,
    w = u ++ v ∧ ps = qs ++ rs ∧ g.Parses xs u qs ∧ g.Parses ys v rs := by
  induction xs generalizing w ps with
  | nil => exact ⟨[], w, [], ps, rfl, rfl, .nil, parses⟩
  | cons x xs ih =>
    rw [List.cons_append] at parses
    cases parses with
    | terminal k rest =>
      obtain ⟨u, v, qs, rs, rfl, rfl, front, back⟩ := ih rest
      exact ⟨k :: u, v, qs, rs, rfl, rfl, .terminal k front, back⟩
    | @nonterminal p production _ own _ ps _ rule children rest =>
      obtain ⟨u, v, qs, rs, rfl, rfl, front, back⟩ := ih rest
      refine ⟨own ++ u, v, ps ++ p :: qs, rs, ?_, ?_, .nonterminal rule children front, back⟩
      · rw [List.append_assoc]
      · rw [List.append_assoc, List.cons_append]

theorem parses_terminalWord (w : List Kind) : g.Parses (terminalWord w) w [] := by
  induction w with
  | nil => exact .nil
  | cons k w ih => exact .terminal k ih

/-- One replacement becomes one more node. -/
theorem Produces.parses (step : g.Produces xs ys) (parses : g.Parses ys w ps) :
    ∃ qs, g.Parses xs w qs := by
  cases step with
  | @replace p production rule front back =>
    rw [List.append_assoc] at parses
    obtain ⟨u, v, _, _, rfl, rfl, inFront, others⟩ := parses.split
    obtain ⟨own, behind, _, _, rfl, rfl, children, inBack⟩ := others.split
    exact ⟨_, inFront.append (.nonterminal rule children inBack)⟩

/-- What can be derived has a tree. -/
theorem exists_parses (derives : Relation.ReflTransGen g.Produces xs (terminalWord w)) :
    ∃ ps, g.Parses xs w ps := by
  induction derives using Relation.ReflTransGen.head_induction_on with
  | refl => exact ⟨[], parses_terminalWord w⟩
  | head step _ ih =>
    obtain ⟨ps, parses⟩ := ih
    exact step.parses parses

end ShaderTree.Grammar
