import ShaderTree.Proofs.Grammar.Corners
import ShaderTree.Proofs.Grammar.Usability

/-! No first terminal is found for nothing: each of them starts something that the string of symbols
derives, which goes on to a word where every nonterminal derives one, and a string that is marked
nullable derives the empty word. -/
namespace ShaderTree

open Relation (ReflTransGen)

namespace Grammar

variable {g : Grammar} {xs ys : List Symbol}

theorem Vanishes.derives (vanishes : g.Vanishes xs) : ReflTransGen g.Produces xs [] := by
  obtain ⟨ps, parses⟩ := vanishes
  exact parses.derives

theorem vanishes_of_derives (derives : ReflTransGen g.Produces xs []) : g.Vanishes xs :=
  exists_parses (w := []) derives

/-- What declared symbols derive has declared symbols only. -/
theorem Declared.derives (declared : g.Declared) (derives : ReflTransGen g.Produces xs ys)
    (own : ∀ x ∈ xs, g.declares x = true) : ∀ y ∈ ys, g.declares y = true := by
  induction derives with
  | refl => exact own
  | tail _ step ih =>
    cases step with
    | @replace p production rule front back =>
      have inside := Array.mem_toList_iff.2 (Array.mem_of_getElem? rule.1)
      intro y member
      simp only [List.mem_append] at member
      rcases member with (member | member) | member
      · exact ih y (by simp [member])
      · exact declared.rhs _ inside y member
      · exact ih y (by simp [member])

/-- What starts with a terminal goes on to a word. -/
theorem exists_parses_of_first {k : Kind} (derives : ReflTransGen g.Produces xs (.terminal k :: ys))
    (each : ∀ y ∈ ys, g.Yields y) : ∃ w ps, g.Parses xs (k :: w) ps := by
  obtain ⟨w, ps, rest⟩ := exists_parses_of_yields each
  have whole : ReflTransGen g.Produces (.terminal k :: ys) (terminalWord (k :: w)) := by
    simpa using derives_within rest.derives [.terminal k] []
  exact ⟨w, exists_parses (derives.trans whole)⟩

end Grammar

namespace First

variable {g : Grammar} {known : Array First} {xs : List Symbol} {f : First}

/-- What is said of a string of symbols shows in what it derives. -/
structure Witnessed (g : Grammar) (xs : List Symbol) (f : First) : Prop where
  terminals : ∀ c, f.terminals.mem c = true →
    ∃ k rest, k.index = c ∧ ReflTransGen g.Produces xs (.terminal k :: rest)
  nullable : f.nullable = true → g.Vanishes xs

/-- What is said of each nonterminal does. -/
def AllWitnessed (g : Grammar) (known : Array First) : Prop :=
  ∀ (n : Nat) (f : First), known[n]? = some f → Witnessed g [.nonterminal n] f

theorem AllWitnessed.ofSymbols (all : AllWitnessed g known) (xs : List Symbol) :
    Witnessed g xs (ofSymbols known xs) := by
  induction xs with
  | nil => exact ⟨fun c none => by simp [First.ofSymbols, First.empty] at none,
      fun _ => Grammar.vanishes_nil⟩
  | cons x xs ih =>
    cases x with
    | terminal k =>
      refine ⟨fun c member => ?_, fun null => absurd null Bool.false_ne_true⟩
      simp only [First.ofSymbols, IndexSet.mem_insert, IndexSet.mem_empty, Bool.false_or,
        decide_eq_true_eq] at member
      exact ⟨k, xs, member, .refl⟩
    | nonterminal n =>
      unfold First.ofSymbols
      cases here : known[n]? with
      | none => exact ⟨fun c none => by simp at none, fun null => absurd null Bool.false_ne_true⟩
      | some f =>
        have first := all n f here
        have own (c : Nat) (member : f.terminals.mem c = true) : ∃ k rest, k.index = c ∧
            ReflTransGen g.Produces (.nonterminal n :: xs) (.terminal k :: rest) := by
          obtain ⟨k, rest, is, derives⟩ := first.terminals c member
          exact ⟨k, rest ++ xs, is, by simpa using Grammar.derives_within derives [] xs⟩
        dsimp only
        cases null : f.nullable with
        | false => exact ⟨own, fun null => absurd null Bool.false_ne_true⟩
        | true =>
          have vanishes := first.nullable null
          refine ⟨fun c member => ?_, fun rest => vanishes.append (ih.nullable rest)⟩
          simp only [if_true, IndexSet.mem_union, Bool.or_eq_true] at member
          rcases member with member | later
          · exact own c member
          · obtain ⟨k, rest, is, derives⟩ := ih.terminals c later
            have gone : ReflTransGen g.Produces (.nonterminal n :: xs) xs := by
              simpa using Grammar.derives_within vanishes.derives [] xs
            exact ⟨k, rest, is, gone.trans derives⟩

theorem AllWitnessed.learn (all : AllWitnessed g known) {p : Nat} {production : Production}
    (rule : g.IsRule p production) : AllWitnessed g (learn known production) := by
  intro n f here
  rw [getElem?_learn] at here
  split at here
  · rename_i lhs
    subst lhs
    obtain ⟨old, found, rfl⟩ := Option.map_eq_some_iff.1 here
    have before := all _ old found
    have rhs := all.ofSymbols production.rhs
    constructor
    · intro c member
      rw [IndexSet.mem_union, Bool.or_eq_true] at member
      rcases member with member | member
      · exact before.terminals c member
      · obtain ⟨k, rest, is, derives⟩ := rhs.terminals c member
        have replaced : g.Produces [.nonterminal production.lhs] production.rhs := by
          simpa using Grammar.Produces.replace rule [] []
        exact ⟨k, rest, is, .head replaced derives⟩
    · intro null
      rcases Bool.or_eq_true_iff.1 null with null | null
      · exact before.nullable null
      · exact (rhs.nullable null).symbol rule
  · exact all n f here

section

variable (declared : g.Declared)

include declared

/-- What the rounds over the productions find shows in derivations. -/
theorem allWitnessed_ofGrammar : AllWitnessed g (ofGrammar g) := by
  refine saturate_induction (fun n f here => ?_) (fun known all => ?_) _
  · rw [Array.getElem?_replicate] at here
    split at here
    · obtain rfl := Option.some.inj here
      exact ⟨fun c none => by simp at none, fun null => absurd null Bool.false_ne_true⟩
    · cases here
  · rw [← Array.foldl_toList]
    refine foldl_induction all fun known p member next => ?_
    obtain ⟨index, rule⟩ := declared.exists_isRule member
    exact next.learn rule

theorem nullable_ofSymbols : (ofSymbols (ofGrammar g) xs).nullable = true ↔ g.Vanishes xs := by
  constructor
  · exact ((allWitnessed_ofGrammar declared).ofSymbols xs).nullable
  · rintro ⟨ps, parses⟩
    exact (ofSymbols_complete parses).1 rfl

/-- Where every symbol derives a word, the first terminals of a string are those that its words start
with. -/
theorem mem_ofSymbols (yields : ∀ x, g.declares x = true → g.Yields x)
    (own : ∀ x ∈ xs, g.declares x = true) {c : Nat} :
    (ofSymbols (ofGrammar g) xs).terminals.mem c = true ↔
      ∃ k w ps, k.index = c ∧ g.Parses xs (k :: w) ps := by
  constructor
  · intro member
    obtain ⟨k, rest, is, derives⟩ :=
      ((allWitnessed_ofGrammar declared).ofSymbols xs).terminals c member
    have inside := declared.derives derives own
    obtain ⟨w, ps, parses⟩ := Grammar.exists_parses_of_first derives fun y member =>
      yields y (inside y (.tail _ member))
    exact ⟨k, w, ps, is, parses⟩
  · rintro ⟨k, w, ps, rfl, parses⟩
    exact (ofSymbols_complete parses).2 k w rfl

end

/-! What the marks and the sets say in derivations -/

/-- The nullable mark says whether a string of symbols derives the empty string, and, where all
nonterminals derive words, the set has the terminals that such words start with. -/
structure Exact (g : Grammar) (xs : List Symbol) (f : First) : Prop where
  nullable : f.nullable = true ↔ ReflTransGen g.Produces xs []
  terminals : g.AllHave g.Derives → ∀ k : Kind, f.terminals.mem k.index = true ↔
    ∃ w, ReflTransGen g.Produces xs (Grammar.terminalWord (k :: w))

theorem exact_ofSymbols (declared : g.Declared) (own : ∀ x ∈ xs, g.declares x = true) :
    Exact g xs (ofSymbols (ofGrammar g) xs) := by
  refine ⟨(nullable_ofSymbols declared).trans ⟨Grammar.Vanishes.derives, Grammar.vanishes_of_derives⟩,
    fun derive k => ?_⟩
  have yields (x : Symbol) (inside : g.declares x = true) : g.Yields x := by
    cases x with
    | terminal k => exact Grammar.yields_terminal k
    | nonterminal n =>
      obtain ⟨w, derives⟩ := derive n (of_decide_eq_true inside)
      exact ⟨w, Grammar.exists_parses derives⟩
  rw [mem_ofSymbols declared yields own]
  constructor
  · rintro ⟨k', w, ps, same, parses⟩
    obtain rfl := Kind.index_injective same
    exact ⟨w, parses.derives⟩
  · rintro ⟨w, derives⟩
    obtain ⟨ps, parses⟩ := Grammar.exists_parses derives
    exact ⟨k, w, ps, rfl, parses⟩

theorem ofSymbols_singleton {n : Nat} (here : known[n]? = some f) :
    ofSymbols known [.nonterminal n] = f := by
  obtain ⟨terminals, nullable⟩ := f
  have union : terminals.union .empty = terminals := IndexSet.eq_of_mem fun i => by simp
  cases nullable <;> simp [ofSymbols, here, empty, union]

/-- The rounds over the productions end where one more changes nothing, with the exact sets and marks
of all nonterminals, and those of every string of symbols are exact as well. -/
theorem ofGrammar_exact (declared : g.Declared) :
    g.productions.foldl learn (ofGrammar g) = ofGrammar g ∧
      (ofGrammar g).size = g.nonterminals.size ∧
      (∀ (n : Nat) (f : First), (ofGrammar g)[n]? = some f → Exact g [.nonterminal n] f) ∧
      ∀ xs, (∀ x ∈ xs, g.declares x = true) → Exact g xs (ofSymbols (ofGrammar g) xs) := by
  refine ⟨ofGrammar_fixed g, size_ofGrammar g, fun n f here => ?_, fun xs => exact_ofSymbols declared⟩
  have bound := (Array.getElem?_eq_some_iff.1 here).1
  rw [size_ofGrammar] at bound
  have own : ∀ x ∈ [Symbol.nonterminal n], g.declares x = true := by simp [Grammar.declares, bound]
  have exact := exact_ofSymbols declared own
  rwa [ofSymbols_singleton here] at exact

end First

/-- Each part of a phrase in front of its last terminal can be empty through others. -/
def Grammar.chained : Grammar :=
  { nonterminals := #[.hidden "phrase", .hidden "outer", .hidden "inner"]
    levels := #[]
    productions := #[⟨0, [.nonterminal 1, .nonterminal 2, .terminal .semicolon], none⟩,
      ⟨1, [.nonterminal 2, .nonterminal 2], none⟩, ⟨2, [], none⟩,
      ⟨2, [.terminal .lParen, .nonterminal 1], none⟩]
    start := 0 }

theorem First.ofGrammar_exact_chained :
    Grammar.chained.Declared ∧ ReflTransGen Grammar.chained.Produces [.nonterminal 1] [] ∧
      ¬ ReflTransGen Grammar.chained.Produces [.nonterminal 0] [] ∧
      ∃ w, ReflTransGen Grammar.chained.Produces [.nonterminal 1, .nonterminal 0]
        (Grammar.terminalWord (.semicolon :: w)) := by
  have declared : Grammar.chained.Declared := ⟨by decide, by decide, by decide⟩
  have derive : Grammar.chained.AllHave Grammar.chained.Derives := fun n inside =>
    (Grammar.mem_productive_iff declared).1 (by revert n; decide)
  obtain ⟨_, _, _, strings⟩ := ofGrammar_exact declared
  have outer := strings [.nonterminal 1] (by decide)
  have phrase := strings [.nonterminal 0] (by decide)
  have both := strings [.nonterminal 1, .nonterminal 0] (by decide)
  exact ⟨declared, outer.nullable.1 (by decide), fun empty => absurd (phrase.nullable.2 empty) (by decide),
    (both.terminals derive .semicolon).1 (by decide)⟩

end ShaderTree
