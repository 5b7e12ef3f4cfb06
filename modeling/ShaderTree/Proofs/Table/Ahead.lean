import ShaderTree.Proofs.Bits
import ShaderTree.Proofs.Grammar.First
import ShaderTree.Proofs.Table.Propagation

/-! Which terminals can start what a nonterminal derives, and which can follow it in any state. Tables
of both are large enough if no production adds to them, however they were found. -/
namespace ShaderTree

open Bits

namespace Grammar

variable {g : Grammar}

/-- The productions in the order of their numbers, the start rule included. -/
def rules (g : Grammar) : List Production :=
  g.productions.toList ++ [⟨g.nonterminals.size, [.nonterminal g.start], none⟩]

/-- Left-hand side of a production. The start rule has one of its own. -/
def lhs (g : Grammar) (production : Nat) : Nat :=
  match g.productions[production]? with
  | some p => p.lhs
  | none => g.nonterminals.size

theorem getElem?_rules {p : Nat} (bound : p ≤ g.startRule) :
    ∃ r, g.rules[p]? = some r ∧ r.lhs = g.lhs p ∧ r.rhs = g.rhs p := by
  unfold rules lhs rhs
  rcases Nat.lt_or_eq_of_le bound with inside | rfl
  · have found := Array.getElem?_eq_getElem inside
    rw [List.getElem?_append_left (by rwa [Array.length_toList]), Array.getElem?_toList, found]
    exact ⟨_, rfl, rfl, rfl⟩
  · have none : g.productions[g.startRule]? = none := Array.getElem?_eq_none (Nat.le_refl _)
    rw [none, List.getElem?_append_right (by rw [Array.length_toList]; exact Nat.le_refl _)]
    simp [startRule]

theorem lhs_of_start {n : Nat} {i : Item} (start : i ∈ (Analysis.ofGrammar g).startsOf n) :
    g.lhs i.production = n := by
  obtain ⟨_, production, found, lhs⟩ := Analysis.startsOf_ofGrammar start
  unfold Grammar.lhs
  rw [found]
  exact lhs

theorem rhs_eq_of_next {i : Item} {x : Symbol} (next : g.next? i = some x) :
    g.rhs i.production = (g.rhs i.production).take i.dot ++
      x :: (g.rhs i.production).drop (i.dot + 1) := by
  obtain ⟨inside, is⟩ := List.getElem?_eq_some_iff.1 next
  rw [← is, ← List.drop_eq_getElem_cons inside, List.take_append_drop]

end Grammar

/-- First terminals by nonterminal, with a mark behind the columns for what can be empty, and the
terminals that can follow. -/
structure Ahead where
  first : Nat
  follow : Nat

namespace Ahead

/-- Columns of the terminals and of the mark. -/
def columns : Nat := Kind.terminalCount + 1

def followOf (a : Ahead) (n : Nat) : Nat := row columns a.follow n

/-- What can start a string of symbols. -/
def startsWith (first : Nat) : List Symbol → Nat
  | [] => 1 <<< Kind.terminalCount
  | .terminal k :: _ => 1 <<< k.index
  | .nonterminal n :: xs =>
    bif (row columns first n).testBit Kind.terminalCount then
      row columns first n % 2 ^ Kind.terminalCount ||| startsWith first xs
    else row columns first n

/-- What can follow a nonterminal with some symbols behind it in a production. -/
def behind (a : Ahead) (lhs : Nat) (xs : List Symbol) : Nat :=
  bif (startsWith a.first xs).testBit Kind.terminalCount then
    startsWith a.first xs % 2 ^ Kind.terminalCount ||| a.followOf lhs
  else startsWith a.first xs

/-- A right-hand side adds nothing to what can follow its nonterminals. -/
def covers (a : Ahead) (lhs : Nat) : List Symbol → Bool
  | [] => true
  | .terminal _ :: xs => a.covers lhs xs
  | .nonterminal n :: xs =>
    subset (a.behind lhs xs) (a.followOf n) && a.covers lhs xs

/-- No production adds anything, and the end of input follows the start rule. -/
def Covers (a : Ahead) (g : Grammar) : Bool :=
  (a.followOf g.nonterminals.size).testBit Kind.eof.index && g.rules.all fun r =>
    subset (startsWith a.first r.rhs) (row columns a.first r.lhs) && a.covers r.lhs r.rhs

/-- Adds what can follow the nonterminals of a right-hand side. -/
def followAlong (first lhs : Nat) : List Symbol → Nat → Nat
  | [], follow => follow
  | .terminal _ :: xs, follow => followAlong first lhs xs follow
  | .nonterminal n :: xs, follow =>
    followAlong first lhs xs (addRow columns follow n (behind ⟨first, follow⟩ lhs xs))

/-- Tables with what the productions add from the last to the first, as often as they add
something, and then with what they let follow, from the first to the last. -/
def ofGrammar (g : Grammar) : Ahead :=
  let first := saturate (foldNow (fun first r =>
    addRow columns first r.lhs (startsWith first r.rhs)) g.rules.reverse) columns 0
  ⟨first, saturate (foldNow (fun follow r => followAlong first r.lhs r.rhs follow) g.rules) columns
    (addRow columns 0 g.nonterminals.size (1 <<< Kind.eof.index))⟩

variable {g : Grammar} {a : Ahead}

/-- A set has room for what is known of a nonterminal or a string. -/
def Allows (s : Nat) (f : First) : Prop :=
  (∀ c < Kind.terminalCount, f.terminals.mem c = true → s.testBit c = true) ∧
    (f.nullable = true → s.testBit Kind.terminalCount = true)

theorem startsWith_allows {known : Array First} {first : Nat}
    (each : ∀ (n : Nat) (f : First), known[n]? = some f → Allows (row columns first n) f)
    (xs : List Symbol) : Allows (startsWith first xs) (First.ofSymbols known xs) := by
  induction xs with
  | nil =>
    refine ⟨?_, fun _ => by simp [startsWith]⟩
    intro c _ member
    simp [First.ofSymbols, First.empty] at member
  | cons x xs ih =>
    cases x with
    | terminal k =>
      refine ⟨?_, fun null => by simp [First.ofSymbols] at null⟩
      intro c _ member
      simp only [First.ofSymbols, IndexSet.mem_insert, IndexSet.mem_empty, Bool.false_or,
        decide_eq_true_eq] at member
      simp [startsWith, member]
    | nonterminal n =>
      unfold First.ofSymbols startsWith
      cases here : known[n]? with
      | none =>
        refine ⟨?_, fun null => by simp at null⟩
        intro c _ member
        simp at member
      | some f =>
        obtain ⟨terminals, empty⟩ := each n f here
        dsimp only
        cases mark : (row columns first n).testBit Kind.terminalCount with
        | true =>
          rw [cond_true]
          have own (c : Nat) (bound : c < Kind.terminalCount) (member : f.terminals.mem c = true) :
              (row columns first n % 2 ^ Kind.terminalCount ||| startsWith first xs).testBit c =
                true := by
            rw [Nat.testBit_or, Nat.testBit_mod_two_pow, terminals c bound member,
              decide_eq_true bound]
            rfl
          split
          · refine ⟨?_, fun null => by rw [Nat.testBit_or, ih.2 null, Bool.or_true]⟩
            intro c bound member
            rw [IndexSet.mem_union, Bool.or_eq_true] at member
            rcases member with member | member
            · exact own c bound member
            · rw [Nat.testBit_or, ih.1 c bound member, Bool.or_true]
          · exact ⟨own, fun null => by simp at null⟩
        | false =>
          have notNullable : f.nullable = false := by
            cases null : f.nullable with
            | false => rfl
            | true => exact absurd (empty null) (by simp [mark])
          rw [cond_false, if_neg (by simp [notNullable])]
          exact ⟨terminals, fun null => by simp at null⟩

theorem rule_of_Covers (covers : a.Covers g = true) {r : Production} (member : r ∈ g.rules) :
    subset (startsWith a.first r.rhs) (row columns a.first r.lhs) = true ∧
      a.covers r.lhs r.rhs = true := by
  have all := (Bool.and_eq_true_iff.1 covers).2
  exact Bool.and_eq_true_iff.1 (List.all_eq_true.1 all r member)

/-- What the rounds over the productions find stays inside a table that they add nothing to. -/
theorem ofGrammar_allows (covers : a.Covers g = true) (n : Nat) (f : First)
    (here : (First.ofGrammar g)[n]? = some f) : Allows (row columns a.first n) f := by
  have learn (known : Array First) (p : Production) (member : p ∈ g.productions.toList)
      (each : ∀ (n : Nat) (f : First), known[n]? = some f → Allows (row columns a.first n) f)
      (n : Nat) (f : First) (here : (First.learn known p)[n]? = some f) :
      Allows (row columns a.first n) f := by
    rw [First.getElem?_learn] at here
    split at here
    · rename_i same
      obtain ⟨old, was, rfl⟩ := Option.map_eq_some_iff.1 here
      have added := startsWith_allows each p.rhs
      have inside := (rule_of_Covers covers (List.mem_append_left _ member)).1
      rw [same] at inside
      refine ⟨fun c bound either => ?_, fun either => ?_⟩
      · rw [IndexSet.mem_union, Bool.or_eq_true] at either
        rcases either with mine | new
        · exact (each n old was).1 c bound mine
        · exact testBit_of_subset inside (added.1 c bound new)
      · rw [Bool.or_eq_true] at either
        rcases either with mine | new
        · exact (each n old was).2 mine
        · exact testBit_of_subset inside (added.2 new)
    · exact each n f here
  have rounds (fuel : Nat) (known : Array First)
      (each : ∀ (n : Nat) (f : First), known[n]? = some f → Allows (row columns a.first n) f) :
      ∀ (n : Nat) (f : First), (First.saturate g fuel known)[n]? = some f →
        Allows (row columns a.first n) f := by
    induction fuel generalizing known with
    | zero => exact each
    | succ fuel ih =>
      unfold First.saturate
      dsimp only
      split
      · exact each
      · refine ih _ ?_
        rw [← Array.foldl_toList]
        exact foldl_induction (P := fun known : Array First => ∀ (n : Nat) (f : First),
          known[n]? = some f → Allows (row columns a.first n) f) each
          fun known p member each => learn known p member each
  refine rounds _ _ ?_ n f here
  intro n f start
  rw [Array.getElem?_replicate] at start
  split at start
  · obtain rfl := Option.some.inj start
    exact ⟨fun c _ member => by simp at member, fun null => by simp at null⟩
  · cases start

theorem behind_of_covers {lhs n : Nat} {front back : List Symbol}
    (covers : a.covers lhs (front ++ .nonterminal n :: back) = true) :
    subset (a.behind lhs back) (a.followOf n) = true := by
  induction front with
  | nil => exact (Bool.and_eq_true_iff.1 covers).1
  | cons x front ih =>
    cases x with
    | terminal k => exact ih covers
    | nonterminal m => exact ih (Bool.and_eq_true_iff.1 covers).2

/-- What an item lets follow the nonterminal behind its dot, can follow it. -/
theorem behind_of_next (covers : a.Covers g = true) {i : Item} {n : Nat} (item : g.IsItem i)
    (next : g.next? i = some (.nonterminal n)) :
    subset (a.behind (g.lhs i.production) ((g.rhs i.production).drop (i.dot + 1)))
      (a.followOf n) = true := by
  obtain ⟨r, known, lhs, rhs⟩ := Grammar.getElem?_rules item.1
  have own := (rule_of_Covers covers (List.mem_of_getElem? known)).2
  rw [lhs, rhs, Grammar.rhs_eq_of_next next] at own
  exact behind_of_covers own

/-- The lookaheads of an item in a state can all follow its nonterminal. -/
theorem follow_of_looks (covers : a.Covers g = true) {state c : Nat} {i : Item}
    (looks : g.Looks state i c) (bound : c < Kind.terminalCount) :
    (a.followOf (g.lhs i.production)).testBit c = true := by
  induction looks with
  | start =>
    have own : g.lhs g.startRule = g.nonterminals.size := by simp [Grammar.lhs, Grammar.startRule]
    change (a.followOf (g.lhs g.startRule)).testBit _ = true
    rw [own]
    exact (Bool.and_eq_true_iff.1 covers).1
  | @first state n c i j holds next start first =>
    rw [Grammar.lhs_of_start start]
    refine testBit_of_subset (behind_of_next covers (Grammar.isItem_of_holds holds) next) ?_
    have here := (startsWith_allows (ofGrammar_allows covers)
      ((g.rhs i.production).drop (i.dot + 1))).1 c bound first
    unfold behind
    cases (startsWith a.first ((g.rhs i.production).drop (i.dot + 1))).testBit
        Kind.terminalCount with
    | true =>
      rw [cond_true, Nat.testBit_or, Nat.testBit_mod_two_pow, here, decide_eq_true bound]
      rfl
    | false => exact here
  | @inherit state n c i j looks next start nullable ih =>
    rw [Grammar.lhs_of_start start]
    refine testBit_of_subset (behind_of_next covers (Grammar.isItem_of_holds looks.holds) next) ?_
    have mark := (startsWith_allows (ofGrammar_allows covers)
      ((g.rhs i.production).drop (i.dot + 1))).2 nullable
    rw [behind, mark, cond_true, Nat.testBit_or, ih bound, Bool.or_true]
  | pass looks next leads ih => exact ih bound

end Ahead

end ShaderTree
