import ShaderTree.Proofs.Table.Ahead
import ShaderTree.Proofs.Table.Existence

/-! Which items can stand in one state. For each item there is a set that has the items of all its
states, and tables of such sets are large enough if the ways in which states come about add nothing
to them. They show a grammar to have a table where no two items that meet are in conflict. -/
namespace ShaderTree

open Bits

namespace Grammar

/-- A relation that holds at the start and that closures and transitions keep. -/
structure Gathers (g : Grammar) (meets : Item → Item → Prop) : Prop where
  start : meets g.startItem g.startItem
  left : ∀ {i i' j : Item} {n : Nat}, meets i j → g.next? i = some (.nonterminal n) →
    i' ∈ (Analysis.ofGrammar g).startsOf n → meets i' j
  right : ∀ {i j j' : Item} {n : Nat}, meets i j → g.next? j = some (.nonterminal n) →
    j' ∈ (Analysis.ofGrammar g).startsOf n → meets i j'
  step : ∀ {i j : Item} {x : Symbol}, meets i j → g.next? i = some x → g.next? j = some x →
    meets i.advance j.advance

variable {g : Grammar} {meets : Item → Item → Prop}

theorem Gathers.closure (gathers : g.Gathers meets) {kernel : List Item}
    (each : ∀ i ∈ kernel, ∀ j ∈ kernel, meets i j) {i j : Item}
    (left : g.InClosure (Analysis.ofGrammar g).startsOf kernel i)
    (right : g.InClosure (Analysis.ofGrammar g).startsOf kernel j) : meets i j := by
  induction left with
  | start before next member ih => exact gathers.left ih next member
  | @kernel i inside =>
    induction right with
    | kernel inside' => exact each i inside _ inside'
    | start before next member ih => exact gathers.right ih next member

/-- Any two items of a state are related. -/
theorem Gathers.holds (gathers : g.Gathers meets) {state : Nat} {i j : Item}
    (left : g.Holds state i) (right : g.Holds state j) : meets i j := by
  have inductive_ : Automaton.Inductive g fun kernel =>
      g.IsStateKernel kernel ∧ ∀ i ∈ kernel, ∀ j ∈ kernel, meets i j := by
    refine ⟨fun _ both => both.1, ⟨isStateKernel_start, ?_⟩, ?_⟩
    · intro i member j member'
      rw [List.mem_singleton.1 member, List.mem_singleton.1 member']
      exact gathers.start
    · rintro kernel x ⟨isKernel, each⟩ _
      refine ⟨isStateKernel_passed isKernel x, ?_⟩
      intro i member j member'
      obtain ⟨i, inside, next, rfl⟩ := Automaton.mem_passed.1 (Item.mem_sort.1 member)
      obtain ⟨j, inside', next', rfl⟩ := Automaton.mem_passed.1 (Item.mem_sort.1 member')
      exact gathers.step (gathers.closure each (mem_closure.1 inside) (mem_closure.1 inside'))
        next next'
  obtain ⟨s, known⟩ := exists_of_holds left
  unfold Holds at left right
  rw [kernelOf_eq known] at left right
  exact gathers.closure (inductive_.kernel known).2 left right

end Grammar

/-- Tables of sets of items, in which each production has `stride` places for its items. -/
structure Places where
  stride : Nat
  size : Nat
  /-- The items in front of a symbol. -/
  front : Nat
  /-- The items that a nonterminal in front of the dot brings with it. -/
  starts : Nat
  /-- The complete items. -/
  complete : Nat

namespace Places

def place (m : Places) (i : Item) : Nat := i.production * m.stride + i.dot

def code : Symbol → Nat
  | .nonterminal n => 2 * n
  | .terminal k => 2 * k.index + 1

def inFront (m : Places) (x : Symbol) : Nat := row m.size m.front (code x)

def startsOf (m : Places) (n : Nat) : Nat := row m.size m.starts n

/-- The nonterminals that items can have behind a symbol. -/
def corners (m : Places) (g : Grammar) (x : Symbol) : List Nat :=
  (List.range g.nonterminals.size).filter fun n =>
    !disjoint (m.inFront x <<< 1) (m.inFront (.nonterminal n))

/-- The items behind a symbol and what they bring with them. -/
def move (m : Places) (g : Grammar) (s : Nat) (x : Symbol) : Nat :=
  foldNow (fun t n => bif disjoint ((s &&& m.inFront x) <<< 1) (m.inFront (.nonterminal n)) then t
    else t ||| m.startsOf n) (m.corners g x) ((s &&& m.inFront x) <<< 1)

/-- Adds a place to the sets of the symbols of a right-hand side. -/
def frontAlong (size : Nat) : List Symbol → Nat → Nat → Nat
  | [], _, front => front
  | x :: xs, place, front =>
    frontAlong size xs (place + 1) (addRow size front (code x) (1 <<< place))

def ofGrammar (g : Grammar) : Places :=
  let stride := g.rules.foldl (fun most r => max most (r.rhs.length + 1)) 0
  let size := g.rules.length * stride
  let front := foldNow (fun front (r, p) => frontAlong size r.rhs (p * stride) front)
    g.rules.zipIdx 0
  let own := foldNow (fun starts (r, p) => addRow size starts r.lhs (1 <<< (p * stride)))
    g.rules.zipIdx 0
  let starts := saturate (foldNow (fun starts r => match r.rhs with
    | .nonterminal n :: _ => addRow size starts r.lhs (row size starts n)
    | _ => starts) g.rules.reverse) g.rules.length own
  let complete := foldNow (fun complete (r, p) => complete ||| 1 <<< (p * stride + r.rhs.length))
    g.rules.zipIdx 0
  ⟨stride, size, front, starts, complete⟩

/-- Every item in front of a nonterminal has the nonterminal's starts with it. -/
def isClosed (m : Places) (g : Grammar) (s : Nat) : Bool :=
  (List.range g.nonterminals.size).all fun n =>
    disjoint s (m.inFront (.nonterminal n)) || subset (m.startsOf n) s

/-- The levels settle what a complete item does on the terminals that can follow it: against the
other complete items of a set, which are looked at if there are any, and against shifts. -/
def isSettled (m : Places) (a : Ahead) (g : Grammar) (i : Item) (s : Nat) : Bool :=
  (Nat.beq (s &&& m.complete) (1 <<< m.place i) || g.rules.zipIdx.all fun (r, q) =>
    Nat.beq i.production q || !s.testBit (m.place ⟨q, r.rhs.length⟩) ||
      disjoint (a.followOf (g.lhs i.production)) (a.followOf r.lhs) ||
      (g.reduceOrReduce? i.production q).isSome) &&
  Kind.terminals.all fun k =>
    disjoint s (m.inFront (.terminal k)) || !(a.followOf (g.lhs i.production)).testBit k.index ||
      (g.shiftOrReduce? k .error i.production).isSome

end Places

/-- Tables for the states with an item. -/
structure Meetings extends Places where
  /-- The items of all states with starts of a nonterminal. -/
  context : Nat

namespace Meetings

def contextOf (m : Meetings) (n : Nat) : Nat := row m.size m.context n

/-- The items of all states with an item. -/
def setOf (m : Meetings) (g : Grammar) (i : Item) : Nat :=
  ((g.rhs i.production).take i.dot).foldl (m.move g) (m.contextOf (g.lhs i.production))

/-- Adds the sets of the items of a production to the contexts of the nonterminals behind dots. -/
def contextAlong (m : Places) (g : Grammar) : List Symbol → Nat → Nat → Nat
  | [], _, context => context
  | .terminal k :: xs, s, context => contextAlong m g xs (m.move g s (.terminal k)) context
  | .nonterminal n :: xs, s, context =>
    contextAlong m g xs (m.move g s (.nonterminal n)) (addRow m.size context n s)

/-- Tables that the rounds over the productions find. -/
def ofGrammar (g : Grammar) : Meetings :=
  let m := Places.ofGrammar g
  let start := addRow m.size 0 g.nonterminals.size
    (m.startsOf g.nonterminals.size ||| m.startsOf g.start)
  ⟨m, saturate (foldNow (fun context r =>
    contextAlong m g r.rhs (row m.size context r.lhs) context) g.rules) g.rules.length start⟩

/-- The states with an item add nothing to the tables, and have no conflict. -/
def checkItem (m : Meetings) (a : Ahead) (g : Grammar) (i : Item) (s : Nat) :
    Option Symbol → Bool
  | none => m.isClosed g s && m.complete.testBit (m.place i) && m.isSettled a g i s
  | some x => m.isClosed g s && (m.inFront x).testBit (m.place i) &&
      subset ((s &&& m.inFront x) <<< 1) (m.move g s x) &&
      match x with
      | .terminal _ => true
      | .nonterminal n => subset s (m.contextOf n)

/-- The same for all items of a production from a dot on. -/
def checkFrom (m : Meetings) (a : Ahead) (g : Grammar) (p : Nat) :
    List Symbol → Nat → Nat → Bool
  | [], d, s => m.checkItem a g ⟨p, d⟩ s none
  | x :: xs, d, s =>
    m.checkItem a g ⟨p, d⟩ s (some x) && m.checkFrom a g p xs (d + 1) (m.move g s x)

/-- No production adds anything to the tables, and none has a conflict. -/
def Checks (m : Meetings) (a : Ahead) (g : Grammar) : Bool :=
  (m.contextOf g.nonterminals.size).testBit (m.place g.startItem) &&
  g.rules.zipIdx.all fun (r, p) => Nat.blt r.rhs.length m.stride &&
    (m.startsOf r.lhs).testBit (m.place ⟨p, 0⟩) &&
    m.checkFrom a g p r.rhs 0 (m.contextOf r.lhs)

variable {g : Grammar} {m : Meetings} {a : Ahead}

theorem checkItem_of_checkFrom {p : Nat} {xs : List Symbol} {d s : Nat}
    (checked : m.checkFrom a g p xs d s = true) (e : Nat) (bound : e ≤ xs.length) :
    m.checkItem a g ⟨p, d + e⟩ ((xs.take e).foldl (m.move g) s) xs[e]? = true := by
  induction xs generalizing d s e with
  | nil =>
    obtain rfl := Nat.le_zero.1 bound
    exact checked
  | cons x xs ih =>
    obtain ⟨first, others⟩ := Bool.and_eq_true_iff.1 checked
    cases e with
    | zero => exact first
    | succ e =>
      have later := ih others e (Nat.le_of_succ_le_succ bound)
      rwa [Nat.add_assoc, Nat.add_comm 1 e] at later

theorem rule_of_checks (checks : m.Checks a g = true) {p : Nat} {r : Production}
    (known : g.rules[p]? = some r) : r.rhs.length < m.stride ∧
      (m.startsOf r.lhs).testBit (m.place ⟨p, 0⟩) = true ∧
      m.checkFrom a g p r.rhs 0 (m.contextOf r.lhs) = true := by
  have all := List.all_eq_true.1 (Bool.and_eq_true_iff.1 checks).2 (r, p)
    (List.mem_zipIdx_iff_getElem?.2 known)
  obtain ⟨both, items⟩ := Bool.and_eq_true_iff.1 all
  obtain ⟨short, start⟩ := Bool.and_eq_true_iff.1 both
  exact ⟨Nat.le_of_ble_eq_true short, start, items⟩

theorem checkItem_setOf (checks : m.Checks a g = true) {i : Item} (item : g.IsItem i) :
    m.checkItem a g i (m.setOf g i) (g.next? i) = true := by
  obtain ⟨r, known, lhs, rhs⟩ := Grammar.getElem?_rules item.1
  have items := checkItem_of_checkFrom (rule_of_checks checks known).2.2 i.dot
    (by rw [rhs]; exact item.2)
  rw [Nat.zero_add, rhs, lhs] at items
  exact items

theorem isClosed_setOf (checks : m.Checks a g = true) {i : Item} (item : g.IsItem i) :
    m.isClosed g (m.setOf g i) = true := by
  have checked := checkItem_setOf checks item
  cases next : g.next? i with
  | none =>
    rw [next] at checked
    exact (Bool.and_eq_true_iff.1 (Bool.and_eq_true_iff.1 checked).1).1
  | some x =>
    rw [next] at checked
    simp only [checkItem, Bool.and_eq_true] at checked
    exact checked.1.1.1

/-- What is checked of an item in front of a symbol. -/
theorem check_of_next (checks : m.Checks a g = true) {i : Item} {x : Symbol} (item : g.IsItem i)
    (next : g.next? i = some x) : (m.inFront x).testBit (m.place i) = true ∧
      subset ((m.setOf g i &&& m.inFront x) <<< 1) (m.move g (m.setOf g i) x) = true ∧
      ∀ n, x = .nonterminal n → subset (m.setOf g i) (m.contextOf n) = true := by
  have checked := checkItem_setOf checks item
  rw [next] at checked
  simp only [checkItem, Bool.and_eq_true] at checked
  refine ⟨checked.1.1.2, checked.1.2, ?_⟩
  rintro n rfl
  exact checked.2

theorem setOf_advance {i : Item} {x : Symbol} (next : g.next? i = some x) :
    m.setOf g i.advance = m.move g (m.setOf g i) x := by
  change ((g.rhs i.production).take (i.dot + 1)).foldl _ _ = _
  rw [List.take_add_one, show (g.rhs i.production)[i.dot]? = some x from next, List.foldl_append]
  rfl

/-- A start brings its place with its nonterminal, and has the nonterminal's context. -/
theorem check_of_start (checks : m.Checks a g = true) {n : Nat} {i : Item}
    (start : i ∈ (Analysis.ofGrammar g).startsOf n) :
    (m.startsOf n).testBit (m.place i) = true ∧ m.setOf g i = m.contextOf n := by
  obtain ⟨dot, _⟩ := Analysis.startsOf_ofGrammar start
  obtain ⟨r, known, lhs, _⟩ := Grammar.getElem?_rules (Grammar.isItem_start start).1
  have own := (rule_of_checks checks known).2.1
  rw [lhs, Grammar.lhs_of_start start, ← dot] at own
  refine ⟨own, ?_⟩
  rw [setOf, dot, Grammar.lhs_of_start start]
  rfl

/-- The set of one item has the other one. -/
def Meet (m : Meetings) (g : Grammar) (i j : Item) : Prop :=
  g.IsItem i ∧ g.IsItem j ∧ (m.setOf g i).testBit (m.place j) = true

theorem isItem_advance {i : Item} {x : Symbol} (item : g.IsItem i) (next : g.next? i = some x) :
    g.IsItem i.advance :=
  ⟨item.1, (List.getElem?_eq_some_iff.1 next).1⟩

theorem gathers (checks : m.Checks a g = true) : g.Gathers (m.Meet g) := by
  refine ⟨?_, ?_, ?_, ?_⟩
  · have item : g.IsItem g.startItem := ⟨Nat.le_refl _, Nat.zero_le _⟩
    refine ⟨item, item, ?_⟩
    have own : g.lhs g.startRule = g.nonterminals.size := by simp [Grammar.lhs, Grammar.startRule]
    have start := (Bool.and_eq_true_iff.1 checks).1
    rwa [← own] at start
  · rintro i i' j n ⟨item, item', meet⟩ next start
    refine ⟨Grammar.isItem_start start, item', ?_⟩
    rw [(check_of_start checks start).2]
    exact testBit_of_subset ((check_of_next checks item next).2.2 n rfl) meet
  · rintro i j j' n ⟨item, item', meet⟩ next start
    refine ⟨item, Grammar.isItem_start start, ?_⟩
    have inside : n < g.nonterminals.size := by
      by_contra outside
      rw [Grammar.startsOf_eq_nil outside] at start
      cases start
    have closed := List.all_eq_true.1 (isClosed_setOf checks item) n (List.mem_range.2 inside)
    rw [not_disjoint meet (check_of_next checks item' next).1, Bool.false_or] at closed
    exact testBit_of_subset closed (check_of_start checks start).1
  · rintro i j x ⟨item, item', meet⟩ next next'
    refine ⟨isItem_advance item next, isItem_advance item' next', ?_⟩
    rw [setOf_advance next]
    refine testBit_of_subset (check_of_next checks item next).2.1 ?_
    have place : m.place j.advance = m.place j + 1 := rfl
    rw [place, Nat.testBit_shiftLeft, Nat.add_sub_cancel, Nat.testBit_and, meet,
      (check_of_next checks item' next').1]
    simp

theorem production_of_place {i j : Item} (short : i.dot < m.stride) (short' : j.dot < m.stride)
    (same : m.place i = m.place j) : i.production = j.production := by
  have positive : 0 < m.stride := Nat.lt_of_le_of_lt (Nat.zero_le _) short
  have quotients := congrArg (· / m.stride) same
  simpa [Places.place, Nat.add_comm, Nat.add_mul_div_right _ _ positive,
    Nat.div_eq_of_lt short, Nat.div_eq_of_lt short'] using quotients

/-- What is checked of a complete item. -/
theorem check_of_complete (checks : m.Checks a g = true) {state : Nat} {i : Item}
    (holds : g.Holds state i) (complete : g.IsComplete i) : i.dot < m.stride ∧
      m.complete.testBit (m.place i) = true ∧ m.isSettled a g i (m.setOf g i) = true := by
  have item := Grammar.isItem_of_holds holds
  have next : g.next? i = none := List.getElem?_eq_none complete
  obtain ⟨r, known, _, rhs⟩ := Grammar.getElem?_rules item.1
  have short := (rule_of_checks checks known).1
  have checked := checkItem_setOf checks item
  rw [next] at checked
  simp only [checkItem, Bool.and_eq_true] at checked
  exact ⟨Nat.lt_of_le_of_lt (rhs ▸ item.2) short, checked.1.2, checked.2⟩

/-- Two complete items with a common lookahead have levels that settle which one is reduced. -/
theorem reduceOrReduce?_of_looks (covers : a.Covers g = true) (checks : m.Checks a g = true)
    {state c : Nat} {i j : Item} (bound : c < Kind.terminalCount) (looks : g.Looks state i c)
    (complete : g.IsComplete i) (looks' : g.Looks state j c) (complete' : g.IsComplete j)
    (other : i.production ≠ j.production) :
    (g.reduceOrReduce? i.production j.production).isSome = true := by
  obtain ⟨short, _, settled⟩ := check_of_complete checks looks.holds complete
  obtain ⟨short', place, _⟩ := check_of_complete checks looks'.holds complete'
  obtain ⟨_, item', meet⟩ := (gathers checks).holds looks.holds looks'.holds
  rcases Bool.or_eq_true_iff.1 (Bool.and_eq_true_iff.1 settled).1 with alone | all
  · have both : (m.setOf g i &&& m.complete).testBit (m.place j) = true := by
      rw [Nat.testBit_and, meet, place]
      rfl
    rw [Nat.eq_of_beq_eq_true alone, Nat.one_shiftLeft, Nat.testBit_two_pow,
      decide_eq_true_eq] at both
    exact absurd (production_of_place short short' both) other
  · obtain ⟨r, known, lhs, rhs⟩ := Grammar.getElem?_rules item'.1
    have pair := List.all_eq_true.1 all (r, j.production) (List.mem_zipIdx_iff_getElem?.2 known)
    have here : m.place ⟨j.production, r.rhs.length⟩ = m.place j := by
      rw [rhs, ← Grammar.dot_eq_length looks'.holds complete']
    have apart : Nat.beq i.production j.production = false := by
      rw [Bool.eq_false_iff]
      exact fun same => other (Nat.eq_of_beq_eq_true same)
    dsimp only at pair
    rwa [apart, here, meet, lhs, not_disjoint (Ahead.follow_of_looks covers looks bound)
      (Ahead.follow_of_looks covers looks' bound)] at pair

/-- A complete item has a level that settles whether a terminal that can follow it is shifted. -/
theorem shiftOrReduce?_of_looks (covers : a.Covers g = true) (checks : m.Checks a g = true)
    {state target : Nat} {k : Kind} {i : Item} (terminal : k.isTerminal = true)
    (looks : g.Looks state i k.index) (complete : g.IsComplete i)
    (leads : g.Leads state (.terminal k) target) (shift : Action) :
    (g.shiftOrReduce? k shift i.production).isSome = true := by
  obtain ⟨_, _, settled⟩ := check_of_complete checks looks.holds complete
  obtain ⟨j, holds, next⟩ := leads.exists_next
  obtain ⟨_, item', meet⟩ := (gathers checks).holds looks.holds holds
  have column := List.all_eq_true.1 (Bool.and_eq_true_iff.1 settled).2 k
    (Kind.mem_terminals.2 terminal)
  rw [not_disjoint meet (check_of_next checks item' next).1,
    Ahead.follow_of_looks covers looks (of_decide_eq_true terminal), Bool.false_or,
    Bool.not_true, Bool.false_or] at column
  rwa [Grammar.isSome_shiftOrReduce? shift .error]

/-- A valid grammar has a table if tables of what meets, however they were found, show no conflict
in it. -/
theorem exists_build (valid : g.validate = .ok ()) (words : Table.fitsWords g = true)
    (covers : a.Covers g = true) (checks : m.Checks a g = true) : ∃ t, Table.build g = .ok t := by
  refine Table.exists_of_settled valid words ?_ ?_
  · intro state k i j looks complete looks' complete' other
    have terminal := Grammar.isTerminal_of_looks valid looks
    exact reduceOrReduce?_of_looks covers checks (of_decide_eq_true terminal) looks complete looks'
      complete' other
  · intro state k i target looks complete leads
    exact shiftOrReduce?_of_looks covers checks (Grammar.isTerminal_of_looks valid looks) looks
      complete leads _

end Meetings

end ShaderTree
