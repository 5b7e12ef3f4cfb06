import Mathlib.Logic.Relation
import ShaderTree.Proofs.Table.Items
import ShaderTree.Proofs.Table.Sets

/-! Lookaheads inside one state: the work on them comes to its end, and then every item has handed
on what follows it. -/
namespace ShaderTree

open Finset (range)

open Relation (ReflTransGen)

/-- A loop comes from one value to another, and has no step left there. -/
def Stops {α : Type} (step : α → Option α) (a b : α) : Prop :=
  ReflTransGen (fun x y => step x = some y) a b ∧ step b = none

namespace Grammar

theorem mem_startsOf {g : Grammar} {n : Nat} {i : Item} (bound : n < g.nonterminals.size) :
    i ∈ (Analysis.ofGrammar g).startsOf n ↔
      i.dot = 0 ∧ ∃ p, g.productions[i.production]? = some p ∧ p.lhs = n := by
  refine ⟨Analysis.startsOf_ofGrammar, ?_⟩
  rintro ⟨dot, p, found, lhs⟩
  have here : (Analysis.ofGrammar g).startsOf n = g.startsOf n := by
    unfold Analysis.startsOf Analysis.ofGrammar
    simp [bound]
  rw [here, startsOf, List.mem_map]
  refine ⟨i.production, ?_, ?_⟩
  · rw [productionsOf, List.mem_filter]
    exact ⟨List.mem_range.2 (Array.getElem?_eq_some_iff.1 found).1, by simp [found, lhs]⟩
  · obtain ⟨production, _⟩ := i
    exact congrArg (Item.mk production) dot.symm

theorem startsOf_eq_nil {g : Grammar} {n : Nat} (outside : ¬ n < g.nonterminals.size) :
    (Analysis.ofGrammar g).startsOf n = [] := by
  unfold Analysis.startsOf Analysis.ofGrammar
  simp [Nat.not_lt.1 outside]

/-- Kernels as the automaton has them. -/
structure IsKernel (g : Grammar) (kernel : List Item) : Prop where
  distinct : kernel.Nodup
  inside : ∀ i ∈ kernel, i.dot ≠ 0 ∨ i.production = g.startRule

/-- Filters by different values keep an element at most once. -/
theorem sum_length_filter_le {α : Type} (value : α → Option Nat) (xs : List α) (bound : Nat) :
    ∑ n ∈ range bound, (xs.filter fun x => value x = some n).length ≤ xs.length := by
  induction xs with
  | nil => simp
  | cons x xs ih =>
    have split : ∀ n, ((x :: xs).filter fun x => value x = some n).length =
        (if value x = some n then 1 else 0) + (xs.filter fun x => value x = some n).length := by
      intro n
      rw [List.filter_cons]
      split
      · rename_i is
        rw [if_pos (of_decide_eq_true is), List.length_cons, Nat.add_comm]
      · rename_i other
        rw [if_neg (by simpa using other), Nat.zero_add]
    have once : ∑ n ∈ range bound, (if value x = some n then 1 else 0) ≤ 1 := by
      cases is : value x with
      | none => simp
      | some m =>
        simp only [Option.some.injEq, Finset.sum_ite_eq]
        split <;> omega
    rw [Finset.sum_congr rfl fun n _ => split n, Finset.sum_add_distrib, List.length_cons]
    omega

/-- Together the nonterminals have no more starts than there are productions. -/
theorem sum_length_startsOf_le (g : Grammar) :
    ∑ n ∈ range g.nonterminals.size, ((Analysis.ofGrammar g).startsOf n).length ≤
      g.productions.size := by
  have each : ∀ n ∈ range g.nonterminals.size, ((Analysis.ofGrammar g).startsOf n).length =
      ((List.range g.productions.size).filter fun p =>
        (g.productions[p]?.map (·.lhs)) = some n).length := by
    intro n member
    have bound := Finset.mem_range.1 member
    unfold Analysis.startsOf Analysis.ofGrammar
    simp only [Array.getElem?_map, Array.getElem?_range, bound, if_true, Option.map_some,
      Option.getD_some, startsOf, List.length_map, productionsOf]
    congr 1
    apply List.filter_congr
    intro p _
    cases g.productions[p]? <;> simp
  rw [Finset.sum_congr rfl each]
  have total := sum_length_filter_le (fun p => g.productions[p]?.map (·.lhs))
    (List.range g.productions.size) g.nonterminals.size
  rwa [List.length_range] at total

end Grammar

namespace Spread

/-- What is known to follow an item. -/
def lookahead (a : Analysis) (own : Item → IndexSet) (s : Spread) (i : Item) : IndexSet :=
  if i.dot = 0 ∧ i.production ≠ a.grammar.startRule then
    (a.grammar.productions[i.production]?.bind fun p => s.get? p.lhs).getD .empty
  else own i

/-- First terminals of what stands behind the symbol behind the dot. -/
def behind (a : Analysis) (i : Item) : First :=
  First.ofSymbols a.first ((a.grammar.rhs i.production).drop (i.dot + 1))

/-- What an item lets follow the nonterminal behind its dot. -/
def follow (a : Analysis) (own : Item → IndexSet) (s : Spread) (i : Item) : IndexSet :=
  if (behind a i).nullable then (behind a i).terminals.union (lookahead a own s i)
  else (behind a i).terminals

theorem add?_some {s s' : Spread} {n : Nat} {f : IndexSet} (bound : n < s.lookaheads.size)
    (h : s.add? n f = some s') : s'.lookaheads.size = s.lookaheads.size ∧
      s'.get? n = some (((s.get? n).getD .empty).union f) ∧ (∀ m, m ≠ n → s'.get? m = s.get? m) ∧
      (∀ m, m ∈ s'.order ↔ m ∈ s.order ∨ (m = n ∧ s.get? n = none)) ∧
      (∀ old, s.get? n = some old → old.union f ≠ old) := by
  unfold add? at h
  cases known : s.get? n with
  | none =>
    rw [known] at h
    obtain rfl := Option.some.inj h
    refine ⟨by simp, ?_, ?_, by simp, by simp⟩
    · have nothing : IndexSet.empty.union f = f :=
        IndexSet.le_antisymm (IndexSet.union_le (IndexSet.empty_le f) (IndexSet.le_refl f))
          (IndexSet.le_union_right _ f)
      simp [get?, bound, nothing]
    · intro m other
      simp [get?, Ne.symm other]
  | some old =>
    rw [known] at h
    dsimp only at h
    split at h
    · cases h
    · rename_i changed
      obtain rfl := Option.some.inj h
      refine ⟨by simp, ?_, ?_, by simp, ?_⟩
      · simp [get?, bound]
      · intro m other
        simp [get?, Ne.symm other]
      · rintro old' ⟨⟩
        exact changed

theorem add?_none {s : Spread} {n : Nat} {f : IndexSet} (h : s.add? n f = none) :
    ∃ old, s.get? n = some old ∧ f ≤ old := by
  unfold add? at h
  cases known : s.get? n with
  | none => simp [known] at h
  | some old =>
    rw [known] at h
    dsimp only at h
    split at h
    · rename_i same
      exact ⟨old, rfl, IndexSet.union_eq_self.1 same⟩
    · cases h

theorem add?_outside {s s' : Spread} {n : Nat} {f : IndexSet} (outside : s.lookaheads.size ≤ n)
    (h : s.add? n f = some s') : s'.lookaheads = s.lookaheads ∧ s'.order = s.order ++ [n] := by
  have none : s.get? n = none := by
    unfold get?
    rw [Array.getElem?_eq_none outside, Option.join_none]
  unfold add? at h
  rw [none] at h
  obtain rfl := Option.some.inj h
  exact ⟨by simp [Array.setIfInBounds, Nat.not_lt.2 outside], rfl⟩

theorem get?_congr {s s' : Spread} (same : s'.lookaheads = s.lookaheads) (n : Nat) :
    s'.get? n = s.get? n := by
  unfold get?
  rw [same]

/-- What is known after an addition was known before it, or is what was added. -/
theorem mem_of_add? {s s' : Spread} {n m c : Nat} {f f' : IndexSet} (h : s.add? n f = some s')
    (known : s'.get? m = some f') (mem : f'.mem c = true) :
    (∃ old, s.get? m = some old ∧ old.mem c = true) ∨ m = n ∧ f.mem c = true := by
  by_cases bound : n < s.lookaheads.size
  · obtain ⟨_, here, others, _, _⟩ := add?_some bound h
    by_cases same : m = n
    · subst same
      rw [here] at known
      obtain rfl := Option.some.inj known
      rw [IndexSet.mem_union, Bool.or_eq_true] at mem
      rcases mem with before | new
      · cases old : s.get? m with
        | none => simp [old] at before
        | some f =>
          rw [old, Option.getD_some] at before
          exact .inl ⟨f, rfl, before⟩
      · exact .inr ⟨rfl, new⟩
    · exact .inl ⟨f', (others m same).symm.trans known, mem⟩
  · exact .inl ⟨f', (get?_congr (add?_outside (Nat.not_lt.1 bound) h).1 m).symm.trans known, mem⟩

section Work

variable {g : Grammar} {own : Item → IndexSet} {kernel stack : List Item} {s s' : Spread}

theorem lookahead_start {n : Nat} {i : Item} (member : i ∈ (Analysis.ofGrammar g).startsOf n) :
    lookahead (.ofGrammar g) own s i = (s.get? n).getD .empty := by
  obtain ⟨dot, p, found, lhs⟩ := Analysis.startsOf_ofGrammar member
  have known : (Analysis.ofGrammar g).grammar.productions[i.production]? = some p := found
  rw [lookahead, if_pos ⟨dot, Analysis.production_ne_startRule member⟩, known, Option.bind_some, lhs]

theorem lookahead_own {i : Item} (inside : i.dot ≠ 0 ∨ i.production = g.startRule) :
    lookahead (.ofGrammar g) own s i = own i := by
  rw [lookahead, if_neg]
  rintro ⟨dot, other⟩
  rcases inside with h | h
  · exact h dot
  · exact other h

/-- What follows an item is known of the nonterminal behind its dot. -/
def HandsOn (g : Grammar) (own : Item → IndexSet) (s : Spread) (i : Item) : Prop :=
  ∀ n, g.next? i = some (.nonterminal n) → n < g.nonterminals.size →
    ∃ f, s.get? n = some f ∧ follow (.ofGrammar g) own s i ≤ f

/-- Items that are not to be worked off have handed on what follows them. -/
structure Settled (g : Grammar) (own : Item → IndexSet) (kernel stack : List Item) (s : Spread) :
    Prop where
  size : s.lookaheads.size = g.nonterminals.size
  order : ∀ n, n < g.nonterminals.size → (n ∈ s.order ↔ (s.get? n).isSome = true)
  handed : ∀ i, (i ∈ kernel ∨ ∃ n ∈ s.order, i ∈ (Analysis.ofGrammar g).startsOf n) →
    i ∈ stack ∨ HandsOn g own s i

theorem follow_congr {i : Item} (same : lookahead (.ofGrammar g) own s' i =
    lookahead (.ofGrammar g) own s i) :
    follow (.ofGrammar g) own s' i = follow (.ofGrammar g) own s i := by
  rw [follow, follow, same]

/-- An item hands on the same while only others' lookaheads grow. -/
theorem HandsOn.grow {i : Item} (h : HandsOn g own s i) (same : lookahead (.ofGrammar g) own s' i =
    lookahead (.ofGrammar g) own s i)
    (grows : ∀ n f, s.get? n = some f → ∃ f', s'.get? n = some f' ∧ f ≤ f') :
    HandsOn g own s' i := by
  intro n next bound
  obtain ⟨f, known, le⟩ := h n next bound
  obtain ⟨f', known', more⟩ := grows n f known
  refine ⟨f', known', ?_⟩
  rw [follow_congr same]
  exact IndexSet.le_trans le more

theorem add?_grows {n : Nat} {f : IndexSet} (h : s.add? n f = some s') (m : Nat) (old : IndexSet)
    (known : s.get? m = some old) : ∃ new, s'.get? m = some new ∧ old ≤ new := by
  by_cases bound : n < s.lookaheads.size
  · obtain ⟨_, here, others, _, _⟩ := add?_some bound h
    by_cases same : m = n
    · subst same
      rw [known, Option.getD_some] at here
      exact ⟨_, here, IndexSet.le_union_left old f⟩
    · rw [others m same]
      exact ⟨old, known, IndexSet.le_refl old⟩
  · obtain ⟨unchanged, _⟩ := add?_outside (Nat.not_lt.1 bound) h
    exact ⟨old, (get?_congr unchanged m).trans known, IndexSet.le_refl old⟩

section Add

variable {i : Item} {n : Nat} (settled : Settled g own kernel (i :: stack) s)
  (next : g.next? i = some (.nonterminal n)) (h : s.add? n (follow (.ofGrammar g) own s i) = some s')

include settled next h

/-- An item behind whose dot no nonterminal of the grammar stands is worked off. -/
theorem Settled.add_outside (outside : ¬ n < g.nonterminals.size) : Settled g own kernel stack s' := by
  obtain ⟨unchanged, order⟩ := add?_outside (settled.size ▸ Nat.not_lt.1 outside) h
  have get := get?_congr unchanged
  refine ⟨by rw [unchanged, settled.size], ?_, ?_⟩
  · intro m inside
    have other : m ≠ n := fun same => outside (same ▸ inside)
    rw [order, get m, ← settled.order m inside]
    simp [other]
  · intro j member
    have before : j ∈ kernel ∨ ∃ m ∈ s.order, j ∈ (Analysis.ofGrammar g).startsOf m := by
      rcases member with inKernel | ⟨m, inOrder, start⟩
      · exact .inl inKernel
      · rw [order] at inOrder
        rcases List.mem_append.mp inOrder with old | new
        · exact .inr ⟨m, old, start⟩
        · obtain rfl := List.mem_singleton.1 new
          rw [Grammar.startsOf_eq_nil outside] at start
          cases start
    rcases settled.handed j before with waiting | handed
    · rcases List.mem_cons.mp waiting with rfl | waiting
      · refine .inr ?_
        intro m isNext inside
        rw [next] at isNext
        exact absurd (Symbol.nonterminal.inj (Option.some.inj isNext) ▸ inside) outside
      · exact .inl waiting
    · refine .inr (handed.grow ?_ (add?_grows h))
      unfold lookahead
      simp only [get]

variable (kernels : ∀ i ∈ kernel, i.dot ≠ 0 ∨ i.production = g.startRule)

include kernels

/-- An item is worked off, and what starts the nonterminal behind its dot is to be worked off again. -/
theorem Settled.add_inside (bound : n < g.nonterminals.size) :
    Settled g own kernel (((Analysis.ofGrammar g).startsOf n).reverse ++ stack) s' := by
  obtain ⟨size, here, others, order, _⟩ := add?_some (settled.size ▸ bound) h
  refine ⟨size.trans settled.size, ?_, ?_⟩
  · intro m inside
    rw [order, settled.order m inside]
    by_cases same : m = n
    · subst same
      simp only [here, Option.isSome_some, true_and, iff_true]
      cases s.get? m <;> simp
    · simp [same, others m same]
  · intro j member
    by_cases again : j ∈ (Analysis.ofGrammar g).startsOf n
    · exact .inl (List.mem_append_left _ (List.mem_reverse.2 again))
    · have before : j ∈ kernel ∨ ∃ m ∈ s.order, j ∈ (Analysis.ofGrammar g).startsOf m := by
        rcases member with inKernel | ⟨m, inOrder, start⟩
        · exact .inl inKernel
        · rcases (order m).1 inOrder with old | ⟨rfl, _⟩
          · exact .inr ⟨m, old, start⟩
          · exact absurd start again
      have same : lookahead (.ofGrammar g) own s' j = lookahead (.ofGrammar g) own s j := by
        rcases before with inKernel | ⟨m, _, start⟩
        · rw [lookahead_own (kernels j inKernel), lookahead_own (kernels j inKernel)]
        · have other : m ≠ n := fun same => again (same ▸ start)
          rw [lookahead_start start, lookahead_start start, others m other]
      rcases settled.handed j before with waiting | handed
      · rcases List.mem_cons.mp waiting with rfl | waiting
        · refine .inr ?_
          intro m isNext _
          obtain rfl : n = m := by
            rw [next] at isNext
            exact Symbol.nonterminal.inj (Option.some.inj isNext)
          refine ⟨_, here, ?_⟩
          rw [follow_congr same]
          exact IndexSet.le_union_right _ _
        · exact .inl (List.mem_append_right _ waiting)
      · exact .inr (handed.grow same (add?_grows h))

theorem Settled.add : Settled g own kernel (((Analysis.ofGrammar g).startsOf n).reverse ++ stack) s' := by
  by_cases bound : n < g.nonterminals.size
  · exact settled.add_inside next h kernels bound
  · rw [Grammar.startsOf_eq_nil bound]
    exact settled.add_outside next h bound

end Add

/-- An item that has nothing new to hand on is worked off. -/
theorem Settled.skip {i : Item} (settled : Settled g own kernel (i :: stack) s)
    (handed : HandsOn g own s i) : Settled g own kernel stack s := by
  refine ⟨settled.size, settled.order, ?_⟩
  intro j member
  rcases settled.handed j member with waiting | known
  · rcases List.mem_cons.mp waiting with rfl | waiting
    · exact .inr handed
    · exact .inl waiting
  · exact .inr known

/-- All lookaheads are terminals. -/
def Bounded (s : Spread) : Prop :=
  ∀ n f, s.get? n = some f → f.Below Kind.terminalCount

/-- How far the lookaheads of a nonterminal have grown. -/
def rank (s : Spread) (n : Nat) : Nat :=
  match s.get? n with
  | none => 0
  | some f => f.count Kind.terminalCount + 1

/-- A bound on the items that are still to come. -/
def potential (g : Grammar) (s : Spread) : Nat :=
  ∑ n ∈ range g.nonterminals.size,
    ((Analysis.ofGrammar g).startsOf n).length * (Kind.terminalCount + 1 - rank s n)

theorem rank_le (s : Spread) (n : Nat) : rank s n ≤ Kind.terminalCount + 1 := by
  unfold rank
  split
  · omega
  · exact Nat.succ_le_succ (IndexSet.count_le _ _)

theorem Bounded.add {n : Nat} {f : IndexSet} (bounded : Bounded s) (own : f.Below Kind.terminalCount)
    (h : s.add? n f = some s') : Bounded s' := by
  intro m new known
  by_cases bound : n < s.lookaheads.size
  · obtain ⟨_, here, others, _, _⟩ := add?_some bound h
    by_cases same : m = n
    · subst same
      rw [here] at known
      obtain rfl := Option.some.inj known
      refine IndexSet.Below.union ?_ own
      cases old : s.get? m with
      | none => exact IndexSet.below_empty _
      | some old' => exact bounded m old' old
    · rw [others m same] at known
      exact bounded m new known
  · obtain ⟨unchanged, _⟩ := add?_outside (Nat.not_lt.1 bound) h
    refine bounded m new ?_
    unfold get? at known ⊢
    rwa [unchanged] at known

/-- What is put on the stack was paid for. -/
theorem potential_add {n : Nat} {f : IndexSet} (bounded : Bounded s)
    (own : f.Below Kind.terminalCount) (size : s.lookaheads.size = g.nonterminals.size)
    (h : s.add? n f = some s') :
    ((Analysis.ofGrammar g).startsOf n).length + potential g s' ≤ potential g s := by
  by_cases bound : n < g.nonterminals.size
  · obtain ⟨_, here, others, _, changed⟩ := add?_some (size ▸ bound) h
    have member := Finset.mem_range.2 bound
    have rest : ∑ m ∈ (range g.nonterminals.size).erase n,
        ((Analysis.ofGrammar g).startsOf m).length * (Kind.terminalCount + 1 - rank s' m) =
        ∑ m ∈ (range g.nonterminals.size).erase n,
          ((Analysis.ofGrammar g).startsOf m).length * (Kind.terminalCount + 1 - rank s m) := by
      apply Finset.sum_congr rfl
      intro m inside
      rw [rank, rank, others m (Finset.ne_of_mem_erase inside)]
    have grown : rank s n < rank s' n := by
      have after := bounded.add own h n _ here
      rw [rank, rank, here]
      cases known : s.get? n with
      | none => exact Nat.succ_pos _
      | some old =>
        rw [known, Option.getD_some] at here after
        refine Nat.succ_lt_succ (IndexSet.count_lt (IndexSet.le_union_left old f) ?_ after)
        exact fun same => changed old known same.symm
    have most := rank_le s' n
    unfold potential
    rw [← Finset.add_sum_erase _ _ member, ← Finset.add_sum_erase _ _ member, rest, ← Nat.add_assoc]
    refine Nat.add_le_add_right ?_ _
    have room : Kind.terminalCount + 1 - rank s' n + 1 ≤ Kind.terminalCount + 1 - rank s n := by
      omega
    have scaled := Nat.mul_le_mul_left ((Analysis.ofGrammar g).startsOf n).length room
    rw [Nat.mul_add, Nat.mul_one] at scaled
    omega
  · obtain ⟨unchanged, _⟩ := add?_outside (size ▸ Nat.not_lt.1 bound) h
    have same : potential g s' = potential g s := by
      unfold potential rank get?
      rw [unchanged]
    rw [Grammar.startsOf_eq_nil bound, same]
    simp

/-- All terminals of the grammar have columns. -/
def FirstBelow (g : Grammar) : Prop :=
  ∀ i, (behind (.ofGrammar g) i).terminals.Below Kind.terminalCount

/-- Everything that items hand on is terminals. -/
theorem below_follow (terminals : FirstBelow g)
    (owns : ∀ i, (own i).Below Kind.terminalCount) (bounded : Bounded s) (i : Item) :
    (follow (.ofGrammar g) own s i).Below Kind.terminalCount := by
  have known : (lookahead (.ofGrammar g) own s i).Below Kind.terminalCount := by
    unfold lookahead
    split
    · cases found : ((Analysis.ofGrammar g).grammar.productions[i.production]?.bind fun p =>
          s.get? p.lhs) with
      | none => exact IndexSet.below_empty _
      | some f =>
        obtain ⟨p, _, is⟩ := Option.bind_eq_some_iff.1 found
        exact bounded p.lhs f is
    · exact owns i
  unfold follow
  split
  · exact (terminals i).union known
  · exact terminals i

theorem potential_empty : potential g (empty g.nonterminals.size) ≤
    g.productions.size * (Kind.terminalCount + 1) := by
  have each : ∀ n, rank (empty g.nonterminals.size) n = 0 := by
    intro n
    have none : (empty g.nonterminals.size).get? n = none := by
      unfold get? empty
      rw [Array.getElem?_replicate]
      split <;> rfl
    rw [rank, none]
  unfold potential
  simp only [each, Nat.sub_zero]
  rw [← Finset.sum_mul]
  exact Nat.mul_le_mul_right _ (Grammar.sum_length_startsOf_le g)

/-- One item of the stack is worked off. -/
def workNext (a : Analysis) (own : Item → IndexSet) : List Item × Spread → Option (List Item × Spread)
  | ([], _) => none
  | (i :: stack, s) =>
    match a.grammar.next? i with
    | some (.nonterminal n) =>
      match s.add? n (follow a own s i) with
      | some s => some ((a.startsOf n).reverse ++ stack, s)
      | none => some (stack, s)
    | _ => some (stack, s)

/-- With enough fuel the work comes to its end. -/
theorem work_settled (kernels : ∀ i ∈ kernel, i.dot ≠ 0 ∨ i.production = g.startRule)
    (terminals : FirstBelow g)
    (owns : ∀ i, (own i).Below Kind.terminalCount) (fuel : Nat) (stack : List Item) (s : Spread)
    (enough : stack.length + potential g s ≤ fuel) (settled : Settled g own kernel stack s)
    (bounded : Bounded s) : Settled g own kernel [] (work (.ofGrammar g) own fuel stack s) ∧
      Bounded (work (.ofGrammar g) own fuel stack s) ∧
      Stops (workNext (.ofGrammar g) own) (stack, s) ([], work (.ofGrammar g) own fuel stack s) := by
  fun_induction work (Analysis.ofGrammar g) own fuel stack s with
  | case1 => exact ⟨settled, bounded, .refl, rfl⟩
  | case2 i stack s =>
    rw [List.length_cons] at enough
    omega
  | case3 fuel i stack s n next rest ahead follow' s' grown ih =>
    have handed : s.add? n (follow (.ofGrammar g) own s i) = some s' := grown
    have new := below_follow terminals owns bounded i
    have paid := potential_add bounded new settled.size handed
    obtain ⟨settled', bounded', later, stop⟩ := ih (by
      rw [List.length_cons] at enough
      rw [List.length_append, List.length_reverse]
      omega) (settled.add next handed kernels) (bounded.add new handed)
    exact ⟨settled', bounded', .head (by simp [workNext, next, handed]) later, stop⟩
  | case4 fuel i stack s n next rest ahead follow' same ih =>
    have nothing : s.add? n (follow (.ofGrammar g) own s i) = none := same
    obtain ⟨settled', bounded', later, stop⟩ :=
      ih (by rw [List.length_cons] at enough; omega) (settled.skip fun m isNext _ => by
        have next' : g.next? i = some (.nonterminal n) := next
        rw [next'] at isNext
        obtain rfl := Symbol.nonterminal.inj (Option.some.inj isNext)
        exact add?_none nothing) bounded
    exact ⟨settled', bounded', .head (by simp [workNext, next, nothing]) later, stop⟩
  | case5 fuel i stack s other ih =>
    obtain ⟨settled', bounded', later, stop⟩ :=
      ih (by rw [List.length_cons] at enough; omega)
        (settled.skip fun m isNext _ => absurd isNext (other m)) bounded
    exact ⟨settled', bounded', .head (by unfold workNext; split <;> simp_all) later, stop⟩

/-- The nonterminals of the grammar are listed once. -/
structure Once (g : Grammar) (s : Spread) : Prop where
  size : s.lookaheads.size = g.nonterminals.size
  known : ∀ n ∈ s.order, n < g.nonterminals.size → s.get? n ≠ none
  distinct : (s.order.filter (· < g.nonterminals.size)).Nodup

theorem Once.add {n : Nat} {f : IndexSet} (once : Once g s) (h : s.add? n f = some s') :
    Once g s' := by
  by_cases bound : n < g.nonterminals.size
  · obtain ⟨size, here, others, members, _⟩ := add?_some (once.size ▸ bound) h
    refine ⟨size.trans once.size, ?_, ?_⟩
    · intro m member inside
      by_cases same : m = n
      · simp [same, here]
      · rw [others m same]
        rcases (members m).1 member with old | ⟨is, _⟩
        · exact once.known m old inside
        · exact absurd is same
    · unfold add? at h
      cases get : s.get? n with
      | none =>
        rw [get] at h
        obtain rfl := Option.some.inj h
        have new : n ∉ s.order := fun old => once.known n old bound get
        rw [List.filter_append]
        refine List.Nodup.append once.distinct ?_ ?_
        · exact List.Nodup.filter _ (List.nodup_singleton n)
        · intro m old added
          have is := List.mem_singleton.1 (List.mem_of_mem_filter added)
          exact new (is ▸ List.mem_of_mem_filter old)
      | some old =>
        rw [get] at h
        dsimp only at h
        split at h
        · cases h
        · obtain rfl := Option.some.inj h
          exact once.distinct
  · obtain ⟨same, order⟩ := add?_outside (once.size ▸ Nat.not_lt.1 bound) h
    refine ⟨same ▸ once.size, ?_, ?_⟩
    · intro m member inside
      rw [order] at member
      unfold get?
      rw [same]
      rcases List.mem_append.1 member with old | new
      · exact once.known m old inside
      · exact absurd (List.mem_singleton.1 new ▸ inside) bound
    · rw [order, List.filter_append, List.filter_singleton]
      simpa [bound] using once.distinct

theorem work_once (fuel : Nat) (stack : List Item) (s : Spread) (once : Once g s) :
    Once g (work (.ofGrammar g) own fuel stack s) := by
  fun_induction work (Analysis.ofGrammar g) own fuel stack s with
  | case1 => exact once
  | case2 => exact once
  | case3 fuel i stack s n next rest ahead follow' s' grown ih => exact ih (once.add grown)
  | case4 fuel i stack s n next rest ahead follow' same ih => exact ih once
  | case5 fuel i stack s other ih => exact ih once

end Work

end Spread

namespace Analysis

variable {g : Grammar} {kernel : List (Item × IndexSet)}

/-- The first lookaheads that a kernel lists for an item. -/
def ownIn (kernel : List (Item × IndexSet)) (i : Item) : IndexSet :=
  ((kernel.find? (·.1 = i)).map (·.2)).getD .empty

theorem ownIn_eq (distinct : (kernel.map (·.1)).Nodup) {entry : Item × IndexSet}
    (member : entry ∈ kernel) : ownIn kernel entry.1 = entry.2 := by
  induction kernel with
  | nil => cases member
  | cons e es ih =>
    rw [List.map_cons, List.nodup_cons] at distinct
    unfold ownIn at ih ⊢
    rcases List.mem_cons.mp member with rfl | later
    · simp
    · have other : e.1 ≠ entry.1 := fun same => distinct.1 (same ▸ List.mem_map_of_mem later)
      rw [List.find?_cons_of_neg (by simpa using other)]
      exact ih distinct.2 later

theorem mem_of_ownIn {i : Item} {c : Nat} (h : (ownIn kernel i).mem c = true) :
    ∃ set, (i, set) ∈ kernel ∧ set.mem c = true := by
  unfold ownIn at h
  cases found : kernel.find? (·.1 = i) with
  | none => simp [found] at h
  | some entry =>
    rw [found, Option.map_some, Option.getD_some] at h
    have same : entry.1 = i := by simpa using List.find?_some found
    exact ⟨entry.2, same ▸ List.mem_of_find?_eq_some found, h⟩

/-- A kernel with terminals for lookaheads. -/
structure IsKnown (g : Grammar) (kernel : List (Item × IndexSet)) : Prop where
  isKernel : g.IsKernel (kernel.map (·.1))
  below : ∀ entry ∈ kernel, entry.2.Below Kind.terminalCount

theorem IsKnown.below_ownIn (isKnown : IsKnown g kernel) (i : Item) :
    (ownIn kernel i).Below Kind.terminalCount := by
  intro c h
  obtain ⟨set, member, mem⟩ := mem_of_ownIn h
  exact isKnown.below _ member c mem

/-- The state in which the work on a kernel ends. -/
def spreadOf (g : Grammar) (kernel : List (Item × IndexSet)) : Spread :=
  Spread.work (.ofGrammar g) (ownIn kernel)
    (kernel.length + g.productions.size * (Kind.terminalCount + 1)) (kernel.map (·.1)).reverse
    (.empty g.nonterminals.size)

theorem closeState_eq : (Analysis.ofGrammar g).closeState kernel =
    kernel ++ (spreadOf g kernel).order.flatMap fun n =>
      ((Analysis.ofGrammar g).startsOf n).map fun i => (i, ((spreadOf g kernel).get? n).getD .empty) :=
  rfl

theorem settled_spreadOf (isKnown : IsKnown g kernel)
    (terminals : Spread.FirstBelow g) :
    Spread.Settled g (ownIn kernel) (kernel.map (·.1)) [] (spreadOf g kernel) ∧
      Spread.Bounded (spreadOf g kernel) ∧
      Stops (Spread.workNext (.ofGrammar g) (ownIn kernel))
        ((kernel.map (·.1)).reverse, .empty g.nonterminals.size) ([], spreadOf g kernel) := by
  have none (n : Nat) : (Spread.empty g.nonterminals.size).get? n = none := by
    unfold Spread.get? Spread.empty
    rw [Array.getElem?_replicate]
    split <;> rfl
  apply Spread.work_settled
  · exact isKnown.isKernel.inside
  · exact terminals
  · exact isKnown.below_ownIn
  · have room := Spread.potential_empty (g := g)
    rw [List.length_reverse, List.length_map]
    omega
  · refine ⟨by simp [Spread.empty], ?_, ?_⟩
    · intro n _
      rw [none n]
      simp [Spread.empty]
    · intro i member
      rcases member with inKernel | ⟨n, inOrder, _⟩
      · exact .inl (List.mem_reverse.2 inKernel)
      · simp [Spread.empty] at inOrder
  · intro n f known
    rw [none n] at known
    cases known

theorem once_spreadOf (g : Grammar) (kernel : List (Item × IndexSet)) :
    Spread.Once g (spreadOf g kernel) := by
  apply Spread.work_once
  exact ⟨by simp [Spread.empty], by simp [Spread.empty], by simp [Spread.empty]⟩

/-- Every item of a state hands on what follows it. -/
theorem closeState_complete (isKnown : IsKnown g kernel)
    (terminals : Spread.FirstBelow g)
    {entry : Item × IndexSet} (member : entry ∈ (Analysis.ofGrammar g).closeState kernel) {n : Nat}
    (next : g.next? entry.1 = some (.nonterminal n)) {j : Item}
    (start : j ∈ (Analysis.ofGrammar g).startsOf n) :
    ∃ set, (j, set) ∈ (Analysis.ofGrammar g).closeState kernel ∧
      (Spread.behind (.ofGrammar g) entry.1).terminals ≤ set ∧
      ((Spread.behind (.ofGrammar g) entry.1).nullable = true → entry.2 ≤ set) := by
  obtain ⟨settled, _⟩ := settled_spreadOf isKnown terminals
  have bound : n < g.nonterminals.size := by
    by_contra outside
    rw [Grammar.startsOf_eq_nil outside] at start
    cases start
  rw [closeState_eq] at member ⊢
  have known : Spread.lookahead (.ofGrammar g) (ownIn kernel) (spreadOf g kernel) entry.1 = entry.2 ∧
      (entry.1 ∈ kernel.map (·.1) ∨ ∃ m ∈ (spreadOf g kernel).order,
        entry.1 ∈ (Analysis.ofGrammar g).startsOf m) := by
    rcases List.mem_append.1 member with inKernel | added
    · have member : entry.1 ∈ kernel.map (·.1) := List.mem_map_of_mem inKernel
      rw [Spread.lookahead_own (isKnown.isKernel.inside _ member)]
      exact ⟨ownIn_eq isKnown.isKernel.distinct inKernel, .inl member⟩
    · obtain ⟨m, order, here⟩ := List.mem_flatMap.1 added
      obtain ⟨i, inside, rfl⟩ := List.mem_map.1 here
      exact ⟨Spread.lookahead_start inside, .inr ⟨m, order, inside⟩⟩
  rcases settled.handed entry.1 known.2 with waiting | handed
  · cases waiting
  · obtain ⟨f, isF, le⟩ := handed n next bound
    refine ⟨f, ?_, ?_⟩
    · refine List.mem_append_right _ (List.mem_flatMap.2 ⟨n, ?_, ?_⟩)
      · rw [settled.order n bound, isF]
        rfl
      · exact List.mem_map.2 ⟨j, start, by rw [isF, Option.getD_some]⟩
    · unfold Spread.follow at le
      rw [known.1] at le
      split at le
      · exact ⟨IndexSet.le_trans (IndexSet.le_union_left _ _) le,
          fun _ => IndexSet.le_trans (IndexSet.le_union_right _ _) le⟩
      · rename_i notNullable
        exact ⟨le, fun nullable => absurd nullable notNullable⟩

theorem closeState_below (isKnown : IsKnown g kernel)
    (terminals : Spread.FirstBelow g)
    {entry : Item × IndexSet} (member : entry ∈ (Analysis.ofGrammar g).closeState kernel) :
    entry.2.Below Kind.terminalCount := by
  rw [closeState_eq] at member
  rcases List.mem_append.1 member with inKernel | added
  · exact isKnown.below entry inKernel
  · obtain ⟨n, _, here⟩ := List.mem_flatMap.1 added
    obtain ⟨i, _, rfl⟩ := List.mem_map.1 here
    cases get : (spreadOf g kernel).get? n with
    | none => exact IndexSet.below_empty _
    | some f => exact (settled_spreadOf isKnown terminals).2.1 n f get

/-- What a predicate must be closed under to hold of all lookaheads in a state. -/
structure Spreads (g : Grammar) (items : List Item) (holds : Item → Nat → Prop) : Prop where
  first : ∀ {i j : Item} {n c : Nat}, g.InClosure (Analysis.ofGrammar g).startsOf items i →
    g.next? i = some (.nonterminal n) → j ∈ (Analysis.ofGrammar g).startsOf n →
    (Spread.behind (.ofGrammar g) i).terminals.mem c = true → holds j c
  inherit : ∀ {i j : Item} {n c : Nat}, holds i c → g.next? i = some (.nonterminal n) →
    j ∈ (Analysis.ofGrammar g).startsOf n →
    (Spread.behind (.ofGrammar g) i).nullable = true → holds j c

section Sound

variable {holds : Item → Nat → Prop} {own : Item → IndexSet} {items : List Item} {s s' : Spread}
  {i : Item} {n c : Nat}

/-- What is known of a nonterminal holds of the items that start it. -/
def Agrees (g : Grammar) (holds : Item → Nat → Prop) (s : Spread) : Prop :=
  ∀ n f c j, s.get? n = some f → f.mem c = true → j ∈ (Analysis.ofGrammar g).startsOf n → holds j c

variable (spreads : Spreads g items holds) (inside : ∀ i ∈ items, i.dot ≠ 0 ∨ i.production = g.startRule)
  (owns : ∀ i c, (own i).mem c = true → holds i c) (agrees : Agrees g holds s)
  (known : g.InClosure (Analysis.ofGrammar g).startsOf items i)

include inside owns agrees known

theorem Agrees.lookahead (mem : (Spread.lookahead (.ofGrammar g) own s i).mem c = true) : holds i c := by
  have origin : i ∈ items ∨ ∃ m, i ∈ (Analysis.ofGrammar g).startsOf m := by
    cases known with
    | kernel member => exact .inl member
    | start before next member => exact .inr ⟨_, member⟩
  rcases origin with member | ⟨m, member⟩
  · rw [Spread.lookahead_own (inside i member)] at mem
    exact owns i c mem
  · rw [Spread.lookahead_start member] at mem
    cases get : s.get? m with
    | none => simp [get] at mem
    | some f =>
      rw [get, Option.getD_some] at mem
      exact agrees m f c i get mem member

variable (next : g.next? i = some (.nonterminal n))

include spreads next

theorem Agrees.follow (mem : (Spread.follow (.ofGrammar g) own s i).mem c = true) {j : Item}
    (start : j ∈ (Analysis.ofGrammar g).startsOf n) : holds j c := by
  unfold Spread.follow at mem
  split at mem
  · rename_i nullable
    rw [IndexSet.mem_union, Bool.or_eq_true] at mem
    rcases mem with mem | mem
    · exact spreads.first known next start mem
    · exact spreads.inherit (agrees.lookahead inside owns known mem) next start nullable
  · exact spreads.first known next start mem

theorem Agrees.add (h : s.add? n (Spread.follow (.ofGrammar g) own s i) = some s') : Agrees g holds s' := by
  intro m f c j get mem start
  rcases Spread.mem_of_add? h get mem with ⟨old, before, mem⟩ | ⟨rfl, new⟩
  · exact agrees m old c j before mem start
  · exact agrees.follow spreads inside owns known next new start

omit agrees known next in
theorem Agrees.work (fuel : Nat) (stack : List Item) (s : Spread)
    (known : ∀ i ∈ stack, g.InClosure (Analysis.ofGrammar g).startsOf items i) (agrees : Agrees g holds s) :
    Agrees g holds (Spread.work (.ofGrammar g) own fuel stack s) := by
  fun_induction Spread.work (Analysis.ofGrammar g) own fuel stack s with
  | case1 => exact agrees
  | case2 => exact agrees
  | case3 fuel i stack s n next rest ahead follow' s' grown ih =>
    have own := known i List.mem_cons_self
    refine ih (fun j member => ?_) (agrees.add spreads inside owns own next grown)
    rcases List.mem_append.mp member with start | old
    · exact .start own next (List.mem_reverse.1 start)
    · exact known j (.tail _ old)
  | case4 fuel i stack s n next rest ahead follow' same ih =>
    exact ih (fun j member => known j (.tail _ member)) agrees
  | case5 fuel i stack s other ih =>
    exact ih (fun j member => known j (.tail _ member)) agrees

end Sound

theorem closeState_lookahead_sound (holds : Item → Nat → Prop)
    (spreads : Spreads g (kernel.map (·.1)) holds)
    (isKernel : g.IsKernel (kernel.map (·.1)))
    (owns : ∀ entry ∈ kernel, ∀ c, entry.2.mem c = true → holds entry.1 c)
    {entry : Item × IndexSet} (member : entry ∈ (Analysis.ofGrammar g).closeState kernel) {c : Nat}
    (mem : entry.2.mem c = true) : holds entry.1 c := by
  rw [closeState_eq] at member
  rcases List.mem_append.1 member with inKernel | added
  · exact owns entry inKernel c mem
  · obtain ⟨n, _, here⟩ := List.mem_flatMap.1 added
    obtain ⟨i, start, rfl⟩ := List.mem_map.1 here
    dsimp only at mem
    cases get : (spreadOf g kernel).get? n with
    | none => simp [get] at mem
    | some f =>
      rw [get, Option.getD_some] at mem
      refine Agrees.work spreads isKernel.inside ?_ _ _ _ ?_ ?_ n f c i get mem start
      · intro j d own
        obtain ⟨set, there, mem⟩ := mem_of_ownIn own
        exact owns _ there d mem
      · exact fun j waiting => .kernel (List.mem_reverse.1 waiting)
      · intro m f' d j known
        unfold Spread.get? Spread.empty at known
        rw [Array.getElem?_replicate] at known
        split at known <;> cases known

end Analysis

end ShaderTree
