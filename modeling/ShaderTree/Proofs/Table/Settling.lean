import Mathlib.Data.Finset.Prod
import Mathlib.Data.List.Duplicate
import ShaderTree.Proofs.Table.Chains
import ShaderTree.Proofs.Table.Compatible
import ShaderTree.Repair

/-! Chains of reductions on one terminal. A chain that ends comes to no stack twice and brings no state
up above itself, so it passes through few stacks: the number of reductions that a simulation allows is
enough for it, and what a simulation gives tells how the chain ends. -/
namespace ShaderTree.Table

open Relation (ReflTransGen)

/-- Reductions on a terminal lead from one stack to another. -/
def ReducesTo (t : Table) (k : Kind) : List Nat → List Nat → Prop :=
  ReflTransGen fun states after => t.Reduces k after states

/-- The reductions on a terminal end after `n` of them. -/
def Settles (t : Table) (k : Kind) : Nat → List Nat → Prop
  | 0, states => ∀ after, ¬ t.Reduces k after states
  | n + 1, states => ∃ after, t.Reduces k after states ∧ Settles t k n after

variable {t : Table} {k : Kind} {n m q : Nat} {states after after' init lower : List Nat}

/-- A reduction takes some states off and puts one on what is left. -/
theorem reduces_iff : t.Reduces k after states ↔ ∃ p r upper base below next,
    states = upper ++ base :: below ∧ after = next :: base :: below ∧
      (∃ top, (upper ++ [base]).head? = some top ∧ t.action top k = .reduce p) ∧
        t.reductions[p]? = some r ∧ upper.length = r.length ∧ t.goto? base r.lhs = some next := by
  have head (upper : List Nat) (base : Nat) (below : List Nat) :
      (upper ++ base :: below).head? = (upper ++ [base]).head? := by
    cases upper <;> rfl
  constructor
  · rintro ⟨top, under, p, rfl, action, reduced⟩
    obtain ⟨r, base, below, next, known, dropped, goto, rfl⟩ := reduceStates_ok reduced
    have split : top :: under = (top :: under).take r.length ++ base :: below := by
      rw [← dropped, List.take_append_drop]
    refine ⟨p, r, (top :: under).take r.length, base, below, next, split, rfl, ⟨top, ?_, action⟩,
      known, ?_, goto⟩
    · rw [← head _ base below, ← split, List.head?_cons]
    · have lengths := congrArg List.length dropped
      rw [List.length_drop, List.length_cons (a := base)] at lengths
      rw [List.length_take]
      omega
  · rintro ⟨p, r, upper, base, below, next, rfl, rfl, ⟨top, first, action⟩, known, length, goto⟩
    obtain ⟨under, is⟩ := List.head?_eq_some_iff.1 ((head upper base below).trans first)
    refine ⟨top, under, p, is, action, reduceStates_eq known ?_ goto⟩
    rw [← length, List.drop_left]

theorem Reduces.unique (h : t.Reduces k after states) (h' : t.Reduces k after' states) :
    after = after' := by
  obtain ⟨top, under, p, rfl, action, reduced⟩ := h
  obtain ⟨top', under', p', is, action', reduced'⟩ := h'
  obtain ⟨rfl, rfl⟩ := List.cons.inj is
  obtain rfl := Action.reduce.inj (action.symm.trans action')
  exact Option.some.inj (reduced.symm.trans reduced')

/-- States further down do not matter to a reduction. -/
theorem Reduces.append (h : t.Reduces k after states) (lower : List Nat) :
    t.Reduces k (after ++ lower) (states ++ lower) := by
  obtain ⟨p, r, upper, base, below, next, rfl, rfl, first, known, length, goto⟩ := reduces_iff.1 h
  exact reduces_iff.2 ⟨p, r, upper, base, below ++ lower, next, by simp, by simp, first, known, length,
    goto⟩

theorem ReducesTo.append (h : t.ReducesTo k states after) (lower : List Nat) :
    t.ReducesTo k (states ++ lower) (after ++ lower) := by
  induction h with
  | refl => exact .refl
  | tail _ step ih => exact ih.tail (step.append lower)

/-! Where chains end -/

theorem exists_settles (h : t.ReducesTo k states after) (settled : t.Settles k 0 after) :
    ∃ n, t.Settles k n states := by
  induction h using ReflTransGen.head_induction_on with
  | refl => exact ⟨0, settled⟩
  | head step _ ih =>
    obtain ⟨n, settles⟩ := ih
    exact ⟨n + 1, _, step, settles⟩

theorem Settles.unique (settles : t.Settles k n states) (settles' : t.Settles k m states) : n = m := by
  induction n generalizing m states with
  | zero =>
    cases m with
    | zero => rfl
    | succ m =>
      obtain ⟨after, step, _⟩ := settles'
      exact absurd step (settles after)
  | succ n ih =>
    obtain ⟨after, step, settles⟩ := settles
    cases m with
    | zero => exact absurd step (settles' after)
    | succ m =>
      obtain ⟨after', step', settles'⟩ := settles'
      obtain rfl := step.unique step'
      rw [ih settles settles']

/-- A chain that ends does so from all of its stacks, and sooner from later ones. -/
theorem Settles.later (settles : t.Settles k n states) (h : t.ReducesTo k states after) :
    ∃ m, t.Settles k m after ∧ (m < n ∨ after = states) := by
  induction h using ReflTransGen.head_induction_on generalizing n with
  | refl => exact ⟨n, settles, .inr rfl⟩
  | head step _ ih =>
    cases n with
    | zero => exact absurd step (settles _)
    | succ n =>
      obtain ⟨next, step', settles⟩ := settles
      obtain rfl := step.unique step'
      obtain ⟨m, settles', sooner⟩ := ih settles
      refine ⟨m, settles', .inl ?_⟩
      rcases sooner with sooner | rfl
      · omega
      · exact Nat.lt_succ_of_le (Nat.le_of_eq (settles'.unique settles))

/-- A chain ends in one place. -/
theorem ReducesTo.unique (h : t.ReducesTo k states after) (settled : t.Settles k 0 after)
    (h' : t.ReducesTo k states after') (settled' : t.Settles k 0 after') : after = after' := by
  induction h using ReflTransGen.head_induction_on with
  | refl =>
    cases h' using ReflTransGen.head_induction_on with
    | refl => rfl
    | head step _ => exact absurd step (settled _)
  | head step _ ih =>
    cases h' using ReflTransGen.head_induction_on with
    | refl => exact absurd step (settled' _)
    | head step' later => exact ih (step.unique step' ▸ later)

/-- The stacks of a chain that ends, all of them different. -/
theorem Settles.exists_trace (settles : t.Settles k n states) : ∃ trace : List (List Nat),
    trace.length = n + 1 ∧ trace.Nodup ∧ ∀ after ∈ trace, t.ReducesTo k states after := by
  induction n generalizing states with
  | zero =>
    refine ⟨[states], rfl, List.nodup_singleton states, fun after member => ?_⟩
    rw [List.mem_singleton.1 member]
    exact .refl
  | succ n ih =>
    have whole := settles
    obtain ⟨next, step, later⟩ := settles
    obtain ⟨trace, length, distinct, reached⟩ := ih later
    refine ⟨states :: trace, by rw [List.length_cons, length], List.nodup_cons.2 ⟨?_, distinct⟩, ?_⟩
    · intro again
      obtain ⟨m, settles', sooner⟩ := later.later (reached states again)
      have same := settles'.unique whole
      rcases sooner with sooner | rfl
      · omega
      · have := settles'.unique later
        omega
    · intro after member
      rcases List.mem_cons.1 member with rfl | member
      · exact .refl
      · exact .head step (reached after member)

/-! What stands on the stack while a chain goes on -/

/-- What stood on the stack of a chain from some state up was on top once, unless it was there before. -/
theorem ReducesTo.of_suffix (h : t.ReducesTo k init states) (suffix : lower <:+ states)
    (some : lower ≠ []) : lower <:+ init ∨ t.ReducesTo k init lower := by
  induction h generalizing lower with
  | refl => exact .inl suffix
  | tail before step ih =>
    obtain ⟨p, r, upper, base, below, next, rfl, rfl, _⟩ := reduces_iff.1 step
    rcases List.suffix_cons_iff.1 suffix with rfl | suffix
    · exact .inr (before.tail step)
    · exact ih (suffix.trans (List.suffix_append _ _)) some

/-- What stands above a state that a chain pushed is what the chain makes on this state alone. -/
theorem ReducesTo.above (h : t.ReducesTo k init states) {upper : List Nat}
    (is : states = upper ++ q :: lower) (fresh : ¬ q :: lower <:+ init) :
    t.ReducesTo k [q] (upper ++ [q]) := by
  induction h generalizing upper with
  | refl => exact absurd ⟨upper, is.symm⟩ fresh
  | @tail before after _ step ih =>
    obtain ⟨p, r, taken, base, below, next, rfl, rfl, first, known, length, goto⟩ := reduces_iff.1 step
    cases upper with
    | nil =>
      obtain ⟨rfl, _⟩ := List.cons.inj is
      exact .refl
    | cons x upper =>
      rw [List.cons_append] at is
      obtain ⟨rfl, under_is⟩ := List.cons.inj is
      have earlier : t.ReducesTo k [q] (taken ++ upper ++ [q]) :=
        ih (by rw [under_is, List.append_assoc])
      obtain ⟨under, split⟩ : ∃ under, upper ++ [q] = base :: under := by
        cases upper with
        | nil => exact ⟨[], congrArg (· :: []) (List.cons.inj under_is).1.symm⟩
        | cons y upper =>
          exact ⟨upper ++ [q], congrArg (· :: (upper ++ [q])) (List.cons.inj under_is).1.symm⟩
      refine earlier.tail (reduces_iff.2 ⟨p, r, taken, base, under, next, ?_, ?_, first, known, length,
        goto⟩)
      · rw [List.append_assoc, split]
      · rw [List.cons_append, split]

/-- A state that comes again above itself does so for ever. -/
theorem not_settles (h : t.ReducesTo k [q] (q :: (lower ++ [q]))) (n : Nat) (under : List Nat) :
    ¬ t.Settles k n (q :: under) := by
  induction n using Nat.strong_induction_on generalizing under with
  | _ n ih =>
    intro settles
    obtain ⟨m, settles', sooner⟩ := settles.later (h.append under)
    rcases sooner with sooner | same
    · exact ih m sooner _ settles'
    · have lengths := congrArg List.length same
      simp only [List.cons_append, List.length_cons, List.length_append, List.length_nil] at lengths
      omega

/-- A stack with `n` states on it that were pushed since `init`. -/
inductive Grown (t : Table) (init : List Nat) : Nat → List Nat → Prop
  | base {states : List Nat} (suffix : states <:+ init) (some : states ≠ []) : Grown t init 0 states
  | push {n base next lhs : Nat} {below : List Nat} (before : Grown t init n (base :: below))
      (column : lhs < t.nonterminalCount) (goto : t.goto? base lhs = some next)
      (fresh : ¬ next :: base :: below <:+ init) : Grown t init (n + 1) (next :: base :: below)

theorem Grown.of_suffix (grown : t.Grown init n states) (suffix : lower <:+ states)
    (some : lower ≠ []) : ∃ m, t.Grown init m lower := by
  induction grown with
  | base inside => exact ⟨0, .base (suffix.trans inside) some⟩
  | push before column goto fresh ih =>
    rcases List.suffix_cons_iff.1 suffix with rfl | suffix
    · exact ⟨_, .push before column goto fresh⟩
    · exact ih suffix

theorem ReducesTo.grown (formed : t.WellFormed) (some : init ≠ []) (h : t.ReducesTo k init states) :
    ∃ n, t.Grown init n states := by
  induction h with
  | refl => exact ⟨0, .base List.suffix_rfl some⟩
  | tail _ step ih =>
    obtain ⟨m, grown⟩ := ih
    obtain ⟨p, r, upper, base, below, next, rfl, rfl, _, known, _, goto⟩ := reduces_iff.1 step
    obtain ⟨_, left⟩ := grown.of_suffix (List.suffix_append _ _) (List.cons_ne_nil base below)
    have column := formed.lhs r (Array.mem_toList_iff.2 (Array.mem_of_getElem? known))
    by_cases old : next :: base :: below <:+ init
    · exact ⟨0, .base old (List.cons_ne_nil _ _)⟩
    · exact ⟨_, .push left column goto old⟩

/-- The pushed states of a stack: there are as many as counted, they are states of the table, and what
stands from one of them down was not there before. -/
theorem Grown.pushed (formed : t.WellFormed) (grown : t.Grown init n states) :
    n ≤ states.length ∧ (∀ state ∈ states.take n, state < t.stateCount) ∧
      ∀ upper lower, states = upper ++ lower → upper.length < n → ¬ lower <:+ init := by
  induction grown with
  | base suffix some => exact ⟨Nat.zero_le _, by simp, fun _ _ _ none => absurd none (Nat.not_lt_zero _)⟩
  | @push n base next lhs below before column goto fresh ih =>
    obtain ⟨length, inside, news⟩ := ih
    refine ⟨Nat.succ_le_succ length, ?_, ?_⟩
    · intro state member
      rw [List.take_succ_cons] at member
      rcases List.mem_cons.1 member with rfl | member
      · exact formed.goes_lt (goes_of_goto goto)
      · exact inside state member
    · intro upper lower is short
      cases upper with
      | nil =>
        rw [List.nil_append] at is
        rwa [← is]
      | cons x upper =>
        exact news upper lower (List.cons.inj is).2 (Nat.lt_of_succ_lt_succ short)

/-- A chain that ends pushes no state above itself, so only so many states are pushed at a time. -/
theorem Grown.le_stateCount (formed : t.WellFormed) (settles : t.Settles k m init)
    (h : t.ReducesTo k init states) (grown : t.Grown init n states) : n ≤ t.stateCount := by
  obtain ⟨length, inside, news⟩ := grown.pushed formed
  have distinct : (states.take n).Nodup := by
    by_contra twice
    obtain ⟨q, again⟩ := List.exists_duplicate_iff_not_nodup.2 twice
    obtain ⟨front, back, split, above, below⟩ := List.cons_sublist_iff.1 (List.duplicate_iff_sublist.1 again)
    obtain ⟨a, b, rfl⟩ := List.append_of_mem above
    obtain ⟨c, d, rfl⟩ := List.append_of_mem (List.singleton_sublist.1 below)
    have whole : states = a ++ q :: ((b ++ c) ++ q :: (d ++ states.drop n)) := by
      conv_lhs => rw [← List.take_append_drop n states, split]
      simp
    have short : (a ++ q :: (b ++ c)).length < n := by
      have lengths := congrArg List.length split
      rw [List.length_take_of_le length] at lengths
      simp only [List.length_append, List.length_cons] at lengths ⊢
      omega
    generalize states.drop n = rest at whole
    have fresh := news _ (q :: (d ++ rest)) (by rw [whole]; simp) short
    have both : t.ReducesTo k [q] (a ++ q :: (b ++ c) ++ [q]) := h.above (by rw [whole]; simp) fresh
    have loop : t.ReducesTo k [q] (q :: ((b ++ c) ++ [q])) := by
      have suffix : q :: ((b ++ c) ++ [q]) <:+ a ++ q :: (b ++ c) ++ [q] := ⟨a, by simp⟩
      refine (both.of_suffix suffix (by simp)).resolve_left ?_
      intro suffix
      have lengths := suffix.length_le
      simp only [List.length_cons, List.length_append, List.length_nil] at lengths
      omega
    have behind : q :: (d ++ rest) <:+ states := ⟨a ++ q :: (b ++ c), by rw [whole]; simp⟩
    have passed := (h.of_suffix behind (by simp)).resolve_left fresh
    obtain ⟨_, ends, _⟩ := settles.later passed
    exact not_settles loop _ _ ends
  have among : states.take n ⊆ List.range t.stateCount :=
    fun state member => List.mem_range.2 (inside state member)
  have few := (distinct.subperm among).length_le
  rwa [List.length_take_of_le length, List.length_range] at few

theorem Grown.length_le (grown : t.Grown init n states) : states.length ≤ init.length + n := by
  induction grown with
  | base suffix => exact suffix.length_le
  | push before _ _ _ ih => exact Nat.succ_le_succ ih

/-- A chain that ends leaves few states more than it found. -/
theorem Settles.length_le (formed : t.WellFormed) (settles : t.Settles k n states) (some : states ≠ [])
    (chain : t.ReducesTo k states after) : after.length ≤ states.length + t.stateCount := by
  obtain ⟨m, grown⟩ := chain.grown formed some
  exact Nat.le_trans grown.length_le (Nat.add_le_add_left (grown.le_stateCount formed settles chain) _)

/-! How many such stacks there are -/

/-- The stack with the goto for a nonterminal pushed, if there is one. -/
def pushGoto (t : Table) (states : List Nat) (lhs : Nat) : List Nat :=
  match states.head?.bind (t.goto? · lhs) with
  | some next => next :: states
  | none => states

/-- The stacks with at most `n` pushed states. -/
def growths (t : Table) (init : List Nat) : Nat → Finset (List Nat)
  | 0 => init.tails.toFinset
  | n + 1 => growths t init n ∪
      (growths t init n ×ˢ Finset.range t.nonterminalCount).image fun x => t.pushGoto x.1 x.2

theorem card_growths (t : Table) (init : List Nat) (n : Nat) :
    (t.growths init n).card ≤ (init.length + 1) * (t.nonterminalCount + 1) ^ n := by
  induction n with
  | zero =>
    rw [growths, Nat.pow_zero, Nat.mul_one, ← List.length_tails]
    exact List.toFinset_card_le _
  | succ n ih =>
    calc (t.growths init (n + 1)).card
        ≤ (t.growths init n).card + (t.growths init n).card * t.nonterminalCount := by
          refine Nat.le_trans (Finset.card_union_le _ _) (Nat.add_le_add_left ?_ _)
          refine Nat.le_trans Finset.card_image_le (Nat.le_of_eq ?_)
          rw [Finset.card_product, Finset.card_range]
      _ = (t.growths init n).card * (t.nonterminalCount + 1) := by
          rw [Nat.mul_succ, Nat.add_comm]
      _ ≤ (init.length + 1) * (t.nonterminalCount + 1) ^ n * (t.nonterminalCount + 1) :=
          Nat.mul_le_mul_right _ ih
      _ = _ := by rw [Nat.pow_succ, Nat.mul_assoc]

theorem growths_mono (le : n ≤ m) : t.growths init n ⊆ t.growths init m := by
  induction le with
  | refl => exact Finset.Subset.refl _
  | step _ ih => exact ih.trans Finset.subset_union_left

theorem Grown.mem_growths (grown : t.Grown init n states) : states ∈ t.growths init n := by
  induction grown with
  | base suffix some => exact List.mem_toFinset.2 ((List.mem_tails _ _).2 suffix)
  | @push n base next lhs below before column goto fresh ih =>
    refine Finset.mem_union_right _ (Finset.mem_image.2 ⟨(base :: below, lhs), ?_, ?_⟩)
    · exact Finset.mem_product.2 ⟨ih, Finset.mem_range.2 column⟩
    · simp only [pushGoto, List.head?_cons, Option.bind_some, goto]

/-- How many reductions a chain that ends has at most. -/
theorem Settles.le_growth (formed : t.WellFormed) (settles : t.Settles k n states) :
    n ≤ (states.length + 1) * (t.nonterminalCount + 1) ^ t.stateCount := by
  cases states with
  | nil =>
    cases n with
    | zero => exact Nat.zero_le _
    | succ n =>
      obtain ⟨_, ⟨_, _, _, none, _⟩, _⟩ := settles
      cases none
  | cons top below =>
    obtain ⟨trace, length, distinct, reached⟩ := settles.exists_trace
    have inside : trace.toFinset ⊆ t.growths (top :: below) t.stateCount := by
      intro after member
      have chain := reached after (List.mem_toFinset.1 member)
      obtain ⟨m, grown⟩ := chain.grown formed (List.cons_ne_nil top below)
      exact growths_mono (grown.le_stateCount formed settles chain) grown.mem_growths
    have few := Finset.card_le_card inside
    rw [List.toFinset_card_of_nodup distinct, length] at few
    exact Nat.le_trans (Nat.le_of_succ_le few) (card_growths _ _ _)

/-- A simulation has enough reductions for every chain that ends. -/
theorem Settles.le_reductionBound (formed : t.WellFormed) (settles : t.Settles k n states) :
    n ≤ t.reductionBound states.length :=
  calc n ≤ (states.length + 1) * (t.nonterminalCount + 1) ^ t.stateCount := settles.le_growth formed
    _ ≤ t.reductionBound states.length := by
      refine Nat.mul_le_mul_left _ ?_
      calc (t.nonterminalCount + 1) ^ t.stateCount
          ≤ (t.nonterminalCount + 2) ^ t.stateCount := Nat.pow_le_pow_left (Nat.le_succ _) _
        _ ≤ (t.nonterminalCount + 2) ^ (t.stateCount + 2) :=
          Nat.pow_le_pow_right (Nat.succ_pos _) (Nat.le_add_right _ _)

/-! What a simulation gives -/

section

variable {top next p : Nat} {under : List Nat}

theorem simulateWith_shift (action : t.action top k = .shift next) (fuel : Nat) :
    t.simulateWith k fuel (top :: under) = some (next :: top :: under) := by
  unfold simulateWith
  simp only [action]

theorem simulateWith_accept (action : t.action top k = .accept) (fuel : Nat) :
    t.simulateWith k fuel (top :: under) = some (top :: under) := by
  unfold simulateWith
  simp only [action]

theorem simulateWith_error (action : t.action top k = .error) (fuel : Nat) :
    t.simulateWith k fuel (top :: under) = none := by
  unfold simulateWith
  simp only [action]

theorem simulateWith_reduce_zero (action : t.action top k = .reduce p) :
    t.simulateWith k 0 (top :: under) = none := by
  unfold simulateWith
  simp only [action]

theorem simulateWith_reduce (action : t.action top k = .reduce p) (fuel : Nat) :
    t.simulateWith k (fuel + 1) (top :: under) =
      (t.reduceStates p (top :: under)).bind (t.simulateWith k fuel) := by
  conv_lhs => unfold simulateWith
  simp only [action, reduceStates]
  cases known : t.reductions[p]? with
  | none => rfl
  | some r =>
    cases dropped : (top :: under).drop r.length with
    | nil => simp only [Option.bind_eq_bind, Option.bind_some, dropped, List.head?_nil, Option.bind_none]
    | cons base below =>
      simp only [Option.bind_eq_bind, Option.bind_some, dropped, List.head?_cons]
      cases t.goto? base r.lhs <;> rfl

end

theorem simulateWith_of_reduces (h : t.Reduces k after states) (fuel : Nat) :
    t.simulateWith k (fuel + 1) states = t.simulateWith k fuel after := by
  obtain ⟨top, under, p, rfl, action, reduced⟩ := h
  rw [simulateWith_reduce action, reduced, Option.bind_some]

theorem simulateWith_of_settled (settled : t.Settles k 0 states) (fuel : Nat) :
    t.simulateWith k fuel states = t.simulateWith k 0 states := by
  cases fuel with
  | zero => rfl
  | succ fuel =>
    cases states with
    | nil => rfl
    | cons top under =>
      cases action : t.action top k with
      | reduce p =>
        have stuck : t.reduceStates p (top :: under) = none :=
          Option.eq_none_iff_forall_not_mem.2 fun after reduced =>
            settled after ⟨top, under, p, rfl, action, reduced⟩
        rw [simulateWith_reduce action, stuck, Option.bind_none, simulateWith_reduce_zero action]
      | shift next => rw [simulateWith_shift action, simulateWith_shift action]
      | accept => rw [simulateWith_accept action, simulateWith_accept action]
      | error => rw [simulateWith_error action, simulateWith_error action]

/-- A simulation finds the end of a chain that has one. -/
theorem simulate_of_reducesTo (formed : t.WellFormed) (h : t.ReducesTo k states after)
    (settled : t.Settles k 0 after) : t.simulate states k = t.simulateWith k 0 after := by
  obtain ⟨n, settles⟩ := exists_settles h settled
  have enough := settles.le_reductionBound formed
  rw [simulate]
  generalize t.reductionBound states.length = fuel at enough
  induction h using ReflTransGen.head_induction_on generalizing n fuel with
  | refl => exact simulateWith_of_settled settled fuel
  | head step _ ih =>
    cases n with
    | zero => exact absurd step (settles _)
    | succ n =>
      obtain ⟨next, step', later⟩ := settles
      obtain rfl := step.unique step'
      obtain ⟨fuel, rfl⟩ : ∃ f, fuel = f + 1 := ⟨fuel - 1, by omega⟩
      rw [simulateWith_of_reduces step]
      exact ih n later fuel (Nat.le_of_succ_le_succ enough)

/-- Where a chain has no end, a simulation refuses the terminal. -/
theorem simulate_of_endless (endless : ∀ after, t.ReducesTo k states after → ¬ t.Settles k 0 after) :
    t.simulate states k = none := by
  rw [simulate]
  generalize t.reductionBound states.length = fuel
  have moves : ∃ after, t.Reduces k after states := by
    by_contra none
    exact endless states .refl (not_exists.1 none)
  induction fuel generalizing states with
  | zero =>
    obtain ⟨_, top, under, p, rfl, action, _⟩ := moves
    exact simulateWith_reduce_zero action
  | succ fuel ih =>
    obtain ⟨after, step⟩ := moves
    have later : ∀ last, t.ReducesTo k after last → ¬ t.Settles k 0 last :=
      fun last chain => endless last (.head step chain)
    rw [simulateWith_of_reduces step]
    refine ih later ?_
    by_contra none
    exact later after .refl (not_exists.1 none)

end ShaderTree.Table
