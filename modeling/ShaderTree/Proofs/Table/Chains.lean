import ShaderTree.Proofs.Grammar.Corners
import ShaderTree.Proofs.Table.Completeness

/-! The reductions that a built table asks for on one terminal come to an end, if the grammar has
neither cycles nor hidden left recursion. Symbols that vanish pile up only to a certain height, and
a symbol that is reduced where it stands only ever rises in rank. -/
namespace ShaderTree

open Relation (ReflTransGen)

namespace Grammar

variable {g : Grammar} {path : List Symbol} {state : Nat}

theorem Reaches.unique {state' : Nat} (reaches : g.Reaches path state)
    (reaches' : g.Reaches path state') : state = state' := by
  induction reaches generalizing state' with
  | start =>
    cases reaches'
    rfl
  | step before leads ih =>
    cases reaches' with
    | step before' leads' =>
      obtain rfl := ih before'
      exact leads.unique leads'

theorem Spells.exists_cons {states : List Nat} (spells : g.Spells path states) :
    ∃ top below, states = top :: below := by
  cases spells with
  | start => exact ⟨0, [], rfl⟩
  | step before leads => exact ⟨_, _, rfl⟩

/-- What stands in front of the dot of an item was read last, on a state with the item's start. -/
theorem Spells.read {top p d : Nat} {below : List Nat} (spells : g.Spells path (top :: below))
    (holds : g.Holds top ⟨p, d⟩) : d ≤ path.length ∧ (path.take d).reverse = (g.rhs p).take d ∧
      ∃ base under, (top :: below).drop d = base :: under ∧
        g.Spells (path.drop d) (base :: under) ∧ g.Holds base ⟨p, 0⟩ := by
  obtain ⟨bound, read, base, further, start⟩ := spells.reaches.read holds
  have rest := spells.drop bound
  obtain ⟨base', under, stack⟩ := rest.exists_cons
  rw [stack] at rest
  obtain rfl := further.unique rest.reaches
  exact ⟨bound, read, base, under, stack, rest, start⟩

/-- The production of an item that starts in a state. -/
theorem isRule_of_holds {p : Nat} (holds : g.Holds state ⟨p, 0⟩) (other : p ≠ g.startRule) :
    ∃ production, g.IsRule p production := by
  rcases holds.cases with member | ⟨n, start⟩
  · rcases (g.isStateKernel_kernelOf state).inside _ member with dot | isStart
    · exact absurd rfl dot
    · exact absurd isStart other
  · obtain ⟨_, production, found, lhs⟩ := Analysis.startsOf_ofGrammar start
    refine ⟨production, found, ?_⟩
    by_contra outside
    rw [lhs] at outside
    rw [startsOf_eq_nil outside] at start
    cases start

/-- An item that starts in a state does so for a nonterminal behind a dot of the kernel, of which it
is a corner. -/
theorem Holds.corner {i : Item} (holds : g.Holds state i) :
    i ∈ (Analysis.ofGrammar g).kernelOf state ∨ i.dot = 0 ∧ ∃ production,
      g.IsRule i.production production ∧ ∃ j ∈ (Analysis.ofGrammar g).kernelOf state, ∃ n,
        n < g.nonterminals.size ∧ g.next? j = some (.nonterminal n) ∧
          ReflTransGen g.Corner n production.lhs := by
  unfold Holds at holds
  induction holds with
  | kernel member => exact .inl member
  | @start i j n before next start ih =>
    obtain ⟨dot, production, found, rfl⟩ := Analysis.startsOf_ofGrammar start
    have inside : production.lhs < g.nonterminals.size := by
      by_contra outside
      rw [startsOf_eq_nil outside] at start
      cases start
    refine .inr ⟨dot, production, ⟨found, inside⟩, ?_⟩
    rcases ih with member | ⟨dot', production', rule, j', member, n, bound, next', corners⟩
    · exact ⟨i, member, _, inside, next, .refl⟩
    · refine ⟨j', member, n, bound, next', corners.tail ⟨[], production'.rhs.drop 1, ⟨inside, ?_⟩,
        vanishes_nil⟩⟩
      have first : production'.rhs[0]? = some (.nonterminal production.lhs) := by
        rwa [next?, dot', Grammar.rhs, rule.1] at next
      obtain ⟨back, whole⟩ := List.head?_eq_some_iff.1 (List.head?_eq_getElem? .. ▸ first)
      exact ⟨_, production', rule, rfl, by rw [whole]; rfl⟩

/-- Where an item of a production starts, there is a transition over the nonterminal it is for. -/
theorem Holds.exists_goto {p : Nat} {production : Production} (holds : g.Holds state ⟨p, 0⟩)
    (rule : g.IsRule p production) : ∃ target, g.Leads state (.nonterminal production.lhs) target := by
  unfold Holds at holds
  cases holds with
  | kernel member =>
    rcases (g.isStateKernel_kernelOf state).inside _ member with moved | isStart
    · exact absurd rfl moved
    · exact absurd isStart (Nat.ne_of_lt (Array.getElem?_eq_some_iff.1 rule.1).1)
  | @start i _ n before next start =>
    obtain ⟨_, production', found, lhs⟩ := Analysis.startsOf_ofGrammar start
    obtain rfl := Option.some.inj (found.symm.trans rule.1)
    exact exists_leads before (lhs ▸ next)

/-- A state that something leads to holds an item whose dot has moved. -/
theorem Leads.exists_moved {x : Symbol} {target : Nat} (leads : g.Leads state x target) :
    ∃ p d, g.Holds target ⟨p, d⟩ ∧ d ≠ 0 := by
  obtain ⟨i, holds, next⟩ := leads.exists_next
  exact ⟨i.production, i.dot + 1, .kernel ((leads.kernel.2 _).2 ⟨i, holds, next, rfl⟩),
    Nat.succ_ne_zero _⟩

/-- The lengths of right-hand sides are bounded. -/
theorem exists_length (g : Grammar) : ∃ most, 0 < most ∧ ∀ p, (g.rhs p).length ≤ most := by
  refine ⟨(g.productions.toList.map (·.rhs.length)).sum + 1, Nat.succ_pos _, ?_⟩
  intro p
  unfold rhs
  split
  · rename_i production found
    have member : production ∈ g.productions.toList :=
      Array.mem_toList_iff.2 (Array.mem_of_getElem? found)
    exact Nat.le_succ_of_le (List.le_sum_of_mem (List.mem_map_of_mem member))
  · exact Nat.succ_le_succ (Nat.zero_le _)

section Height

variable {rank : Nat → Nat} {most : Nat}

/-- Where symbols that vanish stand in front of the dot of an item, the nonterminal behind the dot is
a hidden corner. -/
theorem hiddenCorner_of_read {upper lower : List Symbol} {q e n : Nat} {production : Production}
    (rule : g.IsRule q production) (inside : n < g.nonterminals.size)
    (next : g.next? ⟨q, e⟩ = some (.nonterminal n)) (moved : e ≠ 0) (among : e ≤ upper.length)
    (vanish : ∀ x ∈ upper, g.Vanishes [x])
    (read : ((upper ++ lower).take e).reverse = (g.rhs q).take e) :
    g.HiddenCorner production.lhs n := by
  have rhs : g.rhs q = production.rhs := by rw [Grammar.rhs, rule.1]
  rw [List.take_append_of_le_length among, rhs] at read
  rw [next?, rhs] at next
  obtain ⟨bound, is⟩ := List.getElem?_eq_some_iff.1 next
  refine ⟨production.rhs.take e, production.rhs.drop (e + 1), ⟨inside, q, production, rule, rfl, ?_⟩,
    ?_, ?_⟩
  · rw [← is, List.getElem_cons_drop, List.take_append_drop]
  · rw [← read]
    exact vanishes_of_forall fun x member =>
      vanish x (List.mem_of_mem_take (List.mem_reverse.1 member))
  · intro nothing
    have length := congrArg List.length nothing
    rw [List.length_take, List.length_nil] at length
    omega

/-- The item for which another one starts in a state above the first. -/
theorem Holds.exists_open {p top : Nat} {below : List Nat} {production : Production}
    (holds : g.Holds top ⟨p, 0⟩) (rule : g.IsRule p production)
    (spells : g.Spells path (top :: below)) (nonempty : path ≠ []) :
    ∃ q e n production', g.Holds top ⟨q, e⟩ ∧ e ≠ 0 ∧ g.IsRule q production' ∧
      n < g.nonterminals.size ∧ g.next? ⟨q, e⟩ = some (.nonterminal n) ∧
      ReflTransGen g.Corner n production.lhs := by
  have notStart : ¬ g.Holds top g.startItem := fun isStart =>
    nonempty (spells.reaches.eq_nil_of_startItem isStart)
  have known (q e : Nat) (member : (⟨q, e⟩ : Item) ∈ (Analysis.ofGrammar g).kernelOf top)
      (n : Nat) (next : g.next? ⟨q, e⟩ = some (.nonterminal n)) :
      e ≠ 0 ∧ q ≠ g.startRule := by
    have other : q ≠ g.startRule := by
      rintro rfl
      have bound := (List.getElem?_eq_some_iff.1 next).1
      simp only [Grammar.rhs, startRule, Array.getElem?_size, List.length_singleton] at bound
      obtain rfl := Nat.lt_one_iff.1 bound
      exact notStart (.kernel member)
    rcases (g.isStateKernel_kernelOf top).inside _ member with moved | isStart
    · exact ⟨moved, other⟩
    · exact absurd isStart other
  rcases holds.corner with member | ⟨_, production', rule', ⟨q, e⟩, member, n, inside, next, corners⟩
  · rcases (g.isStateKernel_kernelOf top).inside _ member with other | isStart
    · exact absurd rfl other
    · exact absurd isStart (Nat.ne_of_lt (Array.getElem?_eq_some_iff.1 rule.1).1)
  · obtain rfl := Option.some.inj (rule'.1.symm.trans rule.1)
    obtain ⟨moved, other⟩ := known q e member n next
    obtain ⟨_, _, base, under, _, _, start⟩ := spells.read (.kernel member)
    obtain ⟨production', rule''⟩ := isRule_of_holds start other
    exact ⟨q, e, n, production', .kernel member, moved, rule'', inside, next, corners⟩

theorem rank_le_of_corners (flat : ∀ a b, g.Corner a b → rank b ≤ rank a) {a b : Nat}
    (corners : ReflTransGen g.Corner a b) : rank b ≤ rank a := by
  induction corners with
  | refl => exact Nat.le_refl _
  | tail _ corner ih => exact Nat.le_trans (flat _ _ corner) ih

/-- How many symbols that vanish can stand on a stack above one another, by the rank of an item on
top: each item below it that started among them is of a higher rank. -/
theorem height_le (low : ∀ a, rank a ≤ g.nonterminals.size)
    (flat : ∀ a b, g.Corner a b → rank b ≤ rank a)
    (falls : ∀ a b, g.HiddenCorner a b → rank b < rank a)
    (short : ∀ p, (g.rhs p).length ≤ most) (n : Nat) {upper lower : List Symbol} {top p d : Nat}
    {below : List Nat} {production : Production} (size : upper.length = n)
    (spells : g.Spells (upper ++ lower) (top :: below)) (vanish : ∀ x ∈ upper, g.Vanishes [x])
    (holds : g.Holds top ⟨p, d⟩) (rule : g.IsRule p production) (moved : d ≠ 0) :
    upper.length ≤ most * (g.nonterminals.size + 2 - rank production.lhs) := by
  induction n using Nat.strong_induction_on generalizing upper top p d below production with
  | _ n ih =>
    have dot {state q e : Nat} (holds : g.Holds state ⟨q, e⟩) : e ≤ most :=
      Nat.le_trans (isItem_closure (g.isStateKernel_kernelOf state).items holds).2 (short q)
    have room : most * 2 ≤ most * (g.nonterminals.size + 2 - rank production.lhs) :=
      Nat.mul_le_mul_left _ (by have := low production.lhs; omega)
    have first := dot holds
    by_cases all : upper.length ≤ d
    · omega
    · obtain ⟨_, _, base, under, _, spells', start⟩ := spells.read holds
      rw [List.drop_append_of_le_length (Nat.le_of_not_le all)] at spells'
      have length : (upper.drop d).length = upper.length - d := List.length_drop
      have nonempty : upper.drop d ++ lower ≠ [] := by
        intro nothing
        have lengths := congrArg List.length nothing
        rw [List.length_append, List.length_nil] at lengths
        omega
      obtain ⟨q, e, m, production', holds', moved', rule', inside, next, corners⟩ :=
        start.exists_open rule spells' nonempty
      have second := dot holds'
      by_cases among : e ≤ (upper.drop d).length
      · have vanish' : ∀ x ∈ upper.drop d, g.Vanishes [x] :=
          fun x member => vanish x (List.mem_of_mem_drop member)
        have hidden := hiddenCorner_of_read rule' inside next moved' among vanish'
          (spells'.read holds').2.1
        have lower' := rank_le_of_corners flat corners
        have rest := ih (upper.length - d) (by omega) length spells' vanish' holds' rule' moved'
        have higher := falls _ _ hidden
        have low' := low production'.lhs
        have step : most * (g.nonterminals.size + 2 - rank production'.lhs) + most ≤
            most * (g.nonterminals.size + 2 - rank production.lhs) := by
          rw [← Nat.mul_succ]
          exact Nat.mul_le_mul_left _ (by omega)
        omega
      · omega

/-- Symbols that vanish stand on a stack above one another only up to a certain height. -/
theorem NoHiddenRecursion.exists_height (none : g.NoHiddenRecursion) : ∃ height, ∀ {upper lower :
    List Symbol} {states : List Nat}, g.Spells (upper ++ lower) states →
      (∀ x ∈ upper, g.Vanishes [x]) → upper.length ≤ height := by
  obtain ⟨rank, low, flat, falls⟩ := none.exists_rank
  obtain ⟨most, positive, short⟩ := g.exists_length
  refine ⟨most * (g.nonterminals.size + 2), ?_⟩
  intro upper lower states spells vanish
  have least : 1 ≤ most * (g.nonterminals.size + 2) := Nat.mul_pos positive (Nat.succ_pos _)
  obtain ⟨top, below, rfl⟩ := spells.exists_cons
  cases upper with
  | nil => exact Nat.zero_le _
  | cons x upper =>
    obtain ⟨p, d, holds, moved⟩ : ∃ p d, g.Holds top ⟨p, d⟩ ∧ d ≠ 0 := by
      cases spells with
      | step before leads => exact leads.exists_moved
    obtain ⟨bound, read, base, under, _, spells', start⟩ := spells.read holds
    by_cases isStart : p = g.startRule
    · subst isStart
      have behind := spells'.reaches.eq_nil_of_startItem start
      have rhs : (g.rhs g.startRule).length = 1 := by simp [Grammar.rhs, startRule]
      have items := isItem_closure (g.isStateKernel_kernelOf top).items holds
      have lengths := congrArg List.length behind
      rw [List.length_drop, List.length_append, List.length_nil] at lengths
      have dot : d ≤ 1 := rhs ▸ items.2
      omega
    · obtain ⟨production, rule⟩ := isRule_of_holds start isStart
      refine Nat.le_trans (height_le low flat falls short _ rfl spells vanish holds rule moved) ?_
      exact Nat.mul_le_mul_left _ (Nat.sub_le _ _)

end Height

end Grammar

namespace Table

/-- A reduction that the table asks for on a terminal. -/
def Reduces (t : Table) (k : Kind) (after states : List Nat) : Prop :=
  ∃ top below p, states = top :: below ∧ t.action top k = .reduce p ∧
    t.reduceStates p states = some after

/-- The reductions that the table asks for on a terminal come to an end. -/
def Halts (t : Table) (k : Kind) (states : List Nat) : Prop := Acc (t.Reduces k) states

end Table

namespace Grammar

variable {g : Grammar} {t : Table} {k : Kind}

theorem Spells.reduces {path : List Symbol} {states after : List Nat} (built : t.BuiltFrom g)
    (spells : g.Spells path states) (reduces : t.Reduces k after states) :
    ∃ p production base, g.IsRule p production ∧ path = production.rhs.reverse ++ base ∧
      g.Spells (.nonterminal production.lhs :: base) after := by
  obtain ⟨top, below, p, rfl, action, reduced⟩ := reduces
  obtain ⟨production, front, rule, whole, spelled⟩ := spells.reduce built action reduced
  refine ⟨p, production, front.reverse, rule, ?_, spelled⟩
  rw [← List.reverse_reverse path, whole, List.reverse_append]

/-- Every reduction that the table asks for can be made. -/
theorem Spells.exists_reduce {path : List Symbol} {top p : Nat} {below : List Nat}
    (built : t.BuiltFrom g) (spells : g.Spells path (top :: below))
    (action : t.action top k = .reduce p) :
    ∃ after, t.reduceStates p (top :: below) = some after := by
  obtain ⟨d, holds, complete, other⟩ := Table.holds_of_reduce built action
  obtain ⟨same, _, _⟩ := spells.reaches.read_complete holds complete
  obtain ⟨_, _, base, under, dropped, _, start⟩ := spells.read holds
  obtain ⟨production, rule⟩ := isRule_of_holds start other
  have reduction : t.reductions[p]? = some ⟨production.lhs, production.rhs.length,
      g.nonterminals[production.lhs]?.bind (·.node?)⟩ :=
    Table.reductions_getElem? built rule.1
  have length : production.rhs.length = d := by rw [← same, Grammar.rhs, rule.1]
  obtain ⟨next, leads⟩ := start.exists_goto rule
  exact ⟨_, Table.reduceStates_eq reduction (length ▸ dropped)
    (Table.goto_of_leads built rule.2 leads)⟩

theorem vanishes_concat {xs : List Symbol} {x : Symbol} (each : ∀ y ∈ xs, g.Vanishes [y])
    (last : g.Vanishes [x]) : ∀ y ∈ xs ++ [x], g.Vanishes [y] := by
  intro y member
  rcases List.mem_append.mp member with member | member
  · exact each y member
  · exact List.mem_singleton.1 member ▸ last

theorem Vanishes.exists_nonterminal {x : Symbol} (vanishes : g.Vanishes [x]) :
    ∃ n, x = .nonterminal n ∧ n < g.nonterminals.size := by
  obtain ⟨ps, parses⟩ := vanishes
  generalize isEmpty : ([] : List Kind) = w at parses
  cases parses with
  | terminal => cases isEmpty
  | nonterminal rule => exact ⟨_, rfl, rule.2⟩

/-- A right-hand side of one nonterminal and symbols that vanish. -/
theorem reproduces_of_reverse {upper : List Symbol} {p n : Nat} {production : Production}
    (rule : g.IsRule p production) (inside : n < g.nonterminals.size)
    (vanish : ∀ x ∈ upper, g.Vanishes [x])
    (whole : production.rhs.reverse = upper ++ [.nonterminal n]) :
    g.Reproduces production.lhs n := by
  refine ⟨[], upper.reverse, ⟨inside, p, production, rule, rfl, ?_⟩, vanishes_nil, ?_⟩
  · rw [← List.reverse_reverse production.rhs, whole, List.reverse_append]
    rfl
  · exact vanishes_of_forall fun x member => vanish x (List.mem_reverse.1 member)

/-- What happens where a reduction takes symbols off a path: it makes a stack that halts. -/
def Leaves (g : Grammar) (t : Table) (k : Kind) (path : List Symbol) : Prop :=
  ∀ {upper taken base : List Symbol} {p : Nat} {production : Production} {after : List Nat},
    (∀ x ∈ upper, g.Vanishes [x]) → g.IsRule p production →
    production.rhs.reverse = upper ++ taken → taken ≠ [] → path = taken ++ base →
    g.Spells (.nonterminal production.lhs :: base) after → t.Halts k after

/-- Stacks halt with symbols that vanish above a path, if they do with one more such symbol on the
path and once the path is reduced. -/
theorem halts_of_symbol {path : List Symbol} (built : t.BuiltFrom g) (leaves : g.Leaves t k path)
    (higher : ∀ {upper : List Symbol} {x : Symbol} {states : List Nat}, g.Vanishes [x] →
      (∀ y ∈ upper, g.Vanishes [y]) → g.Spells (upper ++ x :: path) states → t.Halts k states)
    {upper : List Symbol} {states : List Nat} (vanish : ∀ x ∈ upper, g.Vanishes [x])
    (spells : g.Spells (upper ++ path) states) : t.Halts k states := by
  rcases List.eq_nil_or_concat upper with rfl | ⟨upper, x, rfl⟩
  · refine Acc.intro _ fun after reduces => ?_
    obtain ⟨p, production, base, rule, whole, spelled⟩ := spells.reduces built reduces
    rw [List.nil_append] at whole
    by_cases empty : production.rhs = []
    · rw [empty, List.reverse_nil, List.nil_append] at whole
      subst whole
      exact higher (.symbol rule (empty ▸ vanishes_nil)) (List.forall_mem_nil _) spelled
    · exact leaves (List.forall_mem_nil _) rule rfl (by simpa using empty) whole spelled
  · rw [List.concat_eq_append] at vanish spells
    rw [List.append_assoc] at spells
    exact higher (vanish x (by simp)) (fun y member => vanish y (by simp [member])) spells

/-- Stacks halt with symbols that vanish above a path, if they do once the path is reduced. -/
theorem halts_above {rank : Nat → Nat} (low : ∀ a, rank a ≤ g.nonterminals.size)
    (falls : ∀ a b, g.Reproduces a b → rank b < rank a) (built : t.BuiltFrom g) (height : Nat)
    {path : List Symbol} (room : ∀ {upper : List Symbol} {states : List Nat},
      g.Spells (upper ++ path) states → (∀ x ∈ upper, g.Vanishes [x]) → upper.length ≤ height)
    (leaves : g.Leaves t k path) {upper : List Symbol} {states : List Nat}
    (vanish : ∀ x ∈ upper, g.Vanishes [x]) (spells : g.Spells (upper ++ path) states) :
    t.Halts k states := by
  induction height generalizing path upper states with
  | zero =>
    refine halts_of_symbol built leaves ?_ vanish spells
    intro upper x states vanishes vanish spells
    have none := room (by rwa [List.append_cons] at spells) (vanishes_concat vanish vanishes)
    simp at none
  | succ height ih =>
    refine halts_of_symbol built leaves ?_ vanish spells
    clear vanish spells
    intro upper x states vanishes vanish spells
    obtain ⟨n, rfl, inside⟩ := vanishes.exists_nonterminal
    generalize away : g.nonterminals.size - rank n = distance
    induction distance using Nat.strong_induction_on generalizing n upper states with
    | _ distance further =>
      refine ih ?_ ?_ vanish spells
      · intro upper' states' spells' vanish'
        have above := room (by rwa [List.append_cons] at spells')
          (vanishes_concat vanish' vanishes)
        rw [List.length_append, List.length_singleton] at above
        exact Nat.le_of_succ_le_succ above
      · intro upper' taken base p production after vanish' rule whole nonempty is spelled
        cases taken with
        | nil => exact absurd rfl nonempty
        | cons y taken =>
          obtain ⟨rfl, rfl⟩ := List.cons.inj is
          cases taken with
          | nil =>
            have above := falls _ _ (reproduces_of_reverse rule inside vanish' whole)
            have low' := low production.lhs
            have rhs : g.Vanishes production.rhs := vanishes_of_forall fun y member =>
              vanishes_concat vanish' vanishes y (whole ▸ List.mem_reverse.2 member)
            exact further _ (by omega) (List.forall_mem_nil _) production.lhs rule.2
              (.symbol rule rhs) spelled rfl
          | cons z taken =>
            rw [List.append_cons] at whole
            exact leaves (vanishes_concat vanish' vanishes) rule whole (by simp) rfl spelled

/-- How far the symbol on top of a path is from the highest rank. What nothing reproduces counts as
below all ranks. -/
def away (g : Grammar) (rank : Nat → Nat) : List Symbol → Nat
  | .nonterminal n :: _ =>
    if n < g.nonterminals.size then g.nonterminals.size - rank n else g.nonterminals.size + 1
  | _ => g.nonterminals.size + 1

/-- On no stack and for no terminal do the reductions that the table asks for go on for ever. -/
theorem Spells.halts (acyclic : g.Acyclic) (none : g.NoHiddenRecursion) (built : t.BuiltFrom g)
    {path : List Symbol} {states : List Nat} (spells : g.Spells path states) :
    t.Halts k states := by
  obtain ⟨rank, low, falls⟩ := acyclic.exists_rank
  obtain ⟨height, room⟩ := none.exists_height
  suffices all : ∀ (length distance : Nat) {path : List Symbol}, path.length = length →
      g.away rank path = distance → ∀ {upper : List Symbol} {states : List Nat},
      (∀ x ∈ upper, g.Vanishes [x]) → g.Spells (upper ++ path) states → t.Halts k states from
    all _ _ rfl rfl (List.forall_mem_nil _) spells
  intro length
  induction length using Nat.strong_induction_on with
  | _ length shorter =>
    intro distance
    induction distance using Nat.strong_induction_on with
    | _ distance nearer =>
      intro path isLength isDistance upper states vanish spells
      refine halts_above low falls built height room ?_ vanish spells
      intro upper' taken base p production after vanish' rule whole nonempty is spelled
      have low' := low production.lhs
      match taken, nonempty with
      | [x], _ =>
        have size : (Symbol.nonterminal production.lhs :: base).length = length := by
          rw [← isLength, is]
          rfl
        refine nearer _ ?_ size rfl (List.forall_mem_nil _) spelled
        rw [away, if_pos rule.2, ← isDistance, is]
        cases x with
        | terminal c => exact Nat.lt_succ_of_le (Nat.sub_le _ _)
        | nonterminal n =>
          rw [List.singleton_append, away]
          split
          · rename_i inside
            have above := falls _ _ (reproduces_of_reverse rule inside vanish' whole)
            omega
          · exact Nat.lt_succ_of_le (Nat.sub_le _ _)
      | x :: y :: taken, _ =>
        refine shorter _ ?_ _ rfl rfl (List.forall_mem_nil _) spelled
        rw [← isLength, is, List.length_append]
        simp only [List.length_cons]
        omega

end Grammar

end ShaderTree
