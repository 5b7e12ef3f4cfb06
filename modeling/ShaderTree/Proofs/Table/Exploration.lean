import Mathlib.Data.List.Sort
import Mathlib.Data.List.Sublists
import ShaderTree.Proofs.Table.Spread
import ShaderTree.Proofs.Table.States

/-! Closures hold all that their kernels stand for, and the exploration finds every state: for each
symbol behind a dot there is a transition to the state of the items behind it. -/
namespace ShaderTree

open Finset (range)

namespace Grammar

variable {g : Grammar}

/-- Starts of the nonterminals that were not seen yet. -/
def unseen (g : Grammar) (seen : IndexSet) : Nat :=
  ∑ n ∈ range g.nonterminals.size,
    if seen.mem n then 0 else ((Analysis.ofGrammar g).startsOf n).length

theorem unseen_insert {n : Nat} {seen : IndexSet} (new : seen.mem n = false) :
    ((Analysis.ofGrammar g).startsOf n).length + g.unseen (seen.insert n) ≤ g.unseen seen := by
  by_cases bound : n < g.nonterminals.size
  · have member := Finset.mem_range.2 bound
    unfold unseen
    rw [← Finset.add_sum_erase _ _ member, ← Finset.add_sum_erase _ _ member]
    have rest : ∑ m ∈ (range g.nonterminals.size).erase n,
        (if (seen.insert n).mem m then 0 else ((Analysis.ofGrammar g).startsOf m).length) =
        ∑ m ∈ (range g.nonterminals.size).erase n,
          (if seen.mem m then 0 else ((Analysis.ofGrammar g).startsOf m).length) := by
      apply Finset.sum_congr rfl
      intro m inside
      have other := Finset.ne_of_mem_erase inside
      simp [Ne.symm other]
    rw [rest]
    simp [new]
  · have same : ∀ m ∈ range g.nonterminals.size, (seen.insert n).mem m = seen.mem m := by
      intro m member
      have other : n ≠ m := fun same => bound (same ▸ Finset.mem_range.1 member)
      simp [other]
    rw [startsOf_eq_nil bound, List.length_nil, Nat.zero_add]
    unfold unseen
    exact Nat.le_of_eq (Finset.sum_congr rfl fun m member => by rw [same m member])

theorem unseen_empty_le : g.unseen .empty ≤ g.productions.size := by
  have all := g.sum_length_startsOf_le
  unfold unseen
  simpa using all

/-- Items with those of a queue and, but for the nonterminals seen before, the starts that they ask
for. -/
structure Answers (g : Grammar) (queue : List Item) (seen : IndexSet) (items : List Item) : Prop where
  queued : ∀ i ∈ queue, i ∈ items
  closed : ∀ i ∈ items, ∀ n, g.next? i = some (.nonterminal n) → seen.mem n = false →
    ∀ j ∈ (Analysis.ofGrammar g).startsOf n, j ∈ items

variable {queue items : List Item} {seen : IndexSet} {i : Item}

theorem Answers.pass (answers : g.Answers queue seen items)
    (old : ∀ n, g.next? i = some (.nonterminal n) → seen.mem n = true) :
    g.Answers (i :: queue) seen (i :: items) := by
  refine ⟨?_, ?_⟩
  · intro j member
    rcases List.mem_cons.mp member with rfl | member
    · exact .head _
    · exact .tail _ (answers.queued j member)
  · intro j member n next new k start
    rcases List.mem_cons.mp member with rfl | member
    · rw [old n next] at new
      cases new
    · exact .tail _ (answers.closed j member n next new k start)

theorem Answers.open {n : Nat} (next : g.next? i = some (.nonterminal n))
    (answers : g.Answers (queue ++ (Analysis.ofGrammar g).startsOf n) (seen.insert n) items) :
    g.Answers (i :: queue) seen (i :: items) := by
  have own : ∀ j ∈ (Analysis.ofGrammar g).startsOf n, j ∈ items := fun j start =>
    answers.queued j (List.mem_append_right _ start)
  refine ⟨?_, ?_⟩
  · intro j member
    rcases List.mem_cons.mp member with rfl | member
    · exact .head _
    · exact .tail _ (answers.queued j (List.mem_append_left _ member))
  · intro j member m isNext new k start
    rcases List.mem_cons.mp member with rfl | member
    · rw [next] at isNext
      obtain rfl := Symbol.nonterminal.inj (Option.some.inj isNext)
      exact .tail _ (own k start)
    · by_cases same : n = m
      · exact .tail _ (own k (same ▸ start))
      · exact .tail _ (answers.closed j member m isNext (by simp [new, same]) k start)

theorem closeQueue_answers (fuel : Nat) (queue : List Item) (seen : IndexSet)
    (enough : queue.length + g.unseen seen ≤ fuel) : g.Answers queue seen
      (g.closeQueue (Analysis.ofGrammar g).startsOf fuel queue seen) := by
  induction fuel generalizing queue seen with
  | zero =>
    have none : queue = [] := List.length_eq_zero_iff.1 (by omega)
    subst none
    exact ⟨by simp, by simp [closeQueue]⟩
  | succ fuel ih =>
    cases queue with
    | nil => exact ⟨by simp, by simp [closeQueue]⟩
    | cons i queue =>
      rw [List.length_cons] at enough
      rw [closeQueue]
      split
      · rename_i n next
        split
        · rename_i old
          refine (ih queue seen (by omega)).pass fun m isNext => ?_
          rw [next] at isNext
          exact Symbol.nonterminal.inj (Option.some.inj isNext) ▸ old
        · rename_i new
          have paid := @unseen_insert g n seen (Bool.eq_false_iff.2 new)
          refine .open next (ih _ _ ?_)
          rw [List.length_append]
          omega
      · rename_i other
        exact (ih queue seen (by omega)).pass fun m isNext => absurd isNext (other m)

/-- One item of the queue is taken into the closure. -/
def closeNext (g : Grammar) : List Item × List Item × IndexSet → Option (List Item × List Item × IndexSet)
  | (_, [], _) => none
  | (items, i :: queue, seen) =>
    match g.next? i with
    | some (.nonterminal n) =>
      if seen.mem n then some (items ++ [i], queue, seen)
      else some (items ++ [i], queue ++ (Analysis.ofGrammar g).startsOf n, seen.insert n)
    | _ => some (items ++ [i], queue, seen)

/-- The queue runs empty. -/
theorem stops_closeQueue (fuel : Nat) (items queue : List Item) (seen : IndexSet)
    (enough : queue.length + g.unseen seen ≤ fuel) : ∃ seen', Stops g.closeNext (items, queue, seen)
      (items ++ g.closeQueue (Analysis.ofGrammar g).startsOf fuel queue seen, [], seen') := by
  fun_induction closeQueue g (Analysis.ofGrammar g).startsOf fuel queue seen generalizing items with
  | case1 => exact ⟨_, by rw [List.append_nil], rfl⟩
  | case2 i queue =>
    rw [List.length_cons] at enough
    omega
  | case3 fuel i queue seen n next old ih =>
    rw [List.length_cons] at enough
    obtain ⟨seen', later, stop⟩ := ih (items ++ [i]) (by omega)
    rw [List.append_assoc] at later
    exact ⟨seen', .head (by simp [closeNext, next, old]) later, rfl⟩
  | case4 fuel i queue seen n next new ih =>
    have paid := @unseen_insert g n seen (Bool.eq_false_iff.2 new)
    rw [List.length_cons] at enough
    obtain ⟨seen', later, stop⟩ := ih (items ++ [i]) (by rw [List.length_append]; omega)
    rw [List.append_assoc] at later
    exact ⟨seen', .head (by simp [closeNext, next, new]) later, rfl⟩
  | case5 fuel i queue seen other ih =>
    rw [List.length_cons] at enough
    obtain ⟨seen', later, stop⟩ := ih (items ++ [i]) (by omega)
    rw [List.append_assoc] at later
    exact ⟨seen', .head (by unfold closeNext; split <;> simp_all) later, rfl⟩

theorem stops_closure (kernel : List Item) : ∃ seen, Stops g.closeNext ([], kernel, .empty)
    (g.closure (Analysis.ofGrammar g).startsOf kernel, [], seen) := by
  have room := g.unseen_empty_le
  exact g.stops_closeQueue _ [] kernel .empty (by omega)

theorem mem_closure {kernel : List Item} :
    i ∈ g.closure (Analysis.ofGrammar g).startsOf kernel ↔
      g.InClosure (Analysis.ofGrammar g).startsOf kernel i := by
  refine ⟨g.closure_sound, ?_⟩
  intro inside
  have room := g.unseen_empty_le
  have answers := g.closeQueue_answers (kernel.length + g.productions.size) kernel .empty (by omega)
  induction inside with
  | kernel member => exact answers.queued _ member
  | start before next member ih => exact answers.closed _ ih _ next (by simp) _ member

theorem nodup_startsOf (n : Nat) : ((Analysis.ofGrammar g).startsOf n).Nodup := by
  by_cases bound : n < g.nonterminals.size
  · have here : (Analysis.ofGrammar g).startsOf n = g.startsOf n := by
      unfold Analysis.startsOf Analysis.ofGrammar
      simp [bound]
    rw [here]
    refine List.Nodup.map (fun a b same => congrArg Item.production same) ?_
    exact List.Nodup.filter _ List.nodup_range
  · rw [startsOf_eq_nil bound]
    exact List.nodup_nil

theorem startsOf_disjoint {n m : Nat} (first : i ∈ (Analysis.ofGrammar g).startsOf n)
    (second : i ∈ (Analysis.ofGrammar g).startsOf m) : n = m := by
  obtain ⟨_, p, found, lhs⟩ := Analysis.startsOf_ofGrammar first
  obtain ⟨_, q, found', lhs'⟩ := Analysis.startsOf_ofGrammar second
  rw [found] at found'
  obtain rfl := Option.some.inj found'
  exact lhs.symm.trans lhs'

/-- No start of a nonterminal that was not seen yet is queued. -/
def Fresh (g : Grammar) (queue : List Item) (seen : IndexSet) : Prop :=
  ∀ n, seen.mem n = false → ∀ i ∈ (Analysis.ofGrammar g).startsOf n, i ∉ queue

/-- No item comes twice into a closure. -/
theorem closeQueue_nodup (fuel : Nat) (queue : List Item) (seen : IndexSet) (distinct : queue.Nodup)
    (fresh : g.Fresh queue seen) :
    (g.closeQueue (Analysis.ofGrammar g).startsOf fuel queue seen).Nodup ∧
      ∀ i ∈ g.closeQueue (Analysis.ofGrammar g).startsOf fuel queue seen,
        i ∈ queue ∨ ∃ n, seen.mem n = false ∧ i ∈ (Analysis.ofGrammar g).startsOf n := by
  induction fuel generalizing queue seen with
  | zero => cases queue <;> simp [closeQueue]
  | succ fuel ih =>
    cases queue with
    | nil => simp [closeQueue]
    | cons i queue =>
      obtain ⟨new, others⟩ := List.nodup_cons.1 distinct
      have later : g.Fresh queue seen := fun n unseen j start member =>
        fresh n unseen j start (.tail _ member)
      have pass : (i :: g.closeQueue (Analysis.ofGrammar g).startsOf fuel queue seen).Nodup ∧
          ∀ j ∈ i :: g.closeQueue (Analysis.ofGrammar g).startsOf fuel queue seen,
            j ∈ i :: queue ∨ ∃ n, seen.mem n = false ∧ j ∈ (Analysis.ofGrammar g).startsOf n := by
        obtain ⟨unique, origin⟩ := ih queue seen others later
        refine ⟨List.nodup_cons.2 ⟨fun member => ?_, unique⟩, ?_⟩
        · rcases origin i member with queued | ⟨n, unseen, start⟩
          · exact new queued
          · exact fresh n unseen i start (.head _)
        · intro j member
          rcases List.mem_cons.mp member with rfl | member
          · exact .inl (.head _)
          · rcases origin j member with queued | start
            · exact .inl (.tail _ queued)
            · exact .inr start
      rw [closeQueue]
      split
      · rename_i n next
        split
        · exact pass
        · rename_i notSeen
          have unseen : seen.mem n = false := by simpa using notSeen
          have disjoint : List.Disjoint queue ((Analysis.ofGrammar g).startsOf n) :=
            fun j queued start => later n unseen j start queued
          obtain ⟨unique, origin⟩ := ih (queue ++ (Analysis.ofGrammar g).startsOf n) (seen.insert n)
            (others.append (g.nodup_startsOf n) disjoint) (by
              intro m isNew j start member
              rw [IndexSet.mem_insert, Bool.or_eq_false_iff] at isNew
              rcases List.mem_append.mp member with queued | same
              · exact later m isNew.1 j start queued
              · exact of_decide_eq_false isNew.2 (startsOf_disjoint same start))
          have unseenBefore (m : Nat) (isNew : (seen.insert n).mem m = false) :
              seen.mem m = false := by
            rw [IndexSet.mem_insert, Bool.or_eq_false_iff] at isNew
            exact isNew.1
          refine ⟨List.nodup_cons.2 ⟨fun member => ?_, unique⟩, ?_⟩
          · rcases origin i member with queued | ⟨m, isNew, start⟩
            · rcases List.mem_append.mp queued with queued | start
              · exact new queued
              · exact fresh n unseen i start (.head _)
            · exact fresh m (unseenBefore m isNew) i start (.head _)
          · intro j member
            rcases List.mem_cons.mp member with rfl | member
            · exact .inl (.head _)
            · rcases origin j member with queued | ⟨m, isNew, start⟩
              · rcases List.mem_append.mp queued with queued | start
                · exact .inl (.tail _ queued)
                · exact .inr ⟨n, unseen, start⟩
              · exact .inr ⟨m, unseenBefore m isNew, start⟩
      · exact pass

theorem nodup_closure {kernel : List Item} (isKernel : g.IsKernel kernel) :
    (g.closure (Analysis.ofGrammar g).startsOf kernel).Nodup := by
  refine (g.closeQueue_nodup _ kernel .empty isKernel.distinct ?_).1
  intro n _ i start member
  rcases isKernel.inside i member with dot | production
  · exact dot (Analysis.startsOf_ofGrammar start).1
  · exact Analysis.production_ne_startRule start production

end Grammar

namespace Item

/-- The order of items in a kernel. -/
theorem le_total (i j : Item) : i.le j = true ∨ j.le i = true := by
  unfold le
  simp only [Bool.or_eq_true, Bool.and_eq_true, decide_eq_true_eq, beq_iff_eq]
  omega

theorem le_trans {i j k : Item} (first : i.le j = true) (second : j.le k = true) :
    i.le k = true := by
  unfold le at *
  simp only [Bool.or_eq_true, Bool.and_eq_true, decide_eq_true_eq, beq_iff_eq] at *
  omega

theorem le_antisymm {i j : Item} (first : i.le j = true) (second : j.le i = true) : i = j := by
  obtain ⟨p, d⟩ := i
  obtain ⟨q, e⟩ := j
  simp only [le, Bool.or_eq_true, Bool.and_eq_true, decide_eq_true_eq, beq_iff_eq] at first second
  rw [mk.injEq]
  omega

theorem perm_insert (i : Item) (items : List Item) : (insert i items).Perm (i :: items) := by
  induction items with
  | nil => exact .refl _
  | cons j js ih =>
    rw [insert]
    split
    · exact .refl _
    · exact (ih.cons j).trans (.swap i j js)

theorem perm_sort (items : List Item) : (sort items).Perm items := by
  induction items with
  | nil => exact .refl _
  | cons i is ih => exact (perm_insert i (sort is)).trans (ih.cons i)

theorem sorted_insert {i : Item} {items : List Item}
    (sorted : items.Pairwise (fun a b => a.le b = true)) :
    (insert i items).Pairwise (fun a b => a.le b = true) := by
  induction items with
  | nil => simp [insert]
  | cons j js ih =>
    obtain ⟨first, others⟩ := List.pairwise_cons.1 sorted
    rw [insert]
    split
    · rename_i le
      refine List.pairwise_cons.2 ⟨?_, sorted⟩
      intro k member
      rcases List.mem_cons.mp member with rfl | member
      · exact le
      · exact le_trans le (first k member)
    · rename_i notLe
      refine List.pairwise_cons.2 ⟨?_, ih others⟩
      intro k member
      rcases mem_insert.1 member with rfl | member
      · exact (le_total j k).resolve_right notLe
      · exact first k member

theorem sorted_sort (items : List Item) :
    (sort items).Pairwise (fun a b => a.le b = true) := by
  induction items with
  | nil => exact .nil
  | cons i is ih => exact sorted_insert ih

instance : Std.Antisymm (fun i j : Item => i.le j = true) := ⟨fun _ _ => le_antisymm⟩

/-- Sorted items are known from which they are. -/
theorem eq_of_sorted {items others : List Item} (distinct : items.Nodup) (distinct' : others.Nodup)
    (sorted : items.Pairwise (fun i j => i.le j = true))
    (sorted' : others.Pairwise (fun i j => i.le j = true)) (same : ∀ i, i ∈ items ↔ i ∈ others) :
    items = others :=
  ((List.perm_ext_iff_of_nodup distinct distinct').2 same).eq_of_pairwise' sorted sorted'

end Item

namespace Grammar

variable {g : Grammar}

/-- An item of the grammar. -/
def IsItem (g : Grammar) (i : Item) : Prop :=
  i.production ≤ g.startRule ∧ i.dot ≤ (g.rhs i.production).length

def allItems (g : Grammar) : List Item :=
  (List.range (g.startRule + 1)).flatMap fun p =>
    (List.range ((g.rhs p).length + 1)).map (Item.mk p)

theorem mem_allItems {i : Item} : i ∈ g.allItems ↔ g.IsItem i := by
  obtain ⟨p, d⟩ := i
  simp [allItems, IsItem, Nat.lt_succ_iff]

theorem length_allItems : g.allItems.length = Automaton.itemCount g := by
  have sum (ps : List Production) (n : Nat) :
      ps.foldl (fun n p => n + p.rhs.length + 1) n = n + (ps.map (·.rhs.length + 1)).sum := by
    induction ps generalizing n with
    | nil => rfl
    | cons p ps ih =>
      rw [List.foldl_cons, ih, List.map_cons, List.sum_cons]
      omega
  have rows : (List.range g.startRule).map (fun p => (g.rhs p).length + 1) =
      g.productions.toList.map (·.rhs.length + 1) := by
    apply List.ext_getElem
    · simp [startRule]
    · intro p bound _
      rw [List.length_map, List.length_range] at bound
      simp only [List.getElem_map, List.getElem_range, rhs, Array.getElem?_eq_getElem bound,
        Array.getElem_toList]
      rfl
  have last : (g.rhs g.startRule).length = 1 := by simp [rhs, startRule]
  unfold Automaton.itemCount
  rw [← Array.foldl_toList, sum, ← rows, allItems, List.length_flatMap, List.range_succ,
    List.map_append, List.sum_append]
  simp only [List.length_map, List.length_range, List.map_cons, List.map_nil, List.sum_cons,
    List.sum_nil, last]
  omega

/-- Sorted kernels of items of the grammar. -/
structure IsStateKernel (g : Grammar) (kernel : List Item) : Prop extends g.IsKernel kernel where
  sorted : kernel.Pairwise (fun i j => i.le j = true)
  items : ∀ i ∈ kernel, g.IsItem i

theorem isItem_start {n : Nat} {i : Item} (start : i ∈ (Analysis.ofGrammar g).startsOf n) :
    g.IsItem i := by
  obtain ⟨dot, p, found, _⟩ := Analysis.startsOf_ofGrammar start
  have bound := (Array.getElem?_eq_some_iff.1 found).1
  exact ⟨Nat.le_of_lt bound, dot ▸ Nat.zero_le _⟩

theorem isItem_closure {kernel : List Item} (items : ∀ i ∈ kernel, g.IsItem i) {i : Item}
    (inside : g.InClosure (Analysis.ofGrammar g).startsOf kernel i) : g.IsItem i := by
  cases inside with
  | kernel member => exact items i member
  | start before next member => exact isItem_start member

theorem isStateKernel_start : g.IsStateKernel [g.startItem] := by
  refine ⟨⟨by simp, ?_⟩, by simp, ?_⟩
  · intro i member
    rw [List.mem_singleton.1 member]
    exact .inr rfl
  · intro i member
    rw [List.mem_singleton.1 member]
    exact ⟨Nat.le_refl _, Nat.zero_le _⟩

/-- The items behind a symbol make a kernel. -/
theorem isStateKernel_passed {kernel : List Item} (isKernel : g.IsStateKernel kernel) (x : Symbol) :
    g.IsStateKernel (Item.sort
      (Automaton.passed g x (g.closure (Analysis.ofGrammar g).startsOf kernel))) := by
  have distinct := g.nodup_closure isKernel.toIsKernel
  refine ⟨⟨?_, ?_⟩, Item.sorted_sort _, ?_⟩
  · refine (Item.perm_sort _).nodup_iff.2 (List.Nodup.map ?_ (distinct.filter _))
    rintro ⟨p, d⟩ ⟨q, e⟩ same
    simpa [Item.advance] using same
  · intro i member
    obtain ⟨j, _, _, rfl⟩ := Automaton.mem_passed.1 (Item.mem_sort.1 member)
    exact .inl (Nat.succ_ne_zero _)
  · intro i member
    obtain ⟨j, inside, next, rfl⟩ := Automaton.mem_passed.1 (Item.mem_sort.1 member)
    have item := isItem_closure isKernel.items (g.mem_closure.1 inside)
    exact ⟨item.1, (List.getElem?_eq_some_iff.1 next).1⟩

/-- There are no more kernels than sets of items. -/
theorem length_kernels_le {kernels : List (List Item)} (distinct : kernels.Nodup)
    (known : ∀ kernel ∈ kernels, g.IsStateKernel kernel) :
    kernels.length ≤ Nat.pow 2 (Automaton.itemCount g) := by
  have count : (Item.sort g.allItems).sublists.length = Nat.pow 2 (Automaton.itemCount g) := by
    rw [List.length_sublists, (Item.perm_sort _).length_eq, length_allItems]
    rfl
  rw [← count]
  apply List.Nodup.length_le_of_subset distinct
  intro kernel member
  have isKernel := known kernel member
  rw [List.mem_sublists]
  refine List.sublist_of_subperm_of_pairwise (isKernel.distinct.subperm ?_) isKernel.sorted
    (Item.sorted_sort _)
  exact fun i inside => Item.mem_sort.2 (mem_allItems.2 (isKernel.items i inside))

end Grammar

namespace Automaton

variable {g : Grammar} {holds : List Item → Prop}

/-- Holds of the kernels of all states. -/
structure Inductive (g : Grammar) (holds : List Item → Prop) : Prop where
  isStateKernel : ∀ kernel, holds kernel → g.IsStateKernel kernel
  start : holds [g.startItem]
  step : ∀ kernel x, holds kernel →
    passed g x (g.closure (Analysis.ofGrammar g).startsOf kernel) ≠ [] →
    holds (Item.sort (passed g x (g.closure (Analysis.ofGrammar g).startsOf kernel)))

theorem inductive_isStateKernel (g : Grammar) : Inductive g g.IsStateKernel :=
  ⟨fun _ h => h, Grammar.isStateKernel_start, fun _ x h _ => Grammar.isStateKernel_passed h x⟩

/-- Kernels found so far, each of them once. -/
structure Found (holds : List Item → Prop) (kernels : Array (List Item)) : Prop where
  distinct : kernels.toList.Nodup
  known : ∀ kernel ∈ kernels.toList, holds kernel

theorem Found.intern {kernels : Array (List Item)} {kernel : List Item}
    (found : Found holds kernels) (isKernel : holds kernel) :
    Found holds (intern kernels kernel).1 := by
  unfold Automaton.intern
  split
  · exact found
  · rename_i absent
    have new : kernel ∉ kernels.toList := by
      intro member
      have differs := Array.findIdx?_eq_none_iff.1 absent kernel (Array.mem_toList_iff.1 member)
      simp at differs
    refine ⟨?_, ?_⟩
    · rw [Array.toList_push, List.nodup_append]
      refine ⟨found.distinct, by simp, ?_⟩
      intro a inside b last same
      rw [List.mem_singleton.1 last] at same
      exact new (same ▸ inside)
    · intro k member
      rw [Array.toList_push] at member
      rcases List.mem_append.mp member with old | last
      · exact found.known k old
      · rw [List.mem_singleton.1 last]
        exact isKernel

theorem Found.internAll {kernels : Array (List Item)} {list : List (Symbol × List Item)}
    (found : Found holds kernels) (known : ∀ move ∈ list, holds (Item.sort move.2)) :
    Found holds (internAll kernels list).1 := by
  induction list generalizing kernels with
  | nil => exact found
  | cons move list ih =>
    obtain ⟨x, items⟩ := move
    exact ih (found.intern (known _ (.head _))) fun move member => known move (.tail _ member)

theorem Inductive.moves (is : Inductive g holds) {kernel : List Item} (isKernel : holds kernel) :
    ∀ move ∈ moves g (g.closure (Analysis.ofGrammar g).startsOf kernel),
      holds (Item.sort move.2) := by
  rintro ⟨x, targets⟩ member
  obtain ⟨rfl, some⟩ := mem_moves.1 member
  exact is.step kernel x isKernel some

/-- The transitions of one kernel are found. -/
def exploreNext (g : Grammar) (s : Array (List Item) × Array AutomatonState) :
    Option (Array (List Item) × Array AutomatonState) :=
  s.1[s.2.size]?.map fun kernel =>
    let (kernels, transitions) :=
      internAll s.1 (moves g (g.closure (Analysis.ofGrammar g).startsOf kernel))
    (kernels, s.2.push ⟨kernel, transitions⟩)

theorem explore_complete (is : Inductive g holds) (fuel : Nat) {kernels : Array (List Item)}
    {done : Array AutomatonState} (found : Found holds kernels)
    (explored : Explored g (Analysis.ofGrammar g).startsOf kernels done)
    (inside : done.size ≤ kernels.size) (enough : Nat.pow 2 (itemCount g) ≤ fuel + done.size) :
    ∃ kernels', Explored g (Analysis.ofGrammar g).startsOf kernels'
        (explore g (Analysis.ofGrammar g).startsOf fuel kernels done) ∧ Found holds kernels' ∧
      kernels'.size = (explore g (Analysis.ofGrammar g).startsOf fuel kernels done).size ∧
      Stops (exploreNext g) (kernels, done)
        (kernels', explore g (Analysis.ofGrammar g).startsOf fuel kernels done) := by
  have limit {kernels : Array (List Item)} (found : Found holds kernels) :
      kernels.size ≤ Nat.pow 2 (itemCount g) :=
    Grammar.length_kernels_le found.distinct fun k member => is.isStateKernel k (found.known k member)
  induction fuel generalizing kernels done with
  | zero =>
    have most := limit found
    rw [Nat.zero_add] at enough
    have size := Nat.le_antisymm (Nat.le_trans most enough) inside
    exact ⟨kernels, explored, found, size, .refl, by simp [exploreNext, explore, size]⟩
  | succ fuel ih =>
    unfold explore
    split
    · rename_i none
      exact ⟨kernels, explored, found, Nat.le_antisymm (Array.getElem?_eq_none_iff.1 none) inside,
        .refl, by simp [exploreNext, none]⟩
    · rename_i kernel next
      have bound := (Array.getElem?_eq_some_iff.1 next).1
      have member := Array.mem_toList_iff.2 (Array.mem_of_getElem? next)
      have grown := found.internAll (is.moves (found.known kernel member))
      have pushed := explored_push explored next
      have here := pushed.kernel done.size _ Array.getElem?_push_size
      obtain ⟨kernels', explored', found', size, later, stop⟩ := ih grown pushed
        (by rw [Array.size_push]; exact (Array.getElem?_eq_some_iff.1 here).1)
        (by rw [Array.size_push]; omega)
      exact ⟨kernels', explored', found', size, .head (by simp [exploreNext, next]) later, stop⟩

theorem symbols_eq {kernels : Array (List Item)} {list : List (Symbol × List Item)}
    {transitions : List (Symbol × Nat)}
    (both : List.Forall₂ (fun move (transition : Symbol × Nat) => transition.1 = move.1 ∧
      kernels[transition.2]? = some (Item.sort move.2)) list transitions) :
    transitions.map (·.1) = list.map (·.1) := by
  induction both with
  | nil => rfl
  | cons first others ih => rw [List.map_cons, List.map_cons, ih, first.1]

/-- The exploration ends with every kernel explored. -/
theorem stops_ofGrammar (is : Inductive g holds) :
    ∃ kernels, Explored g (Analysis.ofGrammar g).startsOf kernels (ofGrammar g).states ∧
      Found holds kernels ∧ kernels.size = (ofGrammar g).states.size ∧
      Stops (exploreNext g) (#[[g.startItem]], #[]) (kernels, (ofGrammar g).states) := by
  refine explore_complete is _ ⟨by simp, ?_⟩ ⟨rfl, ?_, ?_⟩ (by simp) (by simp)
  · intro kernel member
    rw [List.mem_singleton.1 member]
    exact is.start
  · intro i s found
    simp at found
  · intro i s found
    simp at found

theorem found_ofGrammar (is : Inductive g holds) :
    ∃ kernels, Explored g (Analysis.ofGrammar g).startsOf kernels (ofGrammar g).states ∧
      Found holds kernels ∧ kernels.size = (ofGrammar g).states.size := by
  obtain ⟨kernels, explored, found, size, _⟩ := stops_ofGrammar is
  exact ⟨kernels, explored, found, size⟩

theorem Inductive.kernel (is : Inductive g holds) {state : Nat} {s : AutomatonState}
    (known : (ofGrammar g).states[state]? = some s) : holds s.kernel := by
  obtain ⟨kernels, explored, found, _⟩ := found_ofGrammar is
  have there := explored.kernel state s known
  exact found.known _ (Array.mem_toList_iff.2 (Array.mem_of_getElem? there))

/-- A state has one transition for a symbol. -/
theorem nodup_transitions {state : Nat} {s : AutomatonState}
    (known : (ofGrammar g).states[state]? = some s) : (s.transitions.map (·.1)).Nodup := by
  obtain ⟨kernels, explored, _, _⟩ := found_ofGrammar (inductive_isStateKernel g)
  rw [symbols_eq (explored.transitions state s known)]
  exact nodup_moves _

end Automaton

namespace Grammar

variable {g : Grammar} {state target : Nat} {x : Symbol} {i : Item}

theorem isStateKernel_kernelOf (g : Grammar) (state : Nat) :
    g.IsStateKernel ((Analysis.ofGrammar g).kernelOf state) := by
  cases known : (Automaton.ofGrammar g).states[state]? with
  | none =>
    unfold Analysis.kernelOf
    rw [show (Analysis.ofGrammar g).automaton = Automaton.ofGrammar g from rfl, known]
    exact ⟨⟨.nil, by simp⟩, .nil, by simp⟩
  | some s =>
    rw [kernelOf_eq known]
    exact (Automaton.inductive_isStateKernel g).kernel known

theorem isItem_of_holds (holds : g.Holds state i) : g.IsItem i :=
  isItem_closure (g.isStateKernel_kernelOf state).items holds

theorem next?_startItem (g : Grammar) : g.next? g.startItem = some (.nonterminal g.start) := by
  simp [next?, startItem, rhs, startRule]

theorem holds_startItem (g : Grammar) : g.Holds 0 g.startItem := by
  obtain ⟨kernels, explored, _, size⟩ :=
    Automaton.found_ofGrammar (Automaton.inductive_isStateKernel g)
  have inside := (Array.getElem?_eq_some_iff.1 explored.start).1
  have known := Array.getElem?_eq_getElem (size ▸ inside)
  refine .kernel ?_
  rw [kernelOf_eq known, Automaton.kernel_start known]
  exact .head _

/-- A transition leads to a state with the items behind its symbol for its kernel. -/
theorem Leads.kernel (leads : g.Leads state x target) :
    (∃ s, (Automaton.ofGrammar g).states[target]? = some s) ∧
      ∀ j, j ∈ (Analysis.ofGrammar g).kernelOf target ↔
        ∃ i, g.Holds state i ∧ g.next? i = some x ∧ j = i.advance := by
  obtain ⟨s, known, transition⟩ := leads
  obtain ⟨kernels, explored, found, size⟩ := Automaton.found_ofGrammar (Automaton.inductive_isStateKernel g)
  obtain ⟨items, move, kernel⟩ :=
    Automaton.exists_move (explored.transitions state s known) transition
  have bound := (Array.getElem?_eq_some_iff.1 kernel).1
  rw [size] at bound
  have there := Array.getElem?_eq_getElem bound
  refine ⟨⟨_, there⟩, ?_⟩
  have same := explored.kernel target _ there
  rw [kernel, Option.some.injEq] at same
  intro j
  rw [kernelOf_eq there, ← same, Item.mem_sort, (Automaton.mem_moves.1 move).1, Automaton.mem_passed]
  unfold Holds
  rw [kernelOf_eq known]
  simp only [mem_closure]

/-- For each symbol behind a dot there is a transition. -/
theorem exists_leads (h : g.Holds state i) (next : g.next? i = some x) :
    ∃ target, g.Leads state x target := by
  obtain ⟨s, known⟩ := exists_of_holds h
  obtain ⟨kernels, explored, found, size⟩ := Automaton.found_ofGrammar (Automaton.inductive_isStateKernel g)
  unfold Holds at h
  rw [kernelOf_eq known, ← mem_closure] at h
  have moves : (x, Automaton.passed g x (g.closure (Analysis.ofGrammar g).startsOf s.kernel)) ∈
      Automaton.moves g (g.closure (Analysis.ofGrammar g).startsOf s.kernel) := by
    refine Automaton.mem_moves.2 ⟨rfl, ?_⟩
    exact List.ne_nil_of_mem (Automaton.mem_passed.2 ⟨i, h, next, rfl⟩)
  have symbols := Automaton.symbols_eq (explored.transitions state s known)
  have inside : x ∈ s.transitions.map (·.1) := symbols ▸ List.mem_map_of_mem moves
  obtain ⟨⟨y, target⟩, transition, rfl⟩ := List.mem_map.1 inside
  exact ⟨target, s, known, transition⟩

/-- Every transition is over a symbol behind a dot. -/
theorem Leads.exists_next (leads : g.Leads state x target) :
    ∃ i, g.Holds state i ∧ g.next? i = some x := by
  obtain ⟨s, known, transition⟩ := leads
  obtain ⟨kernels, explored, _, _⟩ := Automaton.found_ofGrammar (Automaton.inductive_isStateKernel g)
  obtain ⟨items, move, _⟩ := Automaton.exists_move (explored.transitions state s known) transition
  obtain ⟨is, some⟩ := Automaton.mem_moves.1 move
  obtain ⟨j, member⟩ := List.exists_mem_of_ne_nil items some
  obtain ⟨i, inside, next, _⟩ := Automaton.mem_passed.1 (is ▸ member)
  refine ⟨i, ?_, next⟩
  unfold Holds
  rw [kernelOf_eq known]
  exact mem_closure.1 inside

/-- There is only one. -/
theorem Leads.unique {target' : Nat} (leads : g.Leads state x target)
    (leads' : g.Leads state x target') : target = target' := by
  obtain ⟨s, known, transition⟩ := leads
  obtain ⟨s', known', transition'⟩ := leads'
  rw [known] at known'
  obtain rfl := Option.some.inj known'
  have distinct := Automaton.nodup_transitions known
  exact congrArg Prod.snd (List.inj_on_of_nodup_map distinct transition transition' rfl)

theorem target?_eq : (Analysis.ofGrammar g).target? state x = some target ↔
    g.Leads state x target := by
  have only {s : AutomatonState} {t : Nat} (known : (Automaton.ofGrammar g).states[state]? = some s)
      (found : (s.transitions.find? (·.1 = x)).map (·.2) = some t) : g.Leads state x t := by
    obtain ⟨entry, first, rfl⟩ := Option.map_eq_some_iff.1 found
    have symbol : entry.1 = x := by simpa using List.find?_some first
    exact ⟨s, known, symbol ▸ List.mem_of_find?_eq_some first⟩
  unfold Analysis.target?
  rw [show (Analysis.ofGrammar g).automaton = Automaton.ofGrammar g from rfl]
  constructor
  · intro found
    obtain ⟨s, known, found⟩ := Option.bind_eq_some_iff.1 found
    exact only known found
  · intro leads
    obtain ⟨s, known, transition⟩ := id leads
    rw [known]
    cases found : s.transitions.find? (·.1 = x) with
    | none =>
      have absent := List.find?_eq_none.1 found _ transition
      simp at absent
    | some entry =>
      have same := leads.unique (only known (by rw [found]; rfl))
      simp [found, same]

end Grammar

end ShaderTree
