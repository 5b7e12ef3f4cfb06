import Mathlib.Data.List.Forall2
import ShaderTree.Proofs.Table.Rows

/-! What the states of a built automaton are: the first holds the start item, and the items of every
other one come from those of the states in front of it. -/
namespace ShaderTree

namespace Item

theorem mem_insert {i j : Item} {items : List Item} : j ∈ insert i items ↔ j = i ∨ j ∈ items := by
  induction items with
  | nil => simp [insert]
  | cons k ks ih =>
    rw [insert]
    split
    · simp
    · rw [List.mem_cons, List.mem_cons, ih]
      constructor
      · rintro (rfl | rfl | inside)
        · exact .inr (.inl rfl)
        · exact .inl rfl
        · exact .inr (.inr inside)
      · rintro (rfl | rfl | inside)
        · exact .inr (.inl rfl)
        · exact .inl rfl
        · exact .inr (.inr inside)

theorem mem_sort {j : Item} {items : List Item} : j ∈ sort items ↔ j ∈ items := by
  induction items with
  | nil => rfl
  | cons i is ih =>
    change j ∈ insert i (sort is) ↔ _
    rw [mem_insert, ih, List.mem_cons]

end Item

namespace Grammar

variable {g : Grammar} {starts : Nat → List Item}

/-- Items that a kernel stands for. -/
inductive InClosure (g : Grammar) (starts : Nat → List Item) (kernel : List Item) : Item → Prop
  | kernel {i : Item} (member : i ∈ kernel) : InClosure g starts kernel i
  | start {i j : Item} {n : Nat} (before : InClosure g starts kernel i)
      (next : g.next? i = some (.nonterminal n)) (member : j ∈ starts n) :
      InClosure g starts kernel j

theorem InClosure.congr {kernel kernel' : List Item} {i : Item} (same : ∀ j ∈ kernel, j ∈ kernel')
    (inside : InClosure g starts kernel i) : InClosure g starts kernel' i := by
  induction inside with
  | kernel member => exact .kernel (same _ member)
  | start _ next member ih => exact .start ih next member

theorem closeQueue_sound {kernel : List Item} (fuel : Nat) (queue : List Item) (seen : IndexSet)
    (known : ∀ i ∈ queue, InClosure g starts kernel i) :
    ∀ i ∈ closeQueue g starts fuel queue seen, InClosure g starts kernel i := by
  induction fuel generalizing queue seen with
  | zero =>
    cases queue with
    | nil => simp [closeQueue]
    | cons i queue => simp [closeQueue]
  | succ fuel ih =>
    cases queue with
    | nil => simp [closeQueue]
    | cons i queue =>
      have own := known i (by simp)
      have others : ∀ j ∈ queue, InClosure g starts kernel j :=
        fun j member => known j (by simp [member])
      intro j member
      rw [closeQueue] at member
      split at member
      · rename_i n next
        split at member
        · rcases List.mem_cons.mp member with rfl | member
          · exact own
          · exact ih queue seen others j member
        · rcases List.mem_cons.mp member with rfl | member
          · exact own
          · refine ih (queue ++ starts n) (seen.insert n) ?_ j member
            intro k inside
            rcases List.mem_append.mp inside with old | new
            · exact others k old
            · exact .start own next new
      · rcases List.mem_cons.mp member with rfl | member
        · exact own
        · exact ih queue seen others j member

theorem closure_sound {kernel : List Item} {i : Item} (member : i ∈ g.closure starts kernel) :
    InClosure g starts kernel i :=
  closeQueue_sound _ kernel .empty (fun _ inside => .kernel inside) i member

end Grammar

namespace Automaton

variable {g : Grammar} {starts : Nat → List Item}

/-- Items over a symbol, with the dot behind it. -/
def passed (g : Grammar) (x : Symbol) (items : List Item) : List Item :=
  (items.filter fun i => g.next? i = some x).map Item.advance

theorem mem_passed {x : Symbol} {items : List Item} {j : Item} :
    j ∈ passed g x items ↔ ∃ i ∈ items, g.next? i = some x ∧ j = i.advance := by
  simp only [passed, List.mem_map, List.mem_filter, decide_eq_true_eq, and_assoc, eq_comm (a := j)]

theorem passed_cons {x : Symbol} {i : Item} {items : List Item} :
    passed g x (i :: items) = (if g.next? i = some x then [i.advance] else []) ++ passed g x items := by
  unfold passed
  rw [List.filter_cons]
  split
  · rename_i is
    rw [if_pos (of_decide_eq_true is)]
    rfl
  · rename_i other
    rw [if_neg (by simpa using other)]
    rfl

/-- The moves of items are those over the symbols behind their dots. -/
theorem mem_moves {items targets : List Item} {x : Symbol} :
    (x, targets) ∈ moves g items ↔ targets = passed g x items ∧ targets ≠ [] := by
  induction items generalizing x targets with
  | nil => simp [moves, passed]
  | cons i items ih =>
    rw [moves, passed_cons]
    split
    · rename_i none
      rw [none, ih]
      simp
    · rename_i y next
      rw [next]
      have same : (((moves g items).find? (·.1 = y)).map (·.2)).getD [] = passed g y items := by
        cases found : (moves g items).find? (·.1 = y) with
        | none =>
          by_contra other
          have absent := List.find?_eq_none.1 found (y, passed g y items)
            (ih.2 ⟨rfl, fun nothing => other nothing.symm⟩)
          simp at absent
        | some entry =>
          have symbol : entry.1 = y := by simpa using List.find?_some found
          have member : (y, entry.2) ∈ moves g items := by
            rw [← symbol]
            exact List.mem_of_find?_eq_some found
          exact (ih.1 member).1
      rw [List.mem_cons, same]
      by_cases here : x = y
      · subst here
        constructor
        · intro member
          rcases member with is | member
          · obtain ⟨_, rfl⟩ := Prod.mk.inj is
            simp
          · simp at member
        · rintro ⟨rfl, _⟩
          simp
      · have other : ¬ y = x := fun same => here same.symm
        rw [List.mem_filter, ih]
        simp [here, other]

theorem nodup_moves (items : List Item) : ((moves g items).map (·.1)).Nodup := by
  induction items with
  | nil => simp [moves]
  | cons i items ih =>
    rw [moves]
    split
    · exact ih
    · rename_i y next
      rw [List.map_cons, List.nodup_cons]
      refine ⟨?_, List.Nodup.sublist (List.filter_sublist.map _) ih⟩
      rintro member
      obtain ⟨entry, inside, is⟩ := List.mem_map.1 member
      have other := (List.mem_filter.1 inside).2
      simp [is] at other

theorem moves_sound {items targets : List Item} {x : Symbol}
    (member : (x, targets) ∈ moves g items) :
    ∀ j ∈ targets, ∃ i ∈ items, g.next? i = some x ∧ j = i.advance := by
  intro j inside
  rw [(mem_moves.1 member).1] at inside
  exact mem_passed.1 inside

/-- One list of kernels goes on from another. -/
def Extends (kernels kernels' : Array (List Item)) : Prop :=
  ∀ (i : Nat) (kernel : List Item), kernels[i]? = some kernel → kernels'[i]? = some kernel

theorem intern_spec (kernels : Array (List Item)) (kernel : List Item) :
    Extends kernels (intern kernels kernel).1 ∧
      (intern kernels kernel).1[(intern kernels kernel).2]? = some kernel := by
  unfold intern
  split
  · rename_i i found
    obtain ⟨bound, is, _⟩ := Array.findIdx?_eq_some_iff_getElem.1 found
    refine ⟨fun _ _ h => h, ?_⟩
    rw [Array.getElem?_eq_getElem bound]
    exact congrArg some (of_decide_eq_true is)
  · refine ⟨?_, ?_⟩
    · intro i old found
      have bound := (Array.getElem?_eq_some_iff.1 found).1
      rw [Array.getElem?_push_lt bound]
      exact congrArg some (Array.getElem?_eq_some_iff.1 found).2
    · exact Array.getElem?_push_size

/-- Each symbol leads to the kernel of the items behind it. -/
theorem internAll_spec (kernels : Array (List Item)) (list : List (Symbol × List Item)) :
    Extends kernels (internAll kernels list).1 ∧
      List.Forall₂ (fun move (transition : Symbol × Nat) => transition.1 = move.1 ∧
        (internAll kernels list).1[transition.2]? = some (Item.sort move.2))
        list (internAll kernels list).2 := by
  induction list generalizing kernels with
  | nil => exact ⟨fun _ _ h => h, .nil⟩
  | cons move list ih =>
    obtain ⟨x, items⟩ := move
    obtain ⟨grows, found⟩ := intern_spec kernels (Item.sort items)
    obtain ⟨growsMore, others⟩ := ih (intern kernels (Item.sort items)).1
    refine ⟨fun i kernel h => growsMore i kernel (grows i kernel h), ?_⟩
    exact .cons ⟨rfl, growsMore _ _ found⟩ others

/-- The states found so far, with kernels for them and those to come. -/
structure Explored (g : Grammar) (starts : Nat → List Item) (kernels : Array (List Item))
    (done : Array AutomatonState) : Prop where
  start : kernels[0]? = some [g.startItem]
  kernel : ∀ (i : Nat) (s : AutomatonState), done[i]? = some s → kernels[i]? = some s.kernel
  transitions : ∀ (i : Nat) (s : AutomatonState), done[i]? = some s →
    List.Forall₂ (fun move (transition : Symbol × Nat) => transition.1 = move.1 ∧
      kernels[transition.2]? = some (Item.sort move.2))
      (moves g (g.closure starts s.kernel)) s.transitions

theorem explored_push {kernels : Array (List Item)} {done : Array AutomatonState}
    {kernel : List Item} (explored : Explored g starts kernels done)
    (next : kernels[done.size]? = some kernel) :
    Explored g starts (internAll kernels (moves g (g.closure starts kernel))).1
      (done.push ⟨kernel, (internAll kernels (moves g (g.closure starts kernel))).2⟩) := by
  obtain ⟨grows, targets⟩ := internAll_spec kernels (moves g (g.closure starts kernel))
  refine ⟨grows _ _ explored.start, ?_, ?_⟩
  · intro i s found
    rw [Array.getElem?_push] at found
    split at found
    · rename_i here
      obtain rfl := Option.some.inj found
      exact here ▸ grows _ _ next
    · exact grows _ _ (explored.kernel i s found)
  · intro i s found
    rw [Array.getElem?_push] at found
    split at found
    · obtain rfl := Option.some.inj found
      exact targets
    · refine List.Forall₂.imp ?_ (explored.transitions i s found)
      intro move transition ⟨symbol, there⟩
      exact ⟨symbol, grows _ _ there⟩

theorem explore_spec (fuel : Nat) {kernels : Array (List Item)} {done : Array AutomatonState}
    (explored : Explored g starts kernels done) :
    ∃ kernels', Explored g starts kernels' (explore g starts fuel kernels done) := by
  induction fuel generalizing kernels done with
  | zero => exact ⟨kernels, explored⟩
  | succ fuel ih =>
    unfold explore
    split
    · exact ⟨kernels, explored⟩
    · rename_i kernel next
      exact ih (explored_push explored next)

theorem explored_ofGrammar (g : Grammar) :
    ∃ kernels, Explored g (Analysis.ofGrammar g).startsOf kernels (ofGrammar g).states := by
  refine explore_spec _ ⟨rfl, ?_, ?_⟩
  · intro i s found
    simp at found
  · intro i s found
    simp at found

theorem exists_move {list : List (Symbol × List Item)} {transitions : List (Symbol × Nat)}
    {kernels : Array (List Item)} {x : Symbol} {target : Nat}
    (both : List.Forall₂ (fun move (transition : Symbol × Nat) => transition.1 = move.1 ∧
      kernels[transition.2]? = some (Item.sort move.2)) list transitions)
    (member : (x, target) ∈ transitions) :
    ∃ items, (x, items) ∈ list ∧ kernels[target]? = some (Item.sort items) := by
  induction both with
  | nil => cases member
  | @cons move transition list transitions first others ih =>
    rcases List.mem_cons.mp member with rfl | member
    · obtain ⟨symbol, there⟩ := first
      have whole : (x, move.2) = move := Prod.ext symbol rfl
      exact ⟨move.2, whole ▸ .head _, there⟩
    · obtain ⟨items, inside, there⟩ := ih member
      exact ⟨items, .tail _ inside, there⟩

theorem kernel_start {s : AutomatonState} (found : (ofGrammar g).states[0]? = some s) :
    s.kernel = [g.startItem] := by
  obtain ⟨kernels, explored⟩ := explored_ofGrammar g
  have same := explored.kernel 0 s found
  rw [explored.start] at same
  exact (Option.some.inj same).symm

/-- A transition leads away from the first state, and to items whose dots stand behind its symbol. -/
theorem transition_sound {i target : Nat} {s s' : AutomatonState} {x : Symbol}
    (found : (ofGrammar g).states[i]? = some s) (transition : (x, target) ∈ s.transitions)
    (there : (ofGrammar g).states[target]? = some s') :
    target ≠ 0 ∧ ∀ j ∈ s'.kernel, ∃ k, g.InClosure (Analysis.ofGrammar g).startsOf s.kernel k ∧
      g.next? k = some x ∧ j = k.advance := by
  obtain ⟨kernels, explored⟩ := explored_ofGrammar g
  obtain ⟨items, move, kernel⟩ := exists_move (explored.transitions i s found) transition
  have behind : ∀ j ∈ items, ∃ k, g.InClosure (Analysis.ofGrammar g).startsOf s.kernel k ∧
      g.next? k = some x ∧ j = k.advance := by
    intro j member
    obtain ⟨k, inside, next, is⟩ := moves_sound move j member
    exact ⟨k, g.closure_sound inside, next, is⟩
  refine ⟨?_, ?_⟩
  · rintro rfl
    rw [explored.start, Option.some.injEq] at kernel
    have member : g.startItem ∈ items := Item.mem_sort.1 (by simp [← kernel])
    obtain ⟨k, _, _, is⟩ := behind _ member
    have dots := congrArg Item.dot is
    simp [Grammar.startItem, Item.advance] at dots
  · intro j member
    have same := explored.kernel target s' there
    rw [kernel, Option.some.injEq] at same
    exact behind j (Item.mem_sort.1 (same ▸ member))

end Automaton

end ShaderTree
