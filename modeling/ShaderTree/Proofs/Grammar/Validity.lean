import ShaderTree.Grammar.Validity
import ShaderTree.Proofs.Table.Rows
import ShaderTree.Proofs.Table.Sets

/-! A grammar is valid as soon as a few rounds have reached all its nonterminals and found them
productive; the rounds that are still to come only add. -/
namespace ShaderTree.Grammar

variable {g : Grammar} {step : IndexSet → IndexSet}

theorem le_insert (s : IndexSet) (i : Nat) : s ≤ s.insert i := by
  intro j member
  simp [member]

theorem le_rounds (grows : ∀ s, s ≤ step s) (n : Nat) (s : IndexSet) : s ≤ rounds step n s := by
  induction n generalizing s with
  | zero => exact IndexSet.le_refl s
  | succ n ih => exact IndexSet.le_trans (grows s) (ih (step s))

theorem rounds_add (m n : Nat) (s : IndexSet) :
    rounds step (m + n) s = rounds step n (rounds step m s) := by
  induction m generalizing s with
  | zero => rw [Nat.zero_add]; rfl
  | succ m ih =>
    rw [Nat.succ_add]
    exact ih (step s)

theorem rounds_le_rounds (grows : ∀ s, s ≤ step s) {m n : Nat} (le : m ≤ n) (s : IndexSet) :
    rounds step m s ≤ rounds step n s := by
  obtain ⟨more, rfl⟩ := Nat.exists_eq_add_of_le le
  rw [rounds_add]
  exact le_rounds grows more _

theorem le_reachMore (s : IndexSet) : s ≤ g.reachMore s := by
  unfold reachMore
  rw [← Array.foldl_toList]
  refine foldl_induction (P := (s ≤ ·)) (IndexSet.le_refl s) fun t p _ le => ?_
  split
  · refine foldl_induction (P := (s ≤ ·)) le fun t x _ le => ?_
    cases x with
    | terminal k => exact le
    | nonterminal i => exact IndexSet.le_trans le (le_insert t i)
  · exact le

theorem le_produceMore (s : IndexSet) : s ≤ g.produceMore s := by
  unfold produceMore
  rw [← Array.foldl_toList]
  refine foldl_induction (P := (s ≤ ·)) (IndexSet.le_refl s) fun t p _ le => ?_
  dsimp only
  split
  · exact IndexSet.le_trans le (le_insert t p.lhs)
  · exact le

/-- A productive nonterminal has a production. -/
theorem productionsOf_ne_nil {i : Nat} (member : g.productive.mem i = true) :
    g.productionsOf i ≠ [] := by
  have produced (s : IndexSet)
      (before : ∀ i, s.mem i = true → ∃ p ∈ g.productions.toList, p.lhs = i) :
      ∀ i, (g.produceMore s).mem i = true → ∃ p ∈ g.productions.toList, p.lhs = i := by
    unfold produceMore
    rw [← Array.foldl_toList]
    refine foldl_induction (P := fun s : IndexSet => ∀ i, s.mem i = true →
      ∃ p ∈ g.productions.toList, p.lhs = i) before fun t p inside known => ?_
    dsimp only
    split
    · intro i member
      rw [IndexSet.mem_insert, Bool.or_eq_true, decide_eq_true_eq] at member
      rcases member with old | rfl
      · exact known i old
      · exact ⟨p, inside, rfl⟩
    · exact known
  have all (n : Nat) (s : IndexSet)
      (before : ∀ i, s.mem i = true → ∃ p ∈ g.productions.toList, p.lhs = i) :
      ∀ i, (rounds g.produceMore n s).mem i = true → ∃ p ∈ g.productions.toList, p.lhs = i := by
    induction n generalizing s with
    | zero => exact before
    | succ n ih => exact ih _ (produced s before)
  obtain ⟨p, inside, lhs⟩ := all _ .empty (fun i none => by simp at none) i member
  obtain ⟨index, bound, is⟩ := List.mem_iff_getElem.1 inside
  have known : g.productions[index]? = some p := by
    rw [← Array.getElem?_toList]
    exact List.getElem?_eq_some_iff.2 ⟨bound, is⟩
  refine List.ne_nil_of_mem (a := index) (List.mem_filter.2 ⟨List.mem_range.2 bound, ?_⟩)
  rw [known]
  exact decide_eq_true lhs

theorem firstWithout?_eq_none {p : Nat → Bool} (all : ∀ i < g.nonterminals.size, p i = true) :
    g.firstWithout? p = none := by
  unfold firstWithout?
  rw [Option.map_eq_none_iff, List.find?_eq_none]
  intro i member
  simp [all i (List.mem_range.1 member)]

/-- A few rounds are enough to see that a grammar is valid. -/
theorem validate_eq_ok (some : g.productions.isEmpty = false)
    (usable : g.terminals.all isUsable = true) {m n : Nat} (few : m ≤ g.nonterminals.size)
    (few' : n ≤ g.nonterminals.size) (reached : (List.range g.nonterminals.size).all
      (rounds g.reachMore m (IndexSet.empty.insert g.start)).mem = true)
    (produced : (List.range g.nonterminals.size).all
      (rounds g.produceMore n .empty).mem = true) : g.validate = .ok () := by
  have reachable (i : Nat) (inside : i < g.nonterminals.size) : g.reachable.mem i = true :=
    rounds_le_rounds le_reachMore few _ i (List.all_eq_true.1 reached i (List.mem_range.2 inside))
  have productive (i : Nat) (inside : i < g.nonterminals.size) : g.productive.mem i = true :=
    rounds_le_rounds le_produceMore few' _ i
      (List.all_eq_true.1 produced i (List.mem_range.2 inside))
  have terminals : g.terminals.find? (fun k => !isUsable k) = none := by
    rw [List.find?_eq_none]
    intro k member
    simp [List.all_eq_true.1 usable k member]
  have productions : g.firstWithout? (fun i => !(g.productionsOf i).isEmpty) = none := by
    refine firstWithout?_eq_none fun i inside => ?_
    rw [Bool.not_eq_true', List.isEmpty_eq_false_iff]
    exact productionsOf_ne_nil (productive i inside)
  unfold validate
  simp [some, terminals, productions, firstWithout?_eq_none reachable,
    firstWithout?_eq_none productive]
  rfl

end ShaderTree.Grammar
