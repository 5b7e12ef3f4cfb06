import ShaderTree.Proofs.Table.Automaton
import ShaderTree.Proofs.Table.StartRule

/-! The items that lookaheads are computed for are those of the closure of the kernel, so what a row
of a built table does is known from the items of its state. -/
namespace ShaderTree

namespace Spread

/-- The nonterminals added stand behind the dot of an item of the closure. -/
theorem work_sound {a : Analysis} {own : Item → IndexSet} {kernel : List Item} (fuel : Nat)
    (stack : List Item) (s : Spread)
    (known : ∀ i ∈ stack, a.grammar.InClosure a.startsOf kernel i)
    (added : ∀ n ∈ s.order, ∃ i, a.grammar.InClosure a.startsOf kernel i ∧
      a.grammar.next? i = some (.nonterminal n)) :
    ∀ n ∈ (work a own fuel stack s).order, ∃ i, a.grammar.InClosure a.startsOf kernel i ∧
      a.grammar.next? i = some (.nonterminal n) := by
  fun_induction work a own fuel stack s with
  | case1 => exact added
  | case2 => exact added
  | case3 fuel i stack s n next rest lookahead follow s' grown ih =>
    have own' := known i (by simp)
    apply ih
    · intro j member
      rcases List.mem_append.mp member with start | old
      · exact .start own' next (List.mem_reverse.1 start)
      · exact known j (by simp [old])
    · intro m member
      unfold add? at grown
      split at grown
      · obtain rfl := Option.some.inj grown
        rcases List.mem_append.mp member with old | new
        · exact added m old
        · obtain rfl := List.mem_singleton.1 new
          exact ⟨i, own', next⟩
      · dsimp only at grown
        split at grown
        · cases grown
        · obtain rfl := Option.some.inj grown
          exact added m member
  | case4 fuel i stack s n next rest lookahead follow same ih =>
    exact ih (fun j member => known j (by simp [member])) added
  | case5 fuel i stack s other ih =>
    exact ih (fun j member => known j (by simp [member])) added

end Spread

namespace Analysis

theorem closeState_sound {a : Analysis} {kernel : List (Item × IndexSet)}
    {entry : Item × IndexSet} (member : entry ∈ a.closeState kernel) :
    a.grammar.InClosure a.startsOf (kernel.map (·.1)) entry.1 := by
  unfold closeState at member
  dsimp only at member
  rcases List.mem_append.1 member with inKernel | added
  · exact .kernel (List.mem_map_of_mem inKernel)
  · obtain ⟨n, order, here⟩ := List.mem_flatMap.1 added
    obtain ⟨i, inside, rfl⟩ := List.mem_map.1 here
    obtain ⟨before, known, next⟩ := Spread.work_sound _ (kernel.map (·.1)).reverse _
      (fun i member => .kernel (List.mem_reverse.1 member)) (by simp [Spread.empty]) n order
    exact .start known next inside

theorem itemsWith_sound {a : Analysis} {known : Lookaheads} {state : Nat}
    {entry : Item × IndexSet} (member : entry ∈ a.itemsWith known state) :
    a.grammar.InClosure a.startsOf (a.kernelOf state) entry.1 := by
  have inside := closeState_sound member
  generalize (known[state]?.getD []) = sets at inside
  have subset : ∀ i ∈ ((a.kernelOf state).zip sets).map (·.1), i ∈ a.kernelOf state := by
    intro i member
    obtain ⟨entry, there, rfl⟩ := List.mem_map.1 member
    exact (List.of_mem_zip there).1
  generalize entry.1 = i at inside ⊢
  induction inside with
  | kernel member => exact .kernel (subset _ member)
  | start before next member ih => exact .start ih next member

end Analysis

end ShaderTree
