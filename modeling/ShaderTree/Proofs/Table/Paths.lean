import ShaderTree.Proofs.Parser.Termination
import ShaderTree.Proofs.Table.EndOfInput
import ShaderTree.Proofs.Table.Meetings

/-! What a table does in the state that some symbols lead to. Its items are found by going along the
symbols, without the other states; what can follow them in any state bounds the reductions. -/
namespace ShaderTree

namespace Grammar

variable {g : Grammar} {a : Ahead} {path : List Symbol} {state : Nat} {i : Item} {k : Kind}

/-- The items of the state that symbols lead to, the last symbol first. -/
def itemsAt (g : Grammar) : List Symbol → List Item
  | [] => g.closure (Analysis.ofGrammar g).startsOf [g.startItem]
  | x :: path => g.closure (Analysis.ofGrammar g).startsOf (Automaton.passed g x (g.itemsAt path))

theorem kernelOf_zero (g : Grammar) : (Analysis.ofGrammar g).kernelOf 0 = [g.startItem] := by
  obtain ⟨s, known⟩ := exists_of_holds (g.holds_startItem)
  rw [kernelOf_eq known, Automaton.kernel_start known]

theorem Reaches.holds_iff (reaches : g.Reaches path state) :
    g.Holds state i ↔ i ∈ g.itemsAt path := by
  induction reaches generalizing i with
  | start => rw [itemsAt, mem_closure, Holds, kernelOf_zero]
  | @step path before state x _ leads ih =>
    have same (j : Item) : j ∈ (Analysis.ofGrammar g).kernelOf state ↔
        j ∈ Automaton.passed g x (g.itemsAt path) := by
      rw [leads.kernel.2 j, Automaton.mem_passed]
      exact exists_congr fun i => and_congr_left fun _ => ih
    rw [itemsAt, mem_closure]
    exact ⟨.congr fun j => (same j).1, .congr fun j => (same j).2⟩

/-- No item there is in front of a terminal, and each complete one passes a test. -/
def blocks (g : Grammar) (path : List Symbol) (k : Kind) (complete : Item → Bool) : Bool :=
  (g.itemsAt path).all fun i => match g.next? i with
    | some x => x ≠ .terminal k
    | none => i.production ≠ g.startRule && complete i

/-- A terminal that can follow what an item derives. -/
def followed (g : Grammar) (a : Ahead) (k : Kind) (i : Item) : Bool :=
  (a.followOf (g.lhs i.production)).testBit k.index

/-- No reductions, at most `fuel` of them, lead from there to where a terminal is read. -/
def refuses (g : Grammar) (a : Ahead) (k : Kind) : Nat → List Symbol → Bool
  | 0, path => g.blocks path k fun i => !g.followed a k i
  | fuel + 1, path => g.blocks path k fun i => !g.followed a k i || g.refuses a k fuel
      (.nonterminal (g.lhs i.production) :: path.drop (g.rhs i.production).length)

/-- A terminal stands behind the dot of some item there, and follows nothing that ends there. -/
def reads (g : Grammar) (a : Ahead) (path : List Symbol) (k : Kind) : Bool :=
  ((g.itemsAt path).any fun i => g.next? i = some (.terminal k)) &&
    (g.itemsAt path).all fun i => (g.next? i).isSome || !g.followed a k i

end Grammar

namespace Table

open Grammar

variable {g : Grammar} {a : Ahead} {t : Table} {path : List Symbol} {state : Nat} {k : Kind}

theorem simulate_of_shift {top next : Nat} (action : t.action top k = .shift next)
    (below : List Nat) : t.simulate (top :: below) k = some (next :: top :: below) := by
  rw [simulate]
  cases t.reductionBound (top :: below).length <;> simp [simulateWith, action]

theorem accepts_of_shift {top next : Nat} (action : t.action top k = .shift next)
    (below : List Nat) : t.accepts (top :: below) k = true := by
  rw [accepts, simulate_of_shift action]
  rfl

theorem accepts_eq_false {states : List Nat} (none : t.simulate states k = none) :
    t.accepts states k = false := by
  rw [accepts, none]
  rfl

theorem action_of_blocks (built : t.BuiltFrom g) (reaches : g.Reaches path state)
    {complete : Item → Bool} (blocks : g.blocks path k complete = true) :
    t.action state k = .error ∨ ∃ p d, t.action state k = .reduce p ∧
      g.Looks state ⟨p, d⟩ k.index ∧ (g.rhs p).length ≤ d ∧ complete ⟨p, d⟩ = true := by
  have each {i : Item} (holds : g.Holds state i) := List.all_eq_true.1 blocks i (reaches.holds_iff.1 holds)
  cases action : t.action state k with
  | error => exact .inl rfl
  | shift next =>
    obtain ⟨i, holds, symbol⟩ := (leads_of_shift built action).exists_next
    have other := each holds
    simp [symbol] at other
  | accept =>
    obtain ⟨d, holds, started⟩ := holds_of_accept built action
    have complete : g.next? ⟨g.startRule, d⟩ = none := by
      simp [Grammar.next?, Grammar.rhs, Grammar.startRule]
      omega
    have other := each holds
    simp [complete] at other
  | reduce p =>
    obtain ⟨_, d, looks, bound⟩ := completes_of_reduce built action
    have done : g.next? ⟨p, d⟩ = none := List.getElem?_eq_none bound
    have test := each looks.holds
    simp only [done, Bool.and_eq_true] at test
    exact .inr ⟨p, d, rfl, looks, bound, test.2⟩

variable (covers : a.Covers g = true) (built : t.BuiltFrom g)

include covers built

theorem followed_of_looks {i : Item} (looks : g.Looks state i k.index) : g.followed a k i = true := by
  have terminal := Grammar.isTerminal_of_looks built.valid looks
  exact Ahead.follow_of_looks covers looks (of_decide_eq_true terminal)

theorem action_eq_error (reaches : g.Reaches path state) (refuses : g.refuses a k 0 path = true) :
    t.action state k = .error := by
  rcases action_of_blocks built reaches refuses with error | ⟨p, d, _, looks, _, test⟩
  · exact error
  · rw [followed_of_looks covers built looks] at test
    cases test

/-- A terminal that is refused is not taken after any reductions. -/
theorem simulate_eq_none {fuel : Nat} {states : List Nat} (spells : g.Spells path states)
    (refuses : g.refuses a k fuel path = true) : t.simulate states k = none := by
  suffices none : ∀ n, t.simulateWith k n states = none from none _
  intro n
  induction fuel generalizing path states n with
  | zero =>
    obtain ⟨top, below, rfl⟩ := spells.exists_cons
    have error := action_eq_error covers built spells.reaches refuses
    simp [simulateWith, error]
  | succ fuel ih =>
    obtain ⟨top, below, rfl⟩ := spells.exists_cons
    rcases action_of_blocks built spells.reaches refuses with error | ⟨p, d, action, looks, _, test⟩
    · simp [simulateWith, error]
    · rw [followed_of_looks covers built looks, Bool.not_true, Bool.false_or] at test
      by_contra some
      obtain ⟨_, reduces⟩ := simulateWith_cases (Option.isSome_iff_ne_none.2 some)
      obtain ⟨n', after, rfl, reduced, taken⟩ := reduces p action
      obtain ⟨production, front, rule, whole, spells'⟩ := spells.reduce built action reduced
      have lhs : g.lhs p = production.lhs := by rw [Grammar.lhs, rule.1]
      have rhs : g.rhs p = production.rhs := by rw [Grammar.rhs, rule.1]
      have rest : path.drop (g.rhs p).length = front.reverse := by
        rw [← List.reverse_reverse path, whole, List.reverse_append, rhs,
          List.drop_left' (List.length_reverse ..)]
      dsimp only at test
      rw [lhs, rest] at test
      rw [ih spells' test] at taken
      cases taken

theorem exists_shift (reaches : g.Reaches path state) (reads : g.reads a path k = true) :
    ∃ next, t.action state k = .shift next ∧ g.Leads state (.terminal k) next := by
  obtain ⟨some, none⟩ := Bool.and_eq_true_iff.1 reads
  obtain ⟨i, member, symbol⟩ := List.any_eq_true.1 some
  have holds := reaches.holds_iff.2 member
  obtain ⟨next, leads⟩ := exists_leads holds (of_decide_eq_true symbol)
  have incomplete {j : Item} (looks : g.Looks state j k.index) (complete : g.IsComplete j) : False := by
    have test := List.all_eq_true.1 none j (reaches.holds_iff.1 looks.holds)
    have done : g.next? j = Option.none := List.getElem?_eq_none complete
    rw [done, followed_of_looks covers built looks] at test
    cases test
  have offers : g.offers state k = [] := by
    refine List.eq_nil_iff_forall_not_mem.2 fun x member => ?_
    obtain ⟨j, looks, complete, _⟩ := (mem_offers built.valid).1 member
    exact incomplete looks complete
  obtain ⟨s, known⟩ := exists_of_holds holds
  have terminal : k.isTerminal = true := by
    obtain ⟨p, _⟩ := i
    exact isTerminal_of_rhs (hasTerminals_of_validate built.valid)
      (List.mem_of_getElem? (of_decide_eq_true symbol))
  have settled := settled_action built known terminal
    fun p target _ ⟨_, d, looks, complete⟩ => (incomplete looks complete).elim
  rw [offers, shiftOn_eq_shift.2 leads] at settled
  refine ⟨next, ?_, leads⟩
  cases action : t.action state k with
  | error => rw [action] at settled; cases settled.1
  | shift target => rw [action] at settled; exact settled.1.symm
  | reduce p => rw [action] at settled; cases settled.1
  | accept => rw [action] at settled; cases settled.1

/-- A production is reduced where nothing else that is complete can be followed by the terminal, and none
is shifted. -/
theorem action_eq_reduce_of_blocks {p d : Nat} (reaches : g.Reaches path state)
    (looks : g.Looks state ⟨p, d⟩ k.index) (complete : (g.rhs p).length ≤ d) (other : p ≠ g.startRule)
    (blocks : g.blocks path k (fun j => j.production = p || !g.followed a k j) = true) :
    t.action state k = .reduce p := by
  rcases action_of_blocks built reaches blocks with error | ⟨q, e, action, looks', _, test⟩
  · obtain ⟨s, known⟩ := exists_of_holds looks.holds
    have settled := settled_action built known (Grammar.isTerminal_of_looks built.valid looks) <| by
      intro q target leads
      obtain ⟨j, holds, symbol⟩ := leads.exists_next
      have shifts := List.all_eq_true.1 blocks j (reaches.holds_iff.1 holds)
      simp [symbol] at shifts
    rw [error] at settled
    have offered := (reduce_mem_offers built.valid).2 ⟨other, d, looks, complete⟩
    rw [settled.2] at offered
    cases offered
  · rw [followed_of_looks covers built looks', Bool.not_true, Bool.or_false] at test
    rw [action]
    exact congrArg Action.reduce (of_decide_eq_true test)

/-- A production of one symbol is reduced in front of the terminal that stands behind its nonterminal,
where nothing else that is complete can be followed by the terminal. -/
theorem action_eq_reduce {base p : Nat} {production : Production} {x : Symbol} {xs : List Symbol}
    {i : Item} (reaches : g.Reaches path base) (holds : g.Holds base i)
    (next : g.next? i = some (.nonterminal production.lhs))
    (behind : (g.rhs i.production).drop (i.dot + 1) = .terminal k :: xs)
    (rule : g.IsRule p production) (rhs : production.rhs = [x]) (leads : g.Leads base x state)
    (blocks : g.blocks (x :: path) k (fun j => j.production = p || !g.followed a k j) = true) :
    t.action state k = .reduce p := by
  have own : g.rhs p = [x] := by
    rw [Grammar.rhs, rule.1]
    exact rhs
  have start : (⟨p, 0⟩ : Item) ∈ (Analysis.ofGrammar g).startsOf production.lhs :=
    (mem_startsOf rule.2).2 ⟨rfl, production, rule.1, rfl⟩
  have first : (Spread.behind (.ofGrammar g) i).terminals.mem k.index = true := by
    change (First.ofSymbols _ ((g.rhs i.production).drop (i.dot + 1))).terminals.mem k.index = true
    rw [behind]
    simp [First.ofSymbols]
  have looks : g.Looks base ⟨p, 0⟩ k.index := .first holds next start first
  have read : g.Looks state ⟨p, 1⟩ k.index :=
    .pass looks (show (g.rhs p)[0]? = some x by rw [own]; rfl) leads
  exact action_eq_reduce_of_blocks covers built (reaches.step leads) read
    (by rw [own]; exact Nat.le_refl _) (Analysis.production_ne_startRule start) blocks

end Table

end ShaderTree
