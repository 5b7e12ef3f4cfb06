import ShaderTree.Proofs.Table.Canonical

/-! Terminals behind nonterminals. What can follow an item could follow its production where it started,
and there it can follow every production for the same nonterminal, and the nonterminals they end with. -/
namespace ShaderTree.Grammar

variable {g : Grammar} {p q n m d c state target : Nat} {production other : Production} {i : Item}
  {x : Symbol}

theorem rhs_of_isRule (rule : g.IsRule p production) : g.rhs p = production.rhs := by
  rw [Grammar.rhs, rule.1]

theorem ne_startRule_of_isRule (rule : g.IsRule p production) : p ≠ g.startRule :=
  Nat.ne_of_lt (Array.getElem?_eq_some_iff.1 rule.1).1

theorem Holds.start_of (holds : g.Holds state i) (rule : g.IsRule p production)
    (next : g.next? i = some (.nonterminal production.lhs)) : g.Holds state ⟨p, 0⟩ :=
  .start holds next (mem_startsOf_of_isRule rule)

/-- What starts a state stands behind the dot of one of its items. -/
theorem Holds.exists_front (holds : g.Holds state ⟨p, 0⟩) (rule : g.IsRule p production) :
    ∃ j, g.Holds state j ∧ g.next? j = some (.nonterminal production.lhs) := by
  unfold Holds at holds
  cases holds with
  | kernel member =>
    rcases (g.isStateKernel_kernelOf state).inside _ member with moved | isStart
    · exact absurd rfl moved
    · exact absurd isStart (ne_startRule_of_isRule rule)
  | start before next member =>
    obtain ⟨_, production', known, rfl⟩ := Analysis.startsOf_ofGrammar member
    obtain rfl := Option.some.inj (rule.1.symm.trans known)
    exact ⟨_, before, next⟩

/-- Symbols lead to every state. -/
theorem exists_reaches {s : AutomatonState}
    (known : (Automaton.ofGrammar g).states[state]? = some s) : ∃ path, g.Reaches path state := by
  have inductive_ : Automaton.Inductive g fun kernel => g.IsStateKernel kernel ∧
      ∃ path base, g.Reaches path base ∧ ∀ i, i ∈ (Analysis.ofGrammar g).kernelOf base ↔ i ∈ kernel := by
    refine ⟨fun _ both => both.1, ⟨isStateKernel_start, [], 0, .start, ?_⟩, ?_⟩
    · intro i
      rw [Analysis.kernelOf_zero]
    · rintro kernel x ⟨isKernel, path, base, reaches, same⟩ some
      have moves (j : Item) : j ∈ Automaton.passed g x
          (g.closure (Analysis.ofGrammar g).startsOf kernel) ↔
            ∃ i, g.Holds base i ∧ g.next? i = .some x ∧ j = i.advance := by
        rw [Automaton.mem_passed]
        refine exists_congr fun i => and_congr_left fun _ => mem_closure.trans ?_
        exact ⟨.congr fun j => (same j).2, .congr fun j => (same j).1⟩
      obtain ⟨j, member⟩ := List.exists_mem_of_ne_nil _ some
      obtain ⟨i, holds, next, _⟩ := (moves j).1 member
      obtain ⟨target, leads⟩ := exists_leads holds next
      refine ⟨isStateKernel_passed isKernel x, x :: path, target, reaches.step leads, fun j => ?_⟩
      rw [leads.kernel.2, Item.mem_sort, moves]
  obtain ⟨_, path, base, reaches, same⟩ := inductive_.kernel known
  have holds : ∃ i, g.Holds base i := by
    cases reaches with
    | start => exact ⟨_, holds_startItem g⟩
    | step _ leads =>
      obtain ⟨p, d, holds, _⟩ := leads.exists_moved
      exact ⟨_, holds⟩
  obtain ⟨i, holds⟩ := holds
  obtain ⟨s', known'⟩ := exists_of_holds holds
  rw [kernelOf_eq known'] at same
  obtain rfl := state_unique known' known same
  exact ⟨path, reaches⟩

/-- A state is entered by one symbol. -/
theorem Leads.symbol_unique {state' : Nat} {y : Symbol} (leads : g.Leads state x target)
    (leads' : g.Leads state' y target) : x = y := by
  obtain ⟨p, d, holds, moved⟩ := leads.exists_moved
  obtain ⟨d, rfl⟩ := Nat.exists_eq_add_one_of_ne_zero moved
  exact Option.some.inj ((leads.before holds).2.symm.trans (leads'.before holds).2)

/-- Over a symbol the dot of an item goes on. -/
theorem Leads.behind (leads : g.Leads state x target) (holds : g.Holds state ⟨p, d⟩)
    (next : (g.rhs p)[d]? = some x) : g.Holds target ⟨p, d + 1⟩ :=
  .kernel ((leads.kernel.2 _).2 ⟨⟨p, d⟩, holds, next, rfl⟩)

/-- In a state a terminal, by its column, can follow a nonterminal. -/
def Expects (g : Grammar) (state n c : Nat) : Prop :=
  ∃ p production, g.IsRule p production ∧ production.lhs = n ∧ g.Looks state ⟨p, 0⟩ c

/-- A terminal can follow a nonterminal because of an item in front of the nonterminal: it comes behind
it, or follows the item behind what can vanish. -/
theorem expects_iff : g.Expects state n c ↔ (∃ p production, g.IsRule p production ∧ production.lhs = n) ∧
    ∃ i, g.next? i = some (.nonterminal n) ∧
      (g.Holds state i ∧ (Spread.behind (.ofGrammar g) i).terminals.mem c = true ∨
        g.Looks state i c ∧ (Spread.behind (.ofGrammar g) i).nullable = true) := by
  constructor
  · rintro ⟨p, production, rule, rfl, looks⟩
    refine ⟨⟨p, production, rule, rfl⟩, ?_⟩
    have own {m : Nat} (start : (⟨p, 0⟩ : Item) ∈ (Analysis.ofGrammar g).startsOf m) :
        m = production.lhs := by
      obtain ⟨_, production', known, rfl⟩ := Analysis.startsOf_ofGrammar start
      obtain rfl := Option.some.inj (rule.1.symm.trans known)
      rfl
    generalize is : (⟨p, 0⟩ : Item) = i at looks
    cases looks with
    | start => exact absurd (congrArg Item.production is) (ne_startRule_of_isRule rule)
    | first holds next start first => exact ⟨_, own (is ▸ start) ▸ next, .inl ⟨holds, first⟩⟩
    | inherit looks next start nullable => exact ⟨_, own (is ▸ start) ▸ next, .inr ⟨looks, nullable⟩⟩
    | pass => exact nomatch (congrArg Item.dot is : 0 = _ + 1)
  · rintro ⟨⟨p, production, rule, rfl⟩, i, next, ⟨holds, first⟩ | ⟨looks, nullable⟩⟩
    · exact ⟨p, production, rule, rfl, .first holds next (mem_startsOf_of_isRule rule) first⟩
    · exact ⟨p, production, rule, rfl, .inherit looks next (mem_startsOf_of_isRule rule) nullable⟩

/-- What can follow a nonterminal can follow each of its productions. -/
theorem Expects.looks (expects : g.Expects state n c) (rule : g.IsRule p production)
    (lhs : production.lhs = n) : g.Looks state ⟨p, 0⟩ c := by
  subst lhs
  obtain ⟨_, i, next, ⟨holds, first⟩ | ⟨looks, nullable⟩⟩ := expects_iff.1 expects
  · exact .first holds next (mem_startsOf_of_isRule rule) first
  · exact .inherit looks next (mem_startsOf_of_isRule rule) nullable

/-- What can follow a production can follow the nonterminal at its end. -/
theorem Looks.expects (looks : g.Looks state ⟨q, d⟩ c) (length : (g.rhs q).length = d + 1)
    (last : (g.rhs q)[d]? = some (.nonterminal n)) (rule : g.IsRule p production)
    (lhs : production.lhs = n) : g.Expects state n c := by
  have none : (g.rhs q).drop (d + 1) = [] := List.drop_eq_nil_of_le (Nat.le_of_eq length)
  refine expects_iff.2 ⟨⟨p, production, rule, lhs⟩, ⟨q, d⟩, last, .inr ⟨looks, ?_⟩⟩
  change (First.ofSymbols _ ((g.rhs q).drop (d + 1))).nullable = true
  rw [none]
  rfl

/-- What follows an item behind a symbol, followed it in front of the symbol. -/
theorem Looks.before (looks : g.Looks target ⟨p, d + 1⟩ c) :
    ∃ state x, g.Leads state x target ∧ (g.rhs p)[d]? = some x ∧ g.Looks state ⟨p, d⟩ c := by
  generalize is : (⟨p, d + 1⟩ : Item) = i at looks
  cases looks with
  | start => exact nomatch (congrArg Item.dot is : d + 1 = 0)
  | first _ _ start =>
    obtain ⟨dot, _⟩ := Analysis.startsOf_ofGrammar start
    exact nomatch (congrArg Item.dot is).trans dot
  | inherit _ _ start =>
    obtain ⟨dot, _⟩ := Analysis.startsOf_ofGrammar start
    exact nomatch (congrArg Item.dot is).trans dot
  | @pass state _ _ i x looks next leads =>
    obtain rfl : i = ⟨p, d⟩ := by
      obtain ⟨q, e⟩ := i
      obtain ⟨rfl, dots⟩ := Item.mk.inj is
      rw [Nat.succ.inj dots]
    exact ⟨state, x, leads, next, looks⟩

/-- What follows an item followed it where its production started. -/
theorem Looks.exists_start (looks : g.Looks state ⟨p, d⟩ c) : ∃ base, g.Looks base ⟨p, 0⟩ c := by
  induction d generalizing state with
  | zero => exact ⟨state, looks⟩
  | succ d ih =>
    obtain ⟨_, _, _, _, before⟩ := looks.before
    exact ih before

/-- What can follow a production where it starts, follows it behind each of its symbols. -/
theorem Looks.exists_along (looks : g.Looks state ⟨p, 0⟩ c) (bound : d ≤ (g.rhs p).length) :
    ∃ target, g.Looks target ⟨p, d⟩ c ∧ (d = 0 → target = state) := by
  induction d with
  | zero => exact ⟨state, looks, fun _ => rfl⟩
  | succ d ih =>
    obtain ⟨mid, before, _⟩ := ih (Nat.le_of_succ_le bound)
    have next : g.next? ⟨p, d⟩ = some (g.rhs p)[d] := List.getElem?_eq_getElem bound
    obtain ⟨target, leads⟩ := exists_leads before.holds next
    exact ⟨target, before.pass next leads, fun none => nomatch none⟩

/-- A nonterminal stands only at the end of the productions of `m`. -/
def EndsOnly (g : Grammar) (m n : Nat) : Prop :=
  ∀ i, g.next? i = some (.nonterminal n) → (g.rhs i.production).length = i.dot + 1 ∧
    ∃ production, g.IsRule i.production production ∧ production.lhs = m

/-- What can follow a nonterminal can follow the one that it always ends. -/
theorem Expects.of_endsOnly (expects : g.Expects state n c) (ends : g.EndsOnly m n) :
    ∃ base, g.Expects base m c := by
  obtain ⟨_, i, next, cause⟩ := expects_iff.1 expects
  obtain ⟨length, production, rule, lhs⟩ := ends i next
  have none : (g.rhs i.production).drop (i.dot + 1) = [] :=
    List.drop_eq_nil_of_le (Nat.le_of_eq length)
  rcases cause with ⟨_, first⟩ | ⟨looks, _⟩
  · change (First.ofSymbols _ ((g.rhs i.production).drop (i.dot + 1))).terminals.mem c = true at first
    rw [none] at first
    simp [First.ofSymbols, First.empty] at first
  · obtain ⟨base, origin⟩ := looks.exists_start
    exact ⟨base, _, production, rule, lhs, origin⟩

end ShaderTree.Grammar
