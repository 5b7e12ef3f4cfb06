import ShaderTree.Proofs.Grammar.Productivity

/-! Which grammars can be used, in terms of derivations. A round over the productions adds a nonterminal
or changes nothing, so that as many rounds as there are nonterminals end at a set that no round adds to.
Such a set of reachable nonterminals has all that occur in what the start symbol derives, and such a set
of productive ones has all that derive a word. -/
namespace ShaderTree.Grammar

open Relation (ReflTransGen)

/-! The conditions, and what is missing where one of them is the first that fails -/

/-- A kind that the terminals of productions can have. -/
def MayStand (k : Kind) : Prop := k.isTerminal = true ∧ k.isTrivia = false ∧ k ≠ .eof

def AllMayStand (xs : List Symbol) : Prop := ∀ k, .terminal k ∈ xs → MayStand k

/-- The nonterminal has a production. -/
def HasRule (g : Grammar) (n : Nat) : Prop := ∃ p production, g.IsRule p production ∧ production.lhs = n

/-- The nonterminal occurs in a string that can be derived from the start symbol. -/
def Occurs (g : Grammar) (n : Nat) : Prop := ∃ front back,
  ReflTransGen g.Produces [.nonterminal g.start] (front ++ .nonterminal n :: back)

/-- A word can be derived from the nonterminal. -/
def Derives (g : Grammar) (n : Nat) : Prop := ∃ w, ReflTransGen g.Produces [.nonterminal n] (terminalWord w)

/-- All nonterminals have a property. -/
def AllHave (g : Grammar) (P : Nat → Prop) : Prop := ∀ n < g.nonterminals.size, P n

structure Usable (g : Grammar) : Prop where
  some : g.productions.toList ≠ []
  stand : ∀ p ∈ g.productions.toList, AllMayStand p.rhs
  rules : g.AllHave g.HasRule
  occur : g.AllHave g.Occurs
  derive : g.AllHave g.Derives

/-- The first terminal, in the order of the productions, that may not stand in one. -/
def FirstMisplaced (g : Grammar) (k : Kind) : Prop := ∃ before production after front back,
  g.productions.toList = before ++ production :: after ∧ production.rhs = front ++ .terminal k :: back ∧
    ¬ MayStand k ∧ AllMayStand front ∧ ∀ p ∈ before, AllMayStand p.rhs

/-- The first nonterminal that lacks a property. -/
def FirstWithout (g : Grammar) (P : Nat → Prop) (n : Nat) : Prop :=
  n < g.nonterminals.size ∧ ¬ P n ∧ ∀ m < n, P m

/-- The first condition that a grammar violates, and where. -/
inductive Lacks (g : Grammar) : GrammarError → Prop
  | productions (none : g.productions.toList = []) : Lacks g .noProductions
  | terminals {k : Kind} (some : g.productions.toList ≠ []) (first : g.FirstMisplaced k) :
    Lacks g (.badTerminal k)
  | rules {n : Nat} (some : g.productions.toList ≠ [])
    (stand : ∀ p ∈ g.productions.toList, AllMayStand p.rhs) (first : g.FirstWithout g.HasRule n) :
    Lacks g (.noProductionFor (g.nonterminalName n))
  | occurrence {n : Nat} (some : g.productions.toList ≠ [])
    (stand : ∀ p ∈ g.productions.toList, AllMayStand p.rhs) (rules : g.AllHave g.HasRule)
    (first : g.FirstWithout g.Occurs n) : Lacks g (.unreachable (g.nonterminalName n))
  | words {n : Nat} (some : g.productions.toList ≠ [])
    (stand : ∀ p ∈ g.productions.toList, AllMayStand p.rhs) (rules : g.AllHave g.HasRule)
    (occur : g.AllHave g.Occurs) (first : g.FirstWithout g.Derives n) :
    Lacks g (.unproductive (g.nonterminalName n))

variable {g : Grammar} {s : IndexSet} {n : Nat} {P : Nat → Prop}

/-! Rounds until nothing is added -/

section

variable {step : IndexSet → IndexSet} {bound : Nat}

theorem rounds_induction (keeps : ∀ s : IndexSet, (∀ i, s.mem i = true → P i) →
    ∀ i, (step s).mem i = true → P i) (n : Nat) (start : ∀ i, s.mem i = true → P i) :
    ∀ i, (rounds step n s).mem i = true → P i := by
  induction n generalizing s with
  | zero => exact start
  | succ n ih => exact ih (keeps s start)

variable (grows : ∀ s, s ≤ step s) (keeps : ∀ s : IndexSet, s.Below bound → (step s).Below bound)
  (below : s.Below bound)

include grows keeps below

/-- Until a round adds nothing, each round adds a member. -/
theorem fixed_or_le_count (n : Nat) :
    step (rounds step n s) = rounds step n s ∨ n ≤ (rounds step n s).count bound := by
  induction n with
  | zero => exact .inr (Nat.zero_le _)
  | succ n ih =>
    rw [rounds_add n 1 s]
    change step (step (rounds step n s)) = step (rounds step n s) ∨ _
    by_cases fixed : step (rounds step n s) = rounds step n s
    · left
      simp [fixed]
    · right
      have known := ih.resolve_left fixed
      have more := IndexSet.count_lt (grows _) (Ne.symm fixed) (keeps _ (rounds_induction keeps n below))
      exact Nat.lt_of_le_of_lt known more

theorem rounds_fixed : step (rounds step bound s) = rounds step bound s := by
  by_contra other
  have full := (fixed_or_le_count grows keeps below bound).resolve_left other
  have more := IndexSet.count_lt (grows _) (Ne.symm other) (keeps _ (rounds_induction keeps bound below))
  have most := IndexSet.count_le (step (rounds step bound s)) bound
  omega

end

/-! What a round adds, and what it adds nothing to -/

/-- A property that the productions of its nonterminals pass on is kept by a round. -/
theorem reachMore_induction
    (pass : ∀ p ∈ g.productions.toList, P p.lhs → ∀ i, .nonterminal i ∈ p.rhs → P i)
    (start : ∀ i, s.mem i = true → P i) : ∀ i, (g.reachMore s).mem i = true → P i := by
  unfold reachMore
  rw [← Array.foldl_toList]
  apply foldl_induction (P := fun s : IndexSet => ∀ i, s.mem i = true → P i) start
  intro t p inside known
  split
  · rename_i member
    apply foldl_induction (P := fun s : IndexSet => ∀ i, s.mem i = true → P i) known
    intro u x here known'
    cases x with
    | terminal k => exact known'
    | nonterminal m =>
      intro i member'
      simp only [IndexSet.mem_insert, Bool.or_eq_true, decide_eq_true_eq] at member'
      rcases member' with old | rfl
      · exact known' i old
      · exact pass p inside (known _ member) m here
  · exact known

/-- A property that whole right-hand sides pass on to their nonterminal is kept by a round. -/
theorem produceMore_induction
    (pass : ∀ p ∈ g.productions.toList, (∀ i, .nonterminal i ∈ p.rhs → P i) → P p.lhs)
    (start : ∀ i, s.mem i = true → P i) : ∀ i, (g.produceMore s).mem i = true → P i := by
  unfold produceMore
  rw [← Array.foldl_toList]
  apply foldl_induction (P := fun s : IndexSet => ∀ i, s.mem i = true → P i) start
  intro t p inside known
  dsimp only
  split
  · rename_i whole
    intro i member
    simp only [IndexSet.mem_insert, Bool.or_eq_true, decide_eq_true_eq] at member
    rcases member with old | rfl
    · exact known i old
    · apply pass p inside
      intro i here
      exact known i (List.all_eq_true.1 whole _ here)
  · exact known

/-- The steps of a fold that adds nothing add nothing. -/
theorem step_fixed {α : Type} {f : IndexSet → α → IndexSet} {xs : List α} {x : α}
    (grows : ∀ t y, t ≤ f t y) (fixed : xs.foldl f s = s) (inside : x ∈ xs) : f s x = s :=
  foldl_fixed (P := fun _ => True) IndexSet.le_refl IndexSet.le_trans (fun _ _ => IndexSet.le_antisymm)
    grows trivial (fun _ _ _ _ => trivial) fixed x inside

theorem mem_of_reachMore_fixed (fixed : g.reachMore s = s) {p : Production}
    (inside : p ∈ g.productions.toList) (member : s.mem p.lhs = true) (here : .nonterminal n ∈ p.rhs) :
    s.mem n = true := by
  unfold reachMore at fixed
  rw [← Array.foldl_toList] at fixed
  have own := step_fixed (fun t q => ?_) fixed inside
  · simp only [member, if_true] at own
    have added := step_fixed (fun t x => ?_) own here
    · rw [← added]
      simp
    · cases x with
      | terminal k => exact IndexSet.le_refl t
      | nonterminal i => exact le_insert t i
  · split
    · apply foldl_induction (P := (t ≤ ·)) (IndexSet.le_refl t)
      intro u x _ le
      cases x with
      | terminal k => exact le
      | nonterminal i => exact IndexSet.le_trans le (le_insert u i)
    · exact IndexSet.le_refl t

theorem mem_of_produceMore_fixed (fixed : g.produceMore s = s) {p : Production}
    (inside : p ∈ g.productions.toList) (members : ∀ i, .nonterminal i ∈ p.rhs → s.mem i = true) :
    s.mem p.lhs = true := by
  unfold produceMore at fixed
  rw [← Array.foldl_toList] at fixed
  have own := step_fixed (fun t q => ?_) fixed inside
  · dsimp only at own
    split at own
    · rw [← own]
      simp
    · rename_i some
      apply absurd _ some
      apply List.all_eq_true.2
      intro x here
      cases x with
      | terminal k => rfl
      | nonterminal i => exact members i here
  · dsimp only
    split
    · exact le_insert t q.lhs
    · exact IndexSet.le_refl t

section

variable (declared : g.Declared)

include declared

theorem Declared.exists_isRule {p : Production} (inside : p ∈ g.productions.toList) : ∃ i, g.IsRule i p := by
  obtain ⟨i, known⟩ := Array.mem_iff_getElem?.1 (Array.mem_toList_iff.1 inside)
  exact ⟨i, declared.isRule known⟩

/-! What is reachable -/

theorem reachMore_reachable : g.reachMore g.reachable = g.reachable := by
  apply rounds_fixed le_reachMore
  · intro s below
    exact reachMore_induction (fun p inside _ i here => of_decide_eq_true (declared.rhs p inside _ here)) below
  · intro i member
    simp only [IndexSet.mem_insert, IndexSet.mem_empty, Bool.false_or, decide_eq_true_eq] at member
    exact member ▸ declared.start

/-- What can be derived from the start symbol has reachable nonterminals only. -/
theorem mem_reachable_of_derives {xs : List Symbol}
    (derives : ReflTransGen g.Produces [.nonterminal g.start] xs) (here : .nonterminal n ∈ xs) :
    g.reachable.mem n = true := by
  induction derives generalizing n with
  | refl =>
    obtain rfl := Symbol.nonterminal.inj (List.mem_singleton.1 here)
    exact le_rounds le_reachMore _ _ _ (by simp)
  | tail _ step ih =>
    cases step with
    | @replace p production rule front back =>
      simp only [List.mem_append] at here
      rcases here with (here | here) | here
      · exact ih (by simp [here])
      · exact mem_of_reachMore_fixed (reachMore_reachable declared)
          (Array.mem_toList_iff.2 (Array.mem_of_getElem? rule.1)) (ih (by simp)) here
      · exact ih (by simp [here])

theorem mem_reachable_iff : g.reachable.mem n = true ↔ g.Occurs n := by
  constructor
  · apply rounds_induction (P := g.Occurs) _ _ _ n
    · intro s
      apply reachMore_induction
      rintro p inside ⟨front, back, derives⟩ i here
      obtain ⟨q, rule⟩ := declared.exists_isRule inside
      obtain ⟨before, behind, rhs⟩ := List.append_of_mem here
      refine ⟨front ++ before, behind ++ back, derives.tail ?_⟩
      simpa [rhs] using Produces.replace rule front back
    · intro i member
      simp only [IndexSet.mem_insert, IndexSet.mem_empty, Bool.false_or, decide_eq_true_eq] at member
      exact ⟨[], [], member ▸ .refl⟩
  · rintro ⟨front, back, derives⟩
    exact mem_reachable_of_derives declared derives (by simp)

/-! What is productive -/

theorem produceMore_productive : g.produceMore g.productive = g.productive := by
  apply rounds_fixed le_produceMore _ (IndexSet.below_empty _)
  intro s below
  exact produceMore_induction (fun p inside _ => declared.lhs p inside) below

theorem mem_productive_of_parses {xs : List Symbol} {w : List Kind} {ps : List Nat}
    (parses : g.Parses xs w ps) (here : .nonterminal n ∈ xs) : g.productive.mem n = true := by
  induction parses generalizing n with
  | nil => cases here
  | terminal k rest ih => exact ih (by simpa using here)
  | @nonterminal p production xs v w ps qs rule own rest ihOwn ih =>
    rcases List.mem_cons.1 here with is | here
    · obtain rfl := Symbol.nonterminal.inj is
      exact mem_of_produceMore_fixed (produceMore_productive declared)
        (Array.mem_toList_iff.2 (Array.mem_of_getElem? rule.1)) fun i => ihOwn
    · exact ih here

theorem mem_productive_iff : g.productive.mem n = true ↔ g.Derives n := by
  constructor
  · intro member
    obtain ⟨w, ps, parses⟩ :=
      AllYield.rounds declared g.nonterminals.size (fun m none => by simp at none) n member
    exact ⟨w, parses.derives⟩
  · rintro ⟨w, derives⟩
    obtain ⟨ps, parses⟩ := exists_parses derives
    exact mem_productive_of_parses declared parses (by simp)

theorem productionsOf_iff : (!(g.productionsOf n).isEmpty) = true ↔ g.HasRule n := by
  rw [Bool.not_eq_true', List.isEmpty_eq_false_iff_exists_mem]
  constructor
  · rintro ⟨p, member⟩
    obtain ⟨production, known, lhs⟩ := (Option.any_eq_true _ _).1 (List.mem_filter.1 member).2
    exact ⟨p, production, declared.isRule known, of_decide_eq_true lhs⟩
  · rintro ⟨p, production, rule, rfl⟩
    have bound := (Array.getElem?_eq_some_iff.1 rule.1).1
    exact ⟨p, List.mem_filter.2 ⟨List.mem_range.2 bound, by simp [rule.1]⟩⟩

end

/-! The searches -/

theorem isUsable_iff {k : Kind} : isUsable k = true ↔ MayStand k := by
  simp [isUsable, MayStand, and_assoc]

/-- The terminals of a right-hand side, in order. -/
def terminalsOf (xs : List Symbol) : List Kind := xs.filterMap fun
  | .terminal k => some k
  | .nonterminal _ => none

theorem mem_terminalsOf {xs : List Symbol} {k : Kind} : k ∈ terminalsOf xs ↔ .terminal k ∈ xs := by
  rw [terminalsOf, List.mem_filterMap]
  constructor
  · rintro ⟨x, inside, is⟩
    cases x with
    | terminal l => exact Option.some.inj is ▸ inside
    | nonterminal i => cases is
  · exact fun inside => ⟨_, inside, rfl⟩

theorem find?_terminalsOf_eq_none {xs : List Symbol} :
    (terminalsOf xs).find? (fun k => !isUsable k) = none ↔ AllMayStand xs := by
  simp [AllMayStand, mem_terminalsOf, isUsable_iff]

theorem find?_terminalsOf_eq_some {xs : List Symbol} {k : Kind} :
    (terminalsOf xs).find? (fun k => !isUsable k) = some k ↔
      ∃ front back, xs = front ++ .terminal k :: back ∧ ¬ MayStand k ∧ AllMayStand front := by
  constructor
  · intro found
    have bad : ¬ MayStand k := by simpa [← isUsable_iff] using List.find?_some found
    obtain ⟨_, before, after, split, others⟩ := List.find?_eq_some_iff_append.1 found
    obtain ⟨front, rest, rfl, rfl, behind⟩ := List.filterMap_eq_append_iff.1 split
    obtain ⟨blank, x, back, rfl, none, is, _⟩ := List.filterMap_eq_cons_iff.1 behind
    have terminal : x = .terminal k := by
      cases x with
      | terminal l => exact congrArg _ (Option.some.inj is)
      | nonterminal i => cases is
    refine ⟨front ++ blank, back, by simp [terminal], bad, ?_⟩
    intro l inside
    rcases List.mem_append.1 inside with inside | inside
    · simpa [isUsable_iff] using others l (mem_terminalsOf.2 inside)
    · cases none _ inside
  · rintro ⟨front, back, rfl, bad, stand⟩
    have split : terminalsOf (front ++ .terminal k :: back) = terminalsOf front ++ k :: terminalsOf back := by
      simp [terminalsOf]
    have first : isUsable k = false := by simpa [← isUsable_iff] using bad
    rw [split, List.find?_append, find?_terminalsOf_eq_none.2 stand]
    simp [first]

theorem find?_terminals_eq_none : g.terminals.find? (fun k => !isUsable k) = none ↔
    ∀ p ∈ g.productions.toList, AllMayStand p.rhs := by
  change (g.productions.toList.flatMap fun p => terminalsOf p.rhs).find? _ = none ↔ _
  simp only [List.find?_flatMap, List.findSome?_eq_none_iff, find?_terminalsOf_eq_none]

theorem find?_terminals_eq_some {k : Kind} : g.terminals.find? (fun k => !isUsable k) = some k ↔
    g.FirstMisplaced k := by
  change (g.productions.toList.flatMap fun p => terminalsOf p.rhs).find? _ = some k ↔ _
  simp only [List.find?_flatMap, List.findSome?_eq_some_iff, find?_terminalsOf_eq_none,
    find?_terminalsOf_eq_some]
  constructor
  · rintro ⟨before, production, after, split, ⟨front, back, rhs, bad, stand⟩, others⟩
    exact ⟨before, production, after, front, back, split, rhs, bad, stand, others⟩
  · rintro ⟨before, production, after, front, back, split, rhs, bad, stand, others⟩
    exact ⟨before, production, after, split, ⟨front, back, rhs, bad, stand⟩, others⟩

theorem firstWithout?_eq_none_iff {p : Nat → Bool} (same : ∀ i, p i = true ↔ P i) :
    g.firstWithout? p = none ↔ g.AllHave P := by
  simp [firstWithout?, AllHave, same]

theorem firstWithout?_eq_some_iff {p : Nat → Bool} (same : ∀ i, p i = true ↔ P i) {name : String} :
    g.firstWithout? p = some name ↔ ∃ n, g.FirstWithout P n ∧ g.nonterminalName n = name := by
  simp [firstWithout?, List.find?_range_eq_some, FirstWithout, ← same, and_left_comm]

section

variable (declared : g.Declared)

include declared

/-! The order of the tests -/

theorem validate_of_usable (usable : g.Usable) : g.validate = .ok () := by
  have some : g.productions.isEmpty = false := by simpa using usable.some
  have stand := find?_terminals_eq_none.2 usable.stand
  have rules := (firstWithout?_eq_none_iff fun _ => productionsOf_iff declared).2 usable.rules
  have occur := (firstWithout?_eq_none_iff fun _ => mem_reachable_iff declared).2 usable.occur
  have derive := (firstWithout?_eq_none_iff fun _ => mem_productive_iff declared).2 usable.derive
  simp [validate, some, stand, rules, occur, derive]
  rfl

theorem validate_of_lacks {e : GrammarError} (lacks : g.Lacks e) : g.validate = .error e := by
  have nonempty (some : g.productions.toList ≠ []) : g.productions.isEmpty = false := by simpa using some
  have searched {n : Nat} {p : Nat → Bool} {P : Nat → Prop} (same : ∀ i, p i = true ↔ P i)
      (first : g.FirstWithout P n) : g.firstWithout? p = some (g.nonterminalName n) :=
    (firstWithout?_eq_some_iff same).2 ⟨n, first, rfl⟩
  cases lacks with
  | productions none =>
    have none : g.productions.isEmpty = true := by simpa using none
    simp [validate, none]
    rfl
  | terminals some first =>
    have found := find?_terminals_eq_some.2 first
    simp [validate, nonempty some, found]
    rfl
  | rules some stand first =>
    have stand := find?_terminals_eq_none.2 stand
    have found := searched (fun _ => productionsOf_iff declared) first
    simp [validate, nonempty some, stand, found]
    rfl
  | occurrence some stand rules first =>
    have stand := find?_terminals_eq_none.2 stand
    have rules := (firstWithout?_eq_none_iff fun _ => productionsOf_iff declared).2 rules
    have found := searched (fun _ => mem_reachable_iff declared) first
    simp [validate, nonempty some, stand, rules, found]
    rfl
  | words some stand rules occur first =>
    have stand := find?_terminals_eq_none.2 stand
    have rules := (firstWithout?_eq_none_iff fun _ => productionsOf_iff declared).2 rules
    have occur := (firstWithout?_eq_none_iff fun _ => mem_reachable_iff declared).2 occur
    have found := searched (fun _ => mem_productive_iff declared) first
    simp [validate, nonempty some, stand, rules, occur, found]
    rfl

omit declared in
theorem allHave_or_first (P : Nat → Prop) : g.AllHave P ∨ ∃ n, g.FirstWithout P n := by
  classical
  by_cases all : g.AllHave P
  · exact .inl all
  · right
    have some : ∃ n, n < g.nonterminals.size ∧ ¬ P n := by simpa [AllHave] using all
    obtain ⟨inside, lacks⟩ := Nat.find_spec some
    refine ⟨Nat.find some, inside, lacks, fun m less => ?_⟩
    by_contra other
    exact Nat.find_min some less ⟨Nat.lt_trans less inside, other⟩

omit declared in
theorem usable_or_lacks : g.Usable ∨ ∃ e, g.Lacks e := by
  by_cases some : g.productions.toList = []
  · exact .inr ⟨_, .productions some⟩
  cases terminals : g.terminals.find? (fun k => !isUsable k) with
  | some k => exact .inr ⟨_, .terminals some (find?_terminals_eq_some.1 terminals)⟩
  | none =>
    have stand := find?_terminals_eq_none.1 terminals
    rcases allHave_or_first (g := g) g.HasRule with rules | ⟨n, first⟩
    · rcases allHave_or_first (g := g) g.Occurs with occur | ⟨n, first⟩
      · rcases allHave_or_first (g := g) g.Derives with derive | ⟨n, first⟩
        · exact .inl ⟨some, stand, rules, occur, derive⟩
        · exact .inr ⟨_, .words some stand rules occur first⟩
      · exact .inr ⟨_, .occurrence some stand rules first⟩
    · exact .inr ⟨_, .rules some stand first⟩

/-- A grammar is valid just if it can be used, and else the first thing it lacks is reported. -/
theorem validate_exact :
    (g.validate = .ok () ↔ g.Usable) ∧ ∀ e, g.validate = .error e ↔ g.Lacks e := by
  refine ⟨⟨fun valid => ?_, validate_of_usable declared⟩, fun e =>
    ⟨fun invalid => ?_, validate_of_lacks declared⟩⟩
  · rcases usable_or_lacks (g := g) with usable | ⟨e, lacks⟩
    · exact usable
    · simp [validate_of_lacks declared lacks] at valid
  · rcases usable_or_lacks (g := g) with usable | ⟨e', lacks⟩
    · simp [validate_of_usable declared usable] at invalid
    · have same := (validate_of_lacks declared lacks).symm.trans invalid
      simpa [Except.error.inj same] using lacks

end

/-- A list can be a name behind the list, or something that never ends. -/
def endless : Grammar :=
  { nonterminals := #[.hidden "list", .hidden "loop"]
    levels := #[]
    productions := #[⟨0, [], none⟩, ⟨0, [.nonterminal 0, .terminal .ident], none⟩,
      ⟨0, [.nonterminal 1], none⟩, ⟨1, [.terminal .lParen, .nonterminal 1], none⟩]
    start := 0 }

theorem validate_exact_endless :
    endless.Declared ∧ endless.validate = .error (.unproductive "loop") ∧ ¬ endless.Usable ∧
      endless.Lacks (.unproductive "loop") := by
  have declared : endless.Declared := ⟨by decide, by decide, by decide⟩
  have invalid : endless.validate = .error (.unproductive "loop") := by decide
  obtain ⟨usable, lacks⟩ := validate_exact declared
  refine ⟨declared, invalid, fun ok => ?_, (lacks _).1 invalid⟩
  simp [usable.2 ok] at invalid

end ShaderTree.Grammar
