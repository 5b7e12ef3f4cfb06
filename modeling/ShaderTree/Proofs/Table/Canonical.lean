import Mathlib.Data.Set.Insert
import ShaderTree.Proofs.Grammar.FirstWords
import ShaderTree.Proofs.Table.Columns
import ShaderTree.Proofs.Table.Prefixes
import ShaderTree.Proofs.Table.Propagation

/-! Canonical sets of items with one lookahead each. The states of the automaton are the kernels of
these sets without the lookaheads, and the lookaheads of a state are those of all sets that share its
kernel, taken together. -/
namespace ShaderTree

namespace Grammar

open Relation (ReflTransGen)

variable {g : Grammar}

/-- A terminal comes first in some word derived from a string of symbols and another terminal behind
it. -/
def Opens (g : Grammar) (xs : List Symbol) (a b : Kind) : Prop :=
  ∃ w, ReflTransGen g.Produces (xs ++ [.terminal a]) (terminalWord (b :: w))

/-- The items that a set of items stands for, with their lookaheads: in front of a nonterminal, the
starts of its productions with what can come first behind it. -/
inductive InCanonical (g : Grammar) (kernel : Set (Item × Kind)) : Item → Kind → Prop
  | kernel {i : Item} {a : Kind} (member : (i, a) ∈ kernel) : InCanonical g kernel i a
  | start {i : Item} {a b : Kind} {p : Nat} {production : Production}
      (before : InCanonical g kernel i a) (next : g.next? i = some (.nonterminal production.lhs))
      (rule : g.IsRule p production)
      (opens : g.Opens ((g.rhs i.production).drop (i.dot + 1)) a b) :
      InCanonical g kernel ⟨p, 0⟩ b

def canonicalClosure (g : Grammar) (kernel : Set (Item × Kind)) : Set (Item × Kind) :=
  { e | g.InCanonical kernel e.1 e.2 }

/-- The items of a set in front of a symbol, with the dot behind it. -/
def passCanonical (g : Grammar) (items : Set (Item × Kind)) (x : Symbol) : Set (Item × Kind) :=
  { e | ∃ i, (i, e.2) ∈ items ∧ g.next? i = some x ∧ e.1 = i.advance }

/-- The sets that are reached from that of the start item, which the end of input follows. -/
inductive Canonical (g : Grammar) : Set (Item × Kind) → Prop
  | start : Canonical g (g.canonicalClosure {(g.startItem, .eof)})
  | goto {items : Set (Item × Kind)} {x : Symbol} (before : Canonical g items)
      (some : (g.passCanonical items x).Nonempty) :
      Canonical g (g.canonicalClosure (g.passCanonical items x))

/-- An item that no closure adds. -/
def IsCore (g : Grammar) (i : Item) : Prop := i.dot ≠ 0 ∨ i.production = g.startRule

/-- The kernel of a set, without the lookaheads. -/
def coreOf (g : Grammar) (items : Set (Item × Kind)) : Set Item :=
  { i | g.IsCore i ∧ ∃ a, (i, a) ∈ items }

/-! What opens a string -/

theorem opens_iff {xs : List Symbol} {a b : Kind} :
    g.Opens xs a b ↔ (∃ w ps, g.Parses xs (b :: w) ps) ∨ b = a ∧ g.Vanishes xs := by
  constructor
  · rintro ⟨w, derives⟩
    obtain ⟨ps, parses⟩ := exists_parses derives
    obtain ⟨u, v, qs, rs, whole, _, front, back⟩ := parses.split
    cases u with
    | nil =>
      refine .inr ⟨?_, qs, front⟩
      rw [List.nil_append] at whole
      subst whole
      cases back
      rfl
    | cons k u =>
      obtain rfl := (List.cons.inj whole).1
      exact .inl ⟨u, qs, front⟩
  · rintro (⟨w, ps, parses⟩ | ⟨rfl, ps, parses⟩)
    · exact ⟨w ++ [a], (parses.append (.terminal a .nil)).derives⟩
    · exact ⟨[], (parses.append (.terminal b .nil)).derives⟩

theorem declares_behind (declared : g.Declared) (i : Item) :
    ∀ x ∈ (g.rhs i.production).drop (i.dot + 1), g.declares x = true :=
  fun x inside => declared.declares_rhs _ x (List.mem_of_mem_drop inside)

theorem exists_opens (valid : g.validate = .ok ()) (declared : g.Declared) (i : Item) (a : Kind) :
    ∃ b, g.Opens ((g.rhs i.production).drop (i.dot + 1)) a b := by
  obtain ⟨w, ps, parses⟩ := exists_parses_of_yields fun x inside =>
    yields_of_validate valid declared (declares_behind declared i x inside)
  cases w with
  | nil => exact ⟨a, opens_iff.2 (.inr ⟨rfl, ps, parses⟩)⟩
  | cons b w => exact ⟨b, opens_iff.2 (.inl ⟨w, ps, parses⟩)⟩

/-- What opens what stands behind a nonterminal is found among its first terminals, or inherited. -/
theorem opens_behind (valid : g.validate = .ok ()) (declared : g.Declared) {i : Item} {a b : Kind} :
    g.Opens ((g.rhs i.production).drop (i.dot + 1)) a b ↔
      (Spread.behind (.ofGrammar g) i).terminals.mem b.index = true ∨
        b = a ∧ (Spread.behind (.ofGrammar g) i).nullable = true := by
  have own := declares_behind declared i
  rw [opens_iff]
  refine or_congr ?_ (and_congr_right fun _ =>
    (First.nullable_ofSymbols declared).symm)
  refine Iff.trans ?_
    (First.mem_ofSymbols declared (fun _ => yields_of_validate valid declared) own).symm
  constructor
  · rintro ⟨w, ps, parses⟩
    exact ⟨b, w, ps, rfl, parses⟩
  · rintro ⟨k, w, ps, is, parses⟩
    obtain rfl := Kind.index_injective is
    exact ⟨w, ps, parses⟩

/-! Canonical sets without their lookaheads -/

section Core

variable {items kernel : Set (Item × Kind)} {i : Item} {a : Kind}

theorem isCore_advance (i : Item) : g.IsCore i.advance := .inl (Nat.succ_ne_zero _)

theorem isCore_of_mem_pass {x : Symbol} {e : Item × Kind} (member : e ∈ g.passCanonical items x) :
    g.IsCore e.1 := by
  obtain ⟨i, _, _, is⟩ := member
  exact is ▸ isCore_advance i

theorem not_isCore_of_start {p : Nat} {production : Production} (rule : g.IsRule p production) :
    ¬ g.IsCore ⟨p, 0⟩ := by
  rintro (moved | start)
  · exact moved rfl
  · have bound := (Array.getElem?_eq_some_iff.1 rule.1).1
    exact Nat.ne_of_lt bound start

/-- Every set is the closure of its kernel. -/
theorem Canonical.exists_kernel (canonical : g.Canonical items) :
    ∃ kernel, (∀ e ∈ kernel, g.IsCore e.1) ∧ items = g.canonicalClosure kernel := by
  cases canonical with
  | start => exact ⟨_, fun e is => by cases is; exact .inr rfl, rfl⟩
  | goto before some => exact ⟨_, fun _ => isCore_of_mem_pass, rfl⟩

theorem coreOf_canonicalClosure (cores : ∀ e ∈ kernel, g.IsCore e.1) :
    i ∈ g.coreOf (g.canonicalClosure kernel) ↔ ∃ a, (i, a) ∈ kernel := by
  constructor
  · rintro ⟨core, a, member⟩
    cases member with
    | kernel member => exact ⟨a, member⟩
    | start before next rule opens => exact absurd core (not_isCore_of_start rule)
  · rintro ⟨a, member⟩
    exact ⟨cores _ member, a, .kernel member⟩

theorem coreOf_start (i : Item) :
    i ∈ g.coreOf (g.canonicalClosure {(g.startItem, .eof)}) ↔ i ∈ [g.startItem] := by
  rw [coreOf_canonicalClosure fun e is => by cases is; exact .inr rfl]
  simp

theorem coreOf_pass (x : Symbol) : i ∈ g.coreOf (g.canonicalClosure (g.passCanonical items x)) ↔
    ∃ j, (∃ a, (j, a) ∈ items) ∧ g.next? j = some x ∧ i = j.advance := by
  rw [coreOf_canonicalClosure fun _ => isCore_of_mem_pass]
  constructor
  · rintro ⟨a, j, member, next, is⟩
    exact ⟨j, ⟨a, member⟩, next, is⟩
  · rintro ⟨j, ⟨a, member⟩, next, is⟩
    exact ⟨a, j, member, next, is⟩

theorem mem_startsOf_of_isRule {p : Nat} {production : Production} (rule : g.IsRule p production) :
    (⟨p, 0⟩ : Item) ∈ (Analysis.ofGrammar g).startsOf production.lhs :=
  (mem_startsOf rule.2).2 ⟨rfl, production, rule.1, rfl⟩

theorem exists_isRule_of_mem_startsOf {n : Nat} (start : i ∈ (Analysis.ofGrammar g).startsOf n) :
    ∃ p production, i = ⟨p, 0⟩ ∧ g.IsRule p production ∧ production.lhs = n := by
  by_cases bound : n < g.nonterminals.size
  · obtain ⟨dot, production, known, rfl⟩ := (mem_startsOf bound).1 start
    exact ⟨i.production, production, by rw [← dot], ⟨known, bound⟩, rfl⟩
  · rw [startsOf_eq_nil bound] at start
    cases start

/-- A set has the items of its kernel's closure, each with some lookahead. -/
theorem Canonical.inClosure_iff (valid : g.validate = .ok ()) (declared : g.Declared)
    (canonical : g.Canonical items) {core : List Item} (same : ∀ i, i ∈ g.coreOf items ↔ i ∈ core) :
    (∃ a, (i, a) ∈ items) ↔ g.InClosure (Analysis.ofGrammar g).startsOf core i := by
  obtain ⟨kernel, cores, rfl⟩ := canonical.exists_kernel
  constructor
  · rintro ⟨a, member⟩
    change g.InCanonical kernel i a at member
    induction member with
    | @kernel i a member =>
      exact .kernel ((same i).1 ((coreOf_canonicalClosure cores).2 ⟨a, member⟩))
    | start before next rule opens ih => exact ih.start next (mem_startsOf_of_isRule rule)
  · intro inside
    induction inside with
    | kernel member =>
      obtain ⟨a, member⟩ := (coreOf_canonicalClosure cores).1 ((same _).2 member)
      exact ⟨a, .kernel member⟩
    | @start i j n _ next member ih =>
      obtain ⟨a, member'⟩ := ih
      obtain ⟨p, production, rfl, rule, rfl⟩ := exists_isRule_of_mem_startsOf member
      obtain ⟨b, opens⟩ := exists_opens valid declared i a
      exact ⟨b, .start member' next rule opens⟩

end Core

/-! States and canonical sets -/

section Sets

variable (valid : g.validate = .ok ()) (declared : g.Declared)
  {items : Set (Item × Kind)} {state : Nat}

/-- A canonical set has the kernel of a state. -/
def IsOver (g : Grammar) (items : Set (Item × Kind)) (state : Nat) : Prop :=
  ∃ s, (Automaton.ofGrammar g).states[state]? = some s ∧ g.coreOf items = { i | i ∈ s.kernel }

theorem IsOver.mem_iff (upon : g.IsOver items state) (i : Item) :
    i ∈ g.coreOf items ↔ i ∈ (Analysis.ofGrammar g).kernelOf state := by
  obtain ⟨s, known, same⟩ := upon
  rw [kernelOf_eq known, same]
  rfl

theorem isOver_of_mem_iff {s : AutomatonState}
    (known : (Automaton.ofGrammar g).states[state]? = some s)
    (same : ∀ i, i ∈ g.coreOf items ↔ i ∈ (Analysis.ofGrammar g).kernelOf state) :
    g.IsOver items state :=
  ⟨s, known, Set.ext fun i => by rw [same, kernelOf_eq known]; rfl⟩

theorem isOver_start (g : Grammar) :
    g.IsOver (g.canonicalClosure {(g.startItem, .eof)}) 0 := by
  obtain ⟨s, known⟩ := exists_of_holds g.holds_startItem
  exact isOver_of_mem_iff known fun i => by rw [coreOf_start, Analysis.kernelOf_zero]

include valid declared

theorem Canonical.holds_iff (canonical : g.Canonical items) (upon : g.IsOver items state)
    (i : Item) : (∃ a, (i, a) ∈ items) ↔ g.Holds state i :=
  canonical.inClosure_iff valid declared upon.mem_iff

/-- A set goes over to a set of the state that its symbol leads to. -/
theorem Canonical.isOver_goto (canonical : g.Canonical items) (upon : g.IsOver items state)
    {x : Symbol} {target : Nat} (leads : g.Leads state x target) :
    g.IsOver (g.canonicalClosure (g.passCanonical items x)) target := by
  obtain ⟨⟨s, known⟩, kernel⟩ := leads.kernel
  refine isOver_of_mem_iff known fun i => ?_
  rw [coreOf_pass, kernel]
  simp only [canonical.holds_iff valid declared upon]

theorem Canonical.passCanonical_nonempty (canonical : g.Canonical items)
    (upon : g.IsOver items state) {x : Symbol} :
    (g.passCanonical items x).Nonempty ↔ ∃ i, g.Holds state i ∧ g.next? i = some x := by
  constructor
  · rintro ⟨e, i, member, next, _⟩
    exact ⟨i, (canonical.holds_iff valid declared upon i).1 ⟨_, member⟩, next⟩
  · rintro ⟨i, holds, next⟩
    obtain ⟨a, member⟩ := (canonical.holds_iff valid declared upon i).2 holds
    exact ⟨(i.advance, a), i, member, next, rfl⟩

/-- Lookaheads in a canonical set are lookaheads in the state with its kernel. -/
theorem Canonical.looks (canonical : g.Canonical items) : ∃ state, g.IsOver items state ∧
    ∀ i a, (i, a) ∈ items → g.Looks state i a.index := by
  have closed {kernel : Set (Item × Kind)} {state : Nat}
      (known : ∀ i a, (i, a) ∈ kernel → g.Looks state i a.index) :
      ∀ i a, (i, a) ∈ g.canonicalClosure kernel → g.Looks state i a.index := by
    intro i a member
    change g.InCanonical kernel i a at member
    induction member with
    | kernel member => exact known _ _ member
    | @start i a b p production _ next rule opens ih =>
      rcases (opens_behind valid declared).1 opens with first | ⟨rfl, nullable⟩
      · exact .first ih.holds next (mem_startsOf_of_isRule rule) first
      · exact .inherit ih next (mem_startsOf_of_isRule rule) nullable
  induction canonical with
  | start =>
    refine ⟨0, isOver_start g, closed fun i a member => ?_⟩
    obtain ⟨rfl, rfl⟩ := Prod.mk.inj (Set.mem_singleton_iff.1 member)
    exact .start
  | @goto items x before some ih =>
    obtain ⟨state, upon, looks⟩ := ih
    obtain ⟨i, holds, next⟩ := (before.passCanonical_nonempty valid declared upon).1 some
    obtain ⟨target, leads⟩ := exists_leads holds next
    refine ⟨target, before.isOver_goto valid declared upon leads, closed ?_⟩
    rintro _ a ⟨j, member, moved, rfl⟩
    exact (looks j a member).pass moved leads

/-- The kernel of each state is that of a canonical set. -/
theorem exists_isOver {s : AutomatonState}
    (known : (Automaton.ofGrammar g).states[state]? = some s) :
    ∃ items, g.Canonical items ∧ g.IsOver items state := by
  have inductive_ : Automaton.Inductive g fun kernel => g.IsStateKernel kernel ∧
      ∃ items, g.Canonical items ∧ ∀ i, i ∈ g.coreOf items ↔ i ∈ kernel := by
    refine ⟨fun kernel both => both.1, ⟨isStateKernel_start, _, .start, coreOf_start⟩, ?_⟩
    rintro kernel x ⟨isKernel, items, canonical, same⟩ some
    have inside (i : Item) := canonical.inClosure_iff (i := i) valid declared same
    have passed (j : Item) : j ∈ Automaton.passed g x
        (g.closure (Analysis.ofGrammar g).startsOf kernel) ↔
          ∃ i, (∃ a, (i, a) ∈ items) ∧ g.next? i = .some x ∧ j = i.advance := by
      rw [Automaton.mem_passed]
      exact exists_congr fun i => and_congr_left fun _ => mem_closure.trans (inside i).symm
    refine ⟨isStateKernel_passed isKernel x, _, .goto (x := x) canonical ?_, fun i => ?_⟩
    · obtain ⟨j, member⟩ := List.exists_mem_of_ne_nil _ some
      obtain ⟨i, ⟨a, there⟩, next, rfl⟩ := (passed j).1 member
      exact ⟨(i.advance, a), i, there, next, rfl⟩
    · rw [coreOf_pass, Item.mem_sort, passed]
  obtain ⟨_, items, canonical, same⟩ := inductive_.kernel known
  exact ⟨items, canonical, s, known, Set.ext same⟩

/-- Lookaheads in a state are lookaheads in some canonical set with its kernel. -/
theorem Looks.exists_canonical {c : Nat} {i : Item} (looks : g.Looks state i c) :
    ∃ items a, g.Canonical items ∧ g.IsOver items state ∧ (i, a) ∈ items ∧ a.index = c := by
  induction looks with
  | start => exact ⟨_, .eof, .start, isOver_start g, .kernel rfl, rfl⟩
  | @first state n c i j holds next start first =>
    obtain ⟨s, known⟩ := exists_of_holds holds
    obtain ⟨items, canonical, upon⟩ := exists_isOver valid declared known
    obtain ⟨a, member⟩ := (canonical.holds_iff valid declared upon i).2 holds
    obtain ⟨p, production, rfl, rule, rfl⟩ := exists_isRule_of_mem_startsOf start
    obtain ⟨b, w, ps, rfl, parses⟩ :=
      (First.mem_ofSymbols declared (fun _ => yields_of_validate valid declared)
        (declares_behind declared i)).1 first
    obtain ⟨kernel, _, rfl⟩ := canonical.exists_kernel
    exact ⟨_, b, canonical, upon,
      .start member next rule (opens_iff.2 (.inl ⟨w, ps, parses⟩)), rfl⟩
  | @inherit state n c i j _ next start nullable ih =>
    obtain ⟨items, a, canonical, upon, member, rfl⟩ := ih
    obtain ⟨p, production, rfl, rule, rfl⟩ := exists_isRule_of_mem_startsOf start
    obtain ⟨kernel, _, rfl⟩ := canonical.exists_kernel
    exact ⟨_, a, canonical, upon, .start member next rule
      ((opens_behind valid declared).2 (.inr ⟨rfl, nullable⟩)), rfl⟩
  | @pass state target c i x before next leads ih =>
    obtain ⟨items, a, canonical, upon, member, rfl⟩ := ih
    exact ⟨_, a, .goto canonical ⟨(i.advance, a), i, member, next, rfl⟩,
      canonical.isOver_goto valid declared upon leads, .kernel ⟨i, member, next, rfl⟩, rfl⟩

end Sets

/-- No two states have the same kernel. -/
theorem state_unique {state state' : Nat} {s s' : AutomatonState}
    (known : (Automaton.ofGrammar g).states[state]? = some s)
    (known' : (Automaton.ofGrammar g).states[state']? = some s')
    (same : ∀ i, i ∈ s.kernel ↔ i ∈ s'.kernel) : state = state' := by
  obtain ⟨kernels, explored, found, _⟩ := Automaton.found_ofGrammar (Automaton.inductive_isStateKernel g)
  have here := explored.kernel _ _ known
  have there := explored.kernel _ _ known'
  rw [← Array.getElem?_toList] at here there
  have first := found.known s.kernel (List.mem_of_getElem? here)
  have second := found.known s'.kernel (List.mem_of_getElem? there)
  have equal : s.kernel = s'.kernel :=
    Item.eq_of_sorted first.distinct second.distinct first.sorted second.sorted same
  exact (List.getElem?_inj (List.getElem?_eq_some_iff.1 here).1 found.distinct).1
    (by rw [here, there, equal])

/-- The set of lookaheads that an item of a kernel is listed with is the one in its place. -/
theorem setAt_of_itemsWith {known : Analysis.Lookaheads} {state slot : Nat} {i : Item} {set : IndexSet}
    (here : ((Analysis.ofGrammar g).kernelOf state)[slot]? = some i)
    (member : (i, set) ∈ (Analysis.ofGrammar g).itemsWith known state) :
    Analysis.setAt known state slot = some set := by
  have isKernel := isStateKernel_kernelOf g state
  rw [Analysis.itemsWith_eq] at member
  rcases List.mem_append.1 member with listed | added
  · obtain ⟨slot', there, is⟩ := Analysis.mem_knownKernel.1 listed
    have same : slot = slot' :=
      (List.getElem?_inj (List.getElem?_eq_some_iff.1 here).1 isKernel.distinct).1
        (by rw [here, there])
    exact same ▸ is
  · obtain ⟨n, _, start⟩ := List.mem_flatMap.1 added
    obtain ⟨j, start, is⟩ := List.mem_map.1 start
    obtain ⟨p, production, rfl, rule, _⟩ := exists_isRule_of_mem_startsOf start
    obtain ⟨rfl, _⟩ := Prod.mk.inj is
    exact absurd (isKernel.inside _ (List.mem_of_getElem? here)) (not_isCore_of_start rule)

/-- The lookaheads of an item in a state's kernel are those that it has in the canonical sets over
that kernel, taken together; every canonical set has the kernel of one state, and every state that of
some canonical set. -/
theorem lookaheads_canonical (valid : g.validate = .ok ()) (declared : g.Declared) :
    (∀ (state slot : Nat) (i : Item), ((Analysis.ofGrammar g).kernelOf state)[slot]? = some i →
      ∃ set, Analysis.setAt (Analysis.ofGrammar g).lookaheads state slot = some set ∧
        ∀ c, set.mem c = true ↔ ∃ items a, g.Canonical items ∧ g.IsOver items state ∧
          (i, a) ∈ items ∧ a.index = c) ∧
    (∀ items, g.Canonical items → ∃! state, g.IsOver items state) ∧
    ∀ state, state < (Automaton.ofGrammar g).states.size →
      ∃ items, g.Canonical items ∧ g.IsOver items state := by
  have unique {items : Set (Item × Kind)} {state state' : Nat} (upon : g.IsOver items state)
      (upon' : g.IsOver items state') : state = state' := by
    obtain ⟨s, known, same⟩ := upon
    obtain ⟨s', known', same'⟩ := upon'
    exact state_unique known known' fun i => Set.ext_iff.1 (same.symm.trans same') i
  refine ⟨fun state slot i here => ?_, fun items canonical => ?_, fun state bound => ?_⟩
  · have terminals := firstBelow valid
    have sound := Analysis.sound_lookaheads terminals
    obtain ⟨set, there⟩ := Analysis.setAt_eq_some sound here
    refine ⟨set, there, fun c => ⟨fun member => ?_, ?_⟩⟩
    · exact (sound.looks state slot i set c here there member).exists_canonical valid declared
    · rintro ⟨items, a, canonical, upon, member, rfl⟩
      obtain ⟨state', upon', looks⟩ := canonical.looks valid declared
      obtain rfl := unique upon upon'
      obtain ⟨set', listed, mem⟩ := Analysis.exists_of_looks terminals (looks i a member)
      have same := (setAt_of_itemsWith here listed).symm.trans there
      exact Option.some.inj same ▸ mem
  · obtain ⟨state, upon, _⟩ := canonical.looks valid declared
    exact ⟨state, upon, fun other upon' => unique upon' upon⟩
  · exact exists_isOver valid declared (Array.getElem?_eq_getElem bound)

/-- Behind two summands a sum can be followed by one more or by the end, each in some canonical set. -/
theorem lookaheads_canonical_sums : Grammar.sums.validate = .ok () ∧ Grammar.sums.Declared ∧
    ((Analysis.ofGrammar .sums).kernelOf 4)[1]? = some ⟨0, 3⟩ ∧
    Analysis.setAt (Analysis.ofGrammar .sums).lookaheads 4 1 =
      some (.ofList [Kind.plus.index, Kind.eof.index]) ∧
    ∀ k, k = .plus ∨ k = .eof ↔
      ∃ items, Grammar.sums.Canonical items ∧ Grammar.sums.IsOver items 4 ∧ (⟨0, 3⟩, k) ∈ items := by
  have valid : Grammar.sums.validate = .ok () := by decide
  have declared : Grammar.sums.Declared := ⟨by decide, by decide, by decide⟩
  have slot : ((Analysis.ofGrammar .sums).kernelOf 4)[1]? = some ⟨0, 3⟩ := by with_unfolding_all decide
  have known : Analysis.setAt (Analysis.ofGrammar .sums).lookaheads 4 1 =
      some (.ofList [Kind.plus.index, Kind.eof.index]) := by with_unfolding_all decide
  refine ⟨valid, declared, slot, known, fun k => ?_⟩
  obtain ⟨set, there, canonical⟩ := (lookaheads_canonical valid declared).1 4 1 ⟨0, 3⟩ slot
  obtain rfl := Option.some.inj (known.symm.trans there)
  have inside : k = .plus ∨ k = .eof ↔
      (IndexSet.ofList [Kind.plus.index, Kind.eof.index]).mem k.index = true := by
    rw [IndexSet.ofList, List.foldl_cons, List.foldl_cons, List.foldl_nil, IndexSet.mem_insert,
      IndexSet.mem_insert, IndexSet.mem_empty, Bool.false_or, Bool.or_eq_true, decide_eq_true_eq,
      decide_eq_true_eq]
    exact or_congr ⟨fun is => is ▸ rfl, fun same => (Kind.index_injective same).symm⟩
      ⟨fun is => is ▸ rfl, fun same => (Kind.index_injective same).symm⟩
  rw [inside, canonical]
  constructor
  · rintro ⟨items, a, canonical, upon, member, same⟩
    exact ⟨items, canonical, upon, Kind.index_injective same ▸ member⟩
  · rintro ⟨items, canonical, upon, member⟩
    exact ⟨items, k, canonical, upon, member, rfl⟩

end Grammar

end ShaderTree
