import ShaderTree.Grammar.First
import ShaderTree.Proofs.Grammar.Derivation
import ShaderTree.Proofs.Table.Rows
import ShaderTree.Proofs.Table.Sets

/-! The first terminals that the rounds over the productions find are enough: every word that a
string of symbols derives starts with one of them, or is empty and the string is marked nullable. -/
namespace ShaderTree

open Finset (range)

namespace First

instance : LE First :=
  ⟨fun a b => a.terminals ≤ b.terminals ∧ (a.nullable = true → b.nullable = true)⟩

theorem le_refl (f : First) : f ≤ f := ⟨IndexSet.le_refl _, id⟩

theorem le_trans {a b c : First} (first : a ≤ b) (second : b ≤ c) : a ≤ c :=
  ⟨IndexSet.le_trans first.1 second.1, second.2 ∘ first.2⟩

theorem le_antisymm {a b : First} (left : a ≤ b) (right : b ≤ a) : a = b := by
  obtain ⟨terminals, nullable⟩ := a
  obtain ⟨terminals', nullable'⟩ := b
  obtain rfl := IndexSet.le_antisymm left.1 right.1
  rw [mk.injEq]
  exact ⟨rfl, Bool.eq_iff_iff.2 ⟨left.2, right.2⟩⟩

/-- What is known of one terminal, and whether nothing can be derived. -/
def column (c : Nat) (f : First) : Bool × Bool := (f.terminals.mem c, f.nullable)

/-- How much of both is known. -/
def weight (c : Nat) (f : First) : Nat := (f.terminals.mem c).toNat + f.nullable.toNat

theorem weight_le (c : Nat) (f : First) : f.weight c ≤ 2 :=
  Nat.add_le_add (Bool.toNat_le _) (Bool.toNat_le _)

theorem weight_mono {a b : First} (le : a ≤ b) (c : Nat) : a.weight c ≤ b.weight c :=
  Nat.add_le_add (Bool.toNat_le_toNat (le.1 c)) (Bool.toNat_le_toNat le.2)

theorem column_eq_of_weight {a b : First} {c : Nat} (le : a ≤ b) (same : a.weight c = b.weight c) :
    a.column c = b.column c := by
  have terminals := Bool.toNat_le_toNat (le.1 c)
  have nullable := Bool.toNat_le_toNat le.2
  have injective : ∀ p q : Bool, p.toNat = q.toNat → p = q := by decide
  unfold weight at same
  have member : (a.terminals.mem c).toNat = (b.terminals.mem c).toNat := by omega
  have mark : a.nullable.toNat = b.nullable.toNat := by omega
  exact Prod.ext (injective _ _ member) (injective _ _ mark)

theorem eq_of_column {a b : First} (same : ∀ c, a.column c = b.column c) : a = b := by
  obtain ⟨terminals, nullable⟩ := a
  obtain ⟨terminals', nullable'⟩ := b
  obtain rfl := IndexSet.eq_of_mem fun c => congrArg Prod.fst (same c)
  obtain rfl : nullable = nullable' := congrArg Prod.snd (same 0)
  rfl

end First

/-- One state of knowledge about the nonterminals goes on from another. -/
def First.Within (known known' : Array First) : Prop :=
  known.size = known'.size ∧ ∀ (n : Nat) (f f' : First), known[n]? = some f →
    known'[n]? = some f' → f ≤ f'

namespace First

variable {g : Grammar} {known known' : Array First} {p : Production} {n : Nat}

theorem Within.refl (known : Array First) : Within known known := by
  refine ⟨rfl, ?_⟩
  intro n f f' here here'
  rw [here] at here'
  exact Option.some.inj here' ▸ le_refl f

theorem exists_of_size {f : First} (size : known.size = known'.size) (here : known[n]? = some f) :
    ∃ f', known'[n]? = some f' := by
  have bound := (Array.getElem?_eq_some_iff.1 here).1
  exact ⟨_, Array.getElem?_eq_getElem (size ▸ bound)⟩

theorem Within.trans {known'' : Array First} (first : Within known known')
    (second : Within known' known'') : Within known known'' := by
  refine ⟨first.1.trans second.1, ?_⟩
  intro n f f'' here here''
  obtain ⟨f', here'⟩ := exists_of_size first.1 here
  exact le_trans (first.2 n f f' here here') (second.2 n f' f'' here' here'')

theorem Within.antisymm (within : Within known known') (back : Within known' known) :
    known = known' := by
  apply Array.ext within.1
  intro n bound bound'
  have here := Array.getElem?_eq_getElem bound
  have here' := Array.getElem?_eq_getElem bound'
  exact le_antisymm (within.2 n _ _ here here') (back.2 n _ _ here' here)

theorem getElem?_learn (known : Array First) (p : Production) (n : Nat) :
    (learn known p)[n]? = if p.lhs = n then known[n]?.map fun old =>
        ⟨old.terminals.union (ofSymbols known p.rhs).terminals,
          old.nullable || (ofSymbols known p.rhs).nullable⟩
      else known[n]? := by
  rw [learn, Array.getElem?_modify]

theorem within_learn (known : Array First) (p : Production) : Within known (learn known p) := by
  refine ⟨(Array.size_modify ..).symm, ?_⟩
  intro n f f' here here'
  rw [getElem?_learn, here] at here'
  split at here'
  · obtain rfl := Option.some.inj here'
    refine ⟨IndexSet.le_union_left _ _, ?_⟩
    intro null
    simp [null]
  · exact Option.some.inj here' ▸ le_refl f

theorem within_round (known : Array First) (ps : Array Production) :
    Within known (ps.foldl learn known) := by
  rw [← Array.foldl_toList]
  exact foldl_induction (.refl known) fun known p _ next => next.trans (within_learn known p)

/-- Only terminals are known. -/
def Bounded (known : Array First) : Prop :=
  ∀ (n : Nat) (f : First), known[n]? = some f → f.terminals.Below Kind.terminalCount

theorem ofSymbols_below (bounded : Bounded known) {xs : List Symbol}
    (terminals : ∀ k, .terminal k ∈ xs → k.isTerminal = true) :
    (ofSymbols known xs).terminals.Below Kind.terminalCount := by
  induction xs with
  | nil => exact IndexSet.below_empty _
  | cons x xs ih =>
    cases x with
    | terminal k =>
      intro i member
      simp only [ofSymbols, IndexSet.mem_insert, IndexSet.mem_empty, Bool.false_or,
        decide_eq_true_eq] at member
      exact member ▸ of_decide_eq_true (terminals k (.head _))
    | nonterminal m =>
      unfold ofSymbols
      split
      · exact IndexSet.below_empty _
      · rename_i f here
        split
        · exact (bounded m f here).union (ih fun k member => terminals k (.tail _ member))
        · exact bounded m f here

theorem Bounded.learn (bounded : Bounded known)
    (terminals : ∀ k, .terminal k ∈ p.rhs → k.isTerminal = true) : Bounded (learn known p) := by
  intro n f here
  rw [getElem?_learn] at here
  split at here
  · obtain ⟨old, was, rfl⟩ := Option.map_eq_some_iff.1 here
    exact (bounded n old was).union (ofSymbols_below bounded terminals)
  · exact bounded n f here

end First

namespace Grammar

/-- All terminals of the productions are terminals. -/
def HasTerminals (g : Grammar) : Prop :=
  ∀ p ∈ g.productions.toList, ∀ k, .terminal k ∈ p.rhs → k.isTerminal = true

end Grammar

namespace First

variable {g : Grammar} {known known' : Array First} {p : Production} {n : Nat}

theorem Bounded.round (terminals : g.HasTerminals) (bounded : Bounded known) :
    Bounded (g.productions.foldl First.learn known) := by
  rw [← Array.foldl_toList]
  exact foldl_induction bounded fun _ p member next => next.learn (terminals p member)

/-! What is learnt of one terminal depends only on what is known of that terminal and of the nullable
marks. These are two bits for each nonterminal, so that there is nothing left to learn of the terminal
after twice as many rounds as there are nonterminals, and of any terminal after the rounds that are
made. -/

/-- The same is known of one terminal, and of what can derive nothing. -/
def Agree (c : Nat) (known known' : Array First) : Prop :=
  ∀ n : Nat, known[n]?.map (column c) = known'[n]?.map (column c)

variable {c : Nat}

theorem eq_of_agree (agree : ∀ c, Agree c known known') : known = known' := by
  refine Array.ext_getElem? fun n => ?_
  have each (c : Nat) := agree c n
  cases here : known[n]? with
  | none => simpa [here, eq_comm] using each 0
  | some f =>
    cases here' : known'[n]? with
    | none => simpa [here, here'] using each 0
    | some f' =>
      refine congrArg some (eq_of_column fun c => ?_)
      simpa [here, here'] using each c

theorem Agree.ofSymbols (agree : Agree c known known') (xs : List Symbol) :
    (ofSymbols known xs).column c = (ofSymbols known' xs).column c := by
  induction xs with
  | nil => rfl
  | cons x xs ih =>
    cases x with
    | terminal k => rfl
    | nonterminal n =>
      have same := agree n
      have rest := Prod.ext_iff.1 ih
      unfold First.ofSymbols
      cases here : known[n]? with
      | none => simp_all
      | some f =>
        cases here' : known'[n]? with
        | none => simp_all
        | some f' =>
          have marks : f.terminals.mem c = f'.terminals.mem c ∧ f.nullable = f'.nullable := by
            simpa [here, here', column] using same
          cases null : f'.nullable <;> simp_all [column]

theorem Agree.learn (agree : Agree c known known') (p : Production) :
    Agree c (learn known p) (learn known' p) := by
  intro n
  have own := Prod.ext_iff.1 (agree.ofSymbols p.rhs)
  have same := agree n
  rw [getElem?_learn, getElem?_learn]
  split
  · cases here : known[n]? <;> cases here' : known'[n]? <;> simp_all [column]
  · exact same

theorem Agree.round (agree : Agree c known known') (ps : Array Production) :
    Agree c (ps.foldl First.learn known) (ps.foldl First.learn known') := by
  rw [← Array.foldl_toList, ← Array.foldl_toList]
  generalize ps.toList = ps
  induction ps generalizing known known' with
  | nil => exact agree
  | cons p ps ih => exact ih (agree.learn p)

theorem Agree.saturate (n : Nat) (agree : Agree c (g.productions.foldl First.learn known) known) :
    Agree c (g.productions.foldl First.learn (saturate g n known)) (saturate g n known) := by
  induction n generalizing known with
  | zero => exact agree
  | succ n ih =>
    unfold First.saturate
    dsimp only
    split
    · exact agree
    · exact ih (agree.round _)

/-- How much is known of all nonterminals. -/
def total (c : Nat) (known : Array First) : Nat :=
  ∑ n ∈ range known.size, ((known[n]?.map (weight c)).getD 0)

theorem total_le (c : Nat) (known : Array First) : total c known ≤ known.size * 2 := by
  have each : ∀ n ∈ range known.size, ((known[n]?.map (weight c)).getD 0) ≤ 2 := by
    intro n _
    cases known[n]? with
    | none => exact Nat.zero_le _
    | some f => exact weight_le c f
  refine Nat.le_trans (Finset.sum_le_sum each) ?_
  simp

theorem total_lt (within : Within known known') (other : ¬ Agree c known' known) :
    total c known < total c known' := by
  have each : ∀ n ∈ range known.size,
      ((known[n]?.map (weight c)).getD 0) ≤ ((known'[n]?.map (weight c)).getD 0) := by
    intro n member
    have bound := Finset.mem_range.1 member
    have here := Array.getElem?_eq_getElem bound
    have here' := Array.getElem?_eq_getElem (within.1 ▸ bound)
    rw [here, here']
    exact weight_mono (within.2 n _ _ here here') c
  unfold total
  rw [← within.1]
  refine Nat.lt_of_le_of_ne (Finset.sum_le_sum each) fun same => other fun n => ?_
  by_cases bound : n < known.size
  · have here := Array.getElem?_eq_getElem bound
    have here' := Array.getElem?_eq_getElem (within.1 ▸ bound)
    have weights := (Finset.sum_eq_sum_iff_of_le each).1 same n (Finset.mem_range.2 bound)
    rw [here, here'] at weights ⊢
    exact congrArg some (column_eq_of_weight (within.2 n _ _ here here') weights).symm
  · have outside' : ¬ n < known'.size := within.1 ▸ bound
    rw [Array.getElem?_eq_none (by omega), Array.getElem?_eq_none (by omega)]

/-- Enough rounds leave nothing to learn of one terminal. -/
theorem agree_saturate (rounds : Nat) (enough : known.size * 2 < rounds + total c known) :
    Agree c (g.productions.foldl learn (saturate g rounds known)) (saturate g rounds known) := by
  induction rounds generalizing known with
  | zero =>
    have most := total_le c known
    omega
  | succ rounds ih =>
    by_cases agree : Agree c (g.productions.foldl learn known) known
    · exact agree.saturate _
    · have within := within_round known g.productions
      have more := total_lt within agree
      have size := within.1
      unfold saturate
      dsimp only
      split
      · rename_i same
        exact absurd (fun _ => by rw [same]) agree
      · exact ih (by omega)

theorem saturate_induction {P : Array First → Prop} (start : P known)
    (round : ∀ known, P known → P (g.productions.foldl learn known)) (n : Nat) :
    P (saturate g n known) := by
  induction n generalizing known with
  | zero => exact start
  | succ n ih =>
    unfold saturate
    dsimp only
    split
    · exact start
    · exact ih (round known start)

theorem size_ofGrammar (g : Grammar) : (ofGrammar g).size = g.nonterminals.size :=
  saturate_induction (P := fun known => known.size = g.nonterminals.size) Array.size_replicate
    (fun known size => (within_round known g.productions).1.symm.trans size) _

/-- The rounds over the productions of a grammar reach a fixed point. -/
theorem ofGrammar_fixed (g : Grammar) : g.productions.foldl learn (ofGrammar g) = ofGrammar g := by
  refine eq_of_agree fun c => agree_saturate _ ?_
  have some : 2 ≤ Kind.terminalCount + 1 := by decide
  have more := Nat.mul_le_mul_left g.nonterminals.size some
  rw [Array.size_replicate]
  omega

theorem bounded_ofGrammar (terminals : g.HasTerminals) : Bounded (ofGrammar g) := by
  refine saturate_induction (P := Bounded) ?_ (fun _ bounded => bounded.round terminals) _
  intro n f here
  rw [Array.getElem?_replicate] at here
  split at here
  · obtain rfl := Option.some.inj here
    exact IndexSet.below_empty _
  · cases here

/-- A nonterminal starts with whatever the right-hand side of one of its productions starts
with. -/
theorem ofSymbols_le (rule : g.IsRule n p) :
    ∃ f, (ofGrammar g)[p.lhs]? = some f ∧ ofSymbols (ofGrammar g) p.rhs ≤ f := by
  have fixed := ofGrammar_fixed g
  have member : p ∈ g.productions.toList := Array.mem_toList_iff.2 (Array.mem_of_getElem? rule.1)
  rw [← Array.foldl_toList] at fixed
  have learned : learn (ofGrammar g) p = ofGrammar g :=
    foldl_fixed (P := fun _ => True) Within.refl Within.trans
      (fun _ _ => Within.antisymm) within_learn trivial (fun _ _ _ _ => trivial) fixed p member
  obtain ⟨f, here⟩ : ∃ f, (ofGrammar g)[p.lhs]? = some f :=
    ⟨_, Array.getElem?_eq_getElem (size_ofGrammar g ▸ rule.2)⟩
  have again := here
  rw [← learned, getElem?_learn, if_pos rfl, here, Option.map_some, Option.some.injEq] at again
  refine ⟨f, here, ?_⟩
  rw [← again]
  refine ⟨IndexSet.le_union_right _ _, ?_⟩
  intro null
  simp [null]

/-- What a string of symbols derives, its first terminals and its nullable mark allow. -/
theorem ofSymbols_complete {xs : List Symbol} {w : List Kind} {ps : List Nat}
    (parses : g.Parses xs w ps) :
    (w = [] → (ofSymbols (ofGrammar g) xs).nullable = true) ∧
      ∀ k v, w = k :: v → (ofSymbols (ofGrammar g) xs).terminals.mem k.index = true := by
  induction parses with
  | nil =>
    refine ⟨fun _ => rfl, ?_⟩
    rintro k v ⟨⟩
  | terminal k rest ih =>
    constructor
    · rintro ⟨⟩
    · rintro k v ⟨⟩
      simp [ofSymbols]
  | @nonterminal p production xs v w ps qs rule own rest ihOwn ih =>
    obtain ⟨f, here, le⟩ := ofSymbols_le rule
    unfold ofSymbols
    rw [here]
    dsimp only
    cases v with
    | nil =>
      rw [if_pos (le.2 (ihOwn.1 rfl)), List.nil_append]
      refine ⟨ih.1, ?_⟩
      intro k v is
      rw [IndexSet.mem_union, ih.2 k v is, Bool.or_true]
    | cons k v =>
      have first := le.1 k.index (ihOwn.2 k v rfl)
      refine ⟨fun empty => by simp at empty, ?_⟩
      rintro k' v' ⟨⟩
      split
      · rw [IndexSet.mem_union, first, Bool.true_or]
      · exact first

end First

namespace Grammar

variable {g : Grammar}

/-- A usable grammar has usable terminals. -/
theorem isUsable_of_validate (valid : g.validate = .ok ()) {p : Production}
    (member : p ∈ g.productions.toList) {k : Kind} (inside : .terminal k ∈ p.rhs) :
    isUsable k = true := by
  unfold validate at valid
  by_cases empty : g.productions.isEmpty
  · simp [empty, throw, throwThe, MonadExceptOf.throw, bind, Except.bind] at valid
  · cases bad : g.terminals.find? fun k => !isUsable k with
    | some k =>
      simp [empty, bad, throw, throwThe, MonadExceptOf.throw, bind, Except.bind] at valid
    | none =>
      have listed : k ∈ g.terminals :=
        List.mem_flatMap.2 ⟨p, member, List.mem_filterMap.2 ⟨_, inside, rfl⟩⟩
      simpa using List.find?_eq_none.1 bad k listed

theorem hasTerminals_of_validate (valid : g.validate = .ok ()) : g.HasTerminals := by
  intro p member k inside
  have usable := isUsable_of_validate valid member inside
  unfold isUsable at usable
  simp only [Bool.and_eq_true] at usable
  exact usable.1.1

/-- Words of the language have no end of input in them. -/
theorem Parses.isUsable {xs : List Symbol} {w : List Kind} {ps : List Nat}
    (valid : g.validate = .ok ()) (parses : g.Parses xs w ps)
    (usable : ∀ k, .terminal k ∈ xs → isUsable k = true) : ∀ k ∈ w, isUsable k = true := by
  induction parses with
  | nil => simp
  | terminal k rest ih =>
    intro k' member
    rcases List.mem_cons.mp member with rfl | member
    · exact usable k' (.head _)
    · exact ih (fun k inside => usable k (.tail _ inside)) k' member
  | nonterminal rule own rest ihOwn ih =>
    intro k member
    have inside := Array.mem_toList_iff.2 (Array.mem_of_getElem? rule.1)
    rcases List.mem_append.mp member with member | member
    · exact ihOwn (fun k here => isUsable_of_validate valid inside here) k member
    · exact ih (fun k here => usable k (.tail _ here)) k member

end Grammar

end ShaderTree
