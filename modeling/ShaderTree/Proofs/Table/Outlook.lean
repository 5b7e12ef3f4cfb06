import ShaderTree.Proofs.Table.Conflicts
import ShaderTree.Proofs.Table.EndOfInput
import ShaderTree.Proofs.Table.Solitary

/-! On which terminals the productions of a grammar are reduced, as far as that can be told from the
productions. A terminal can be missing where it could be shifted as well, or where the production is
complete in one of several states. Tables of such terminals need not be exact. -/
namespace ShaderTree

open Bits
open Relation (ReflTransGen)

namespace Grammar

/-- A nonterminal stands at the end of a production for another. -/
def Ends (g : Grammar) (n m : Nat) : Prop :=
  ∃ p production, g.IsRule p production ∧ production.lhs = m ∧
    production.rhs.getLast? = some (.nonterminal n)

/-- None of some productions start in a state. -/
def Apart (g : Grammar) (rivals : List Nat) (state : Nat) : Prop :=
  ∀ q ∈ rivals, ¬ g.Holds state ⟨q, 0⟩

/-- No state has the item in front of the last symbol of a production together with the start of
another. -/
def Excludes (g : Grammar) (p q : Nat) : Prop :=
  ∀ d s, (g.rhs p).length = d + 1 → g.Holds s ⟨p, d⟩ → ¬ g.Holds s ⟨q, 0⟩

variable {g : Grammar} {p d : Nat} {production : Production} {x : Symbol}

theorem getLast?_of_isRule (rule : g.IsRule p production) (length : (g.rhs p).length = d + 1)
    (last : (g.rhs p)[d]? = some x) : production.rhs.getLast? = some x := by
  rw [rhs_of_isRule rule] at length last
  rw [List.getLast?_eq_getElem?, length, Nat.add_sub_cancel, last]

end Grammar

namespace Table

variable {g : Grammar} {t : Table} {s p : Nat} {k : Kind}

theorem looks_of_reduce {s p : Nat} (built : t.BuiltFrom g) (action : t.action s k = .reduce p) :
    g.Looks s ⟨p, (g.rhs p).length⟩ k.index := by
  obtain ⟨_, d, looks, complete⟩ := completes_of_reduce built action
  have length := Grammar.dot_eq_length looks.holds complete
  dsimp only at length
  rwa [← length]

/-- A production that is complete alone, and wins over every shift, is reduced. -/
theorem action_eq_reduce_of_alone {d : Nat}
    (built : t.BuiltFrom g) (looks : g.Looks s ⟨p, d⟩ k.index) (complete : (g.rhs p).length ≤ d)
    (other : p ≠ g.startRule) (alone : ∀ j, g.Holds s j → g.IsComplete j → j.production = p)
    (wins : ∀ target, g.Leads s (.terminal k) target → g.Above p k ∨ g.Level p k .left) :
    t.action s k = .reduce p := by
  obtain ⟨state, known⟩ := Grammar.exists_of_holds looks.holds
  have only {q : Nat} (completes : g.Completes s k q) : q = p := by
    obtain ⟨_, e, looks', complete'⟩ := completes
    exact alone _ looks'.holds complete'
  have offered : .reduce p ∈ g.offers s k :=
    (Grammar.reduce_mem_offers built.valid).2 ⟨other, d, looks, complete⟩
  have settled := settled_action built known (Grammar.isTerminal_of_looks built.valid looks)
    fun q target leads completes tie => by
      obtain rfl := only completes
      obtain ⟨a, b, ofP, ofK, same, nonassoc⟩ := tie
      rcases wins target leads with ⟨a', b', ofP', ofK', less⟩ | ⟨a', b', ofP', ofK', _, left⟩
      · obtain rfl := Option.some.inj (ofP.symm.trans ofP')
        obtain rfl := Option.some.inj (ofK.symm.trans ofK')
        omega
      · obtain rfl := Option.some.inj (ofK.symm.trans ofK')
        cases nonassoc.symm.trans left
  cases action : t.action s k with
  | error =>
    rw [action] at settled
    rw [settled.2] at offered
    cases offered
  | shift target =>
    rw [action] at settled
    obtain ⟨shift, losers⟩ := settled
    obtain ⟨_, is, loses⟩ := losers _ offered
    obtain rfl := Action.reduce.inj is
    obtain ⟨a, b, ofP, ofP', less⟩ :=
      Grammar.looser_of_shift loses (wins target (Grammar.shiftOn_eq_shift.1 shift))
    obtain rfl := Option.some.inj (ofP.symm.trans ofP')
    exact absurd less (Nat.lt_irrefl _)
  | reduce q =>
    rw [action] at settled
    rw [only ((Grammar.reduce_mem_offers built.valid).1 settled.1)]
  | accept =>
    rw [action] at settled
    cases settled.2.2 _ offered

end Table

/-- What the productions of a grammar are reduced on, by their numbers and as bits. -/
structure Outlook where
  /-- The productions that compete with those for a nonterminal. -/
  rivals : Nat → List Nat
  /-- The terminals that a production may be reduced on. -/
  allowed : Nat → Nat
  /-- The terminals that can follow a production and that it may not be reduced on. -/
  contested : Nat → Nat
  /-- The productions that come to rest in a way of their own. -/
  excepted : List Nat

namespace Outlook

variable (o : Outlook) (g : Grammar)

/-- Wherever the production `p` is reduced on a terminal, so is the production `q` in its only state. -/
def Follows (p : Nat) (production : Production) (q : Nat) (other : Production) : Prop :=
  g.Lone [] q ∧ (p = q ∨ (∃ e, g.EndsOnly e production.lhs ∧
    (other.lhs = e ∨ g.EndsOnly e other.lhs)) ∧ disjoint (o.allowed p) (o.contested q) = true)

/-- The tables say the truth, and what they say is enough. -/
structure Sound (t : Table) : Prop where
  allowed : ∀ {s p : Nat} {k : Kind}, t.action s k = .reduce p →
    (o.allowed p).testBit k.index = true
  lone : ∀ {p : Nat} {production : Production} {b : Nat} {k : Kind}, g.IsRule p production →
    g.Expects b production.lhs k.index → (o.contested p).testBit k.index = false →
      g.Lone (o.rivals production.lhs) p
  wins : ∀ {s p target : Nat} {production : Production} {k : Kind}, g.IsRule p production →
    g.Looks s ⟨p, (g.rhs p).length⟩ k.index → (o.contested p).testBit k.index = false →
      g.Leads s (.terminal k) target → g.Above p k ∨ g.Level p k .left
  pair : ∀ {p q y : Nat} {production other : Production}, g.IsRule p production → g.IsRule q other →
    other.rhs.getLast? = some (.nonterminal y) → ReflTransGen g.Ends production.lhs y →
      disjoint (o.allowed q) (o.contested p) = true ∨ o.Follows g p production q other
  heir : ∀ {p x z : Nat} {production : Production}, g.IsRule p production →
    production.rhs.getLast? = some (.nonterminal x) → z ∈ o.rivals x →
      g.Excludes p z ∨ production.rhs.length = 1 ∧ z ∈ o.rivals production.lhs
  rest : ∀ {q x z : Nat} {other : Production}, g.IsRule q other →
    other.rhs.getLast? = some (.nonterminal x) → z ∈ o.rivals x →
      g.Excludes q z ∨ q ∈ o.excepted ∨ ∀ p production, g.IsRule p production →
        production.lhs = x → o.Follows g p production q other
  empty : ∀ {p : Nat} {production : Production}, g.IsRule p production → production.rhs = [] →
    ∀ other ∈ g.productions.toList, .nonterminal production.lhs ∉ other.rhs

namespace Sound

variable {o g} {t : Table}

/-- A production without symbols is not reduced behind a symbol. -/
theorem rhs_ne_nil (sound : o.Sound g t) {q n b : Nat} {other : Production} {x : Symbol}
    (rule : g.IsRule q other) (holds : g.Holds n ⟨q, 0⟩) (leads : g.Leads b x n) : other.rhs ≠ [] := by
  intro none
  obtain ⟨⟨p, d⟩, front, next⟩ := holds.exists_front rule
  have inside := List.mem_of_getElem? next
  cases known : g.productions[p]? with
  | some production =>
    rw [Grammar.rhs, known] at inside
    exact sound.empty rule none production (Array.mem_toList_iff.2 (Array.mem_of_getElem? known)) inside
  | none =>
    have isStart : p = g.startRule :=
      Nat.le_antisymm (Grammar.isItem_of_holds front).1 (Array.getElem?_eq_none_iff.1 known)
    have first : d = 0 := by
      have bound := (List.getElem?_eq_some_iff.1 next).1
      simpa [Grammar.rhs, known] using bound
    subst isStart first
    exact leads.not_startItem front

variable (built : t.BuiltFrom g) (sound : o.Sound g t) {p q s n b c : Nat}
  {production other : Production} {k l : Kind}

include sound built

theorem reduces (rule : g.IsRule p production) (looks : g.Looks s ⟨p, (g.rhs p).length⟩ k.index)
    (alone : ∀ j, g.Holds s j → g.IsComplete j → j.production = p)
    (uncontested : (o.contested p).testBit k.index = false) : t.action s k = .reduce p :=
  Table.action_eq_reduce_of_alone built looks (Nat.le_refl _) (Grammar.ne_startRule_of_isRule rule) alone
    fun _ => sound.wins rule looks uncontested

theorem reduces_of_follows (follows : o.Follows g p production q other) (rule : g.IsRule p production)
    (rule' : g.IsRule q other) (action : t.action s k = .reduce p)
    (behind : g.Looks n ⟨q, (g.rhs q).length⟩ c) : t.action n k = .reduce q := by
  have looks := Table.looks_of_reduce built action
  obtain ⟨lone, rfl | ⟨⟨e, ends, below⟩, apart⟩⟩ := follows
  · rw [← lone.unique_of_looks looks behind]
    exact action
  · obtain ⟨base, first⟩ := looks.exists_start
    obtain ⟨base', expects⟩ := Grammar.Expects.of_endsOnly ⟨p, _, rule, rfl, first⟩ ends
    obtain ⟨last, first⟩ : ∃ last, g.Looks last ⟨q, 0⟩ k.index := by
      rcases below with lhs | ends'
      · exact ⟨base', expects.looks rule' lhs⟩
      · obtain ⟨_, origin⟩ := behind.exists_start
        obtain ⟨j, _, next⟩ := origin.holds.exists_front rule'
        obtain ⟨length, outer, rule'', lhs⟩ := ends' j next
        obtain ⟨target, along, _⟩ := (expects.looks rule'' lhs).exists_along (d := j.dot)
          (by rw [length]; exact Nat.le_succ _)
        exact ⟨target, (along.expects length next rule' rfl).looks rule' rfl⟩
    obtain ⟨n', there, _⟩ := first.exists_along (Nat.le_refl _)
    obtain rfl := lone.unique_of_looks there behind
    refine reduces built sound rule' there (fun j inside complete => ?_) ?_
    · exact (lone.alone there.holds inside complete).resolve_right fun rival => by simp at rival
    · rw [Bool.eq_false_iff]
      intro contested
      rw [not_disjoint (sound.allowed action) contested] at apart
      cases apart

end Sound

/-! What the terminals that can follow say, and tests of it -/

/-- Terminals as bits. -/
def select (test : Kind → Bool) : Nat := mark Kind.index test Kind.terminals

theorem testBit_select {test : Kind → Bool} {k : Kind} (terminal : k.isTerminal = true) :
    (select test).testBit k.index = test k := by
  rw [Bool.eq_iff_iff, select, testBit_mark]
  constructor
  · rintro ⟨l, _, passes, same⟩
    rwa [← Kind.index_injective same]
  · exact fun passes => ⟨k, Kind.mem_terminals.2 terminal, passes, rfl⟩

section

variable (m : Meetings) (a : Ahead)

/-- The nonterminals at the end of productions. -/
def lasts (g : Grammar) : List (Nat × Production × Nat) :=
  g.productions.toList.zipIdx.filterMap fun (r, p) => match r.rhs.getLast? with
    | some (.nonterminal n) => some (p, r, n)
    | _ => none

/-- Where the production is complete the terminal cannot be shifted, or loses. -/
def isWon (p s : Nat) (k : Kind) : Bool :=
  disjoint s (m.inFront (.terminal k)) || decide (g.Above p k ∨ g.Level p k .left)

/-- Terminals of a set that are shifted where the production is complete. Where it stands alone there
are none. -/
def shifted (i : Item) (follow s : Nat) : Nat :=
  bif Nat.beq s (1 <<< m.place i) then 0
  else select fun k => has follow k.index && !isWon g m i.production s k

/-- Terminals that can follow a production and that may not be reduced on: all, if it is not lone, or
those that are shifted. -/
def contestedIn (rivals : Nat → List Nat) (p : Nat) : Nat :=
  match g.productions[p]? with
  | none => 0
  | some r =>
    withNow (a.followOf r.lhs) fun follow => bif m.isLone g (rivals r.lhs) p r then
      withNow (m.setOf g ⟨p, r.rhs.length⟩) (shifted g m ⟨p, r.rhs.length⟩ follow)
    else follow

def ofGrammar (rivals : Nat → List Nat) (allowed : Nat → Production → Nat)
    (excepted : List Nat) : Outlook where
  rivals
  allowed p := match g.productions[p]? with
    | none => 0
    | some r => allowed p r
  contested := contestedIn g m a rivals
  excepted

/-- The nonterminals that can end with a nonterminal, itself included. -/
def ending (n : Nat) : Nat :=
  saturate (foldNow (fun s (_, r, y) => bif has s y then s ||| 1 <<< r.lhs else s) (lasts g))
    g.nonterminals.size (1 <<< n)

/-- Nothing else can end with the nonterminal. -/
def isEnding (n s : Nat) : Bool :=
  has s n && (lasts g).all fun (_, r, y) => !has s y || has s r.lhs

/-- A nonterminal stands only at the end of productions of another. -/
def isHome (e n : Nat) : Bool :=
  g.rules.all fun r => r.rhs.dropLast.all (· ≠ .nonterminal n) &&
    (r.rhs.getLast? ≠ some (.nonterminal n) || Nat.beq r.lhs e)

/-- The nonterminal that a nonterminal always ends, if there is one. -/
def home? (n : Nat) : Option Nat :=
  ((lasts g).find? fun (_, r, y) => Nat.beq y n && isHome g r.lhs n).map fun (_, r, _) => r.lhs

def follows (p : Nat) (r : Production) (q : Nat) (r' : Production) : Bool :=
  (Nat.beq p q || (match home? g r.lhs with
    | none => false
    | some e => (Nat.beq r'.lhs e || decide (home? g r'.lhs = some e)) &&
      disjoint (o.allowed p) (o.contested q))) && m.isLone g [] q r'

/-- What the production is contested on, no production above it is reduced on, or it follows. -/
def checkContested (p : Nat) (r : Production) : Bool :=
  withNow (o.contested p) fun c => Nat.beq c 0 || withNow (ending g r.lhs) fun s =>
    isEnding g r.lhs s && (lasts g).all fun (q, r', y) =>
      !has s y || disjoint (o.allowed q) c || o.follows g m p r q r'

/-- A rival of the productions at the end of a production does not start in front of them, or also
competes with the production itself; and where the latter comes to rest, the first is true, or it
does not. -/
def checkRival (q : Nat) (r : Production) (x z : Nat) : Bool :=
  !(m.setOf g ⟨q, r.rhs.length - 1⟩).testBit (m.place ⟨z, 0⟩) ||
    Nat.beq r.rhs.length 1 && (o.rivals r.lhs).contains z && (o.excepted.contains q ||
      g.productions.toList.zipIdx.all fun (r', p) => !Nat.beq r'.lhs x || o.follows g m p r' q r)

/-- What is checked of a production. One without symbols stands nowhere. -/
def checkProduction : Production × Nat → Bool
  | (r, p) => o.checkContested g m p r && (!r.rhs.isEmpty ||
    g.productions.toList.all fun r' => r'.rhs.all (· ≠ .nonterminal r.lhs))

/-- What is checked of a nonterminal at the end of a production. -/
def checkLast : Nat × Production × Nat → Bool
  | (q, r, x) => (o.rivals x).all fun z => o.checkRival g m q r x z

def Checks : Bool :=
  g.productions.toList.zipIdx.all (o.checkProduction g m) && (lasts g).all (o.checkLast g m)

end

variable {o g} {m : Meetings} {a : Ahead} {p q n y e : Nat} {r r' production : Production}

theorem mem_lasts : (p, r, y) ∈ lasts g ↔
    g.productions[p]? = some r ∧ r.rhs.getLast? = some (.nonterminal y) := by
  unfold lasts
  simp only [List.mem_filterMap, Prod.exists, List.mem_zipIdx_iff_getElem?, Array.getElem?_toList]
  constructor
  · rintro ⟨r', p', known, is⟩
    split at is
    · rename_i n last
      obtain ⟨rfl, rfl, rfl⟩ := by simpa using is
      exact ⟨known, last⟩
    · cases is
  · rintro ⟨known, last⟩
    exact ⟨r, p, known, by rw [last]⟩

theorem testBit_of_isEnding {s : Nat} (checked : isEnding g n s = true)
    (ends : ReflTransGen g.Ends n y) : s.testBit y = true := by
  obtain ⟨own, closed⟩ := Bool.and_eq_true_iff.1 checked
  simp only [has_eq] at own closed
  induction ends with
  | refl => exact own
  | tail _ step ih =>
    obtain ⟨p, production, rule, rfl, last⟩ := step
    have each := List.all_eq_true.1 closed _ (mem_lasts.2 ⟨rule.1, last⟩)
    dsimp only at each
    rwa [ih, Bool.not_true, Bool.false_or] at each

/-- What does not stand in front of the last symbol is the last symbol. -/
theorem length_of_not_mem_dropLast {xs : List Symbol} {x : Symbol} {d : Nat} (is : xs[d]? = some x)
    (front : x ∉ xs.dropLast) : xs.length = d + 1 := by
  have inside := (List.getElem?_eq_some_iff.1 is).1
  by_contra other
  refine front (List.mem_of_getElem? (i := d) ?_)
  rw [List.getElem?_dropLast, if_pos (by omega), is]

theorem endsOnly_of_isHome (bound : e < g.nonterminals.size) (home : isHome g e n = true) :
    g.EndsOnly e n := by
  have each : ∀ r ∈ g.rules, .nonterminal n ∉ r.rhs.dropLast ∧
      (r.rhs.getLast? = some (.nonterminal n) → r.lhs = e) := by
    intro r member
    obtain ⟨front, last⟩ := Bool.and_eq_true_iff.1 (List.all_eq_true.1 home r member)
    refine ⟨fun inside => ?_, by simpa [imp_iff_not_or] using last⟩
    simpa using List.all_eq_true.1 front _ inside
  intro i next
  cases known : g.productions[i.production]? with
  | none =>
    rw [Grammar.next?, Grammar.rhs, known] at next
    have isStart := List.mem_singleton.1 (List.mem_of_getElem? next)
    have own := (each _ (List.mem_append_right _ (.head _))).2
    rw [isStart] at own
    exact absurd (own rfl) (Nat.ne_of_gt bound)
  | some production =>
    obtain ⟨front, last⟩ := each production
      (List.mem_append_left _ (Array.mem_toList_iff.2 (Array.mem_of_getElem? known)))
    rw [Grammar.next?, Grammar.rhs, known] at next
    have length := length_of_not_mem_dropLast next front
    rw [List.getLast?_eq_getElem?, length, Nat.add_sub_cancel] at last
    refine ⟨by rwa [Grammar.rhs, known], production, ⟨known, ?_⟩, last next⟩
    exact (last next) ▸ bound

theorem endsOnly_of_home? (declared : g.Declared) (home : home? g n = some e) : g.EndsOnly e n := by
  unfold home? at home
  obtain ⟨⟨p, r, y⟩, found, rfl⟩ := Option.map_eq_some_iff.1 home
  have test := List.find?_some found
  have member := (mem_lasts.1 (List.mem_of_find?_eq_some found)).1
  exact endsOnly_of_isHome (declared.isRule member).2 (Bool.and_eq_true_iff.1 test).2

/-- What is checked of each production. -/
theorem production_of_checks (tests : o.Checks g m = true) (rule : g.IsRule p r) :
    o.checkContested g m p r = true ∧
      (r.rhs = [] → ∀ other ∈ g.productions.toList, .nonterminal r.lhs ∉ other.rhs) := by
  obtain ⟨pairs, empty⟩ := Bool.and_eq_true_iff.1
    (List.all_eq_true.1 (Bool.and_eq_true_iff.1 tests).1 (r, p) rule.mem_zipIdx)
  refine ⟨pairs, fun none other member inside => ?_⟩
  rw [none, List.isEmpty_nil, Bool.not_true, Bool.false_or] at empty
  have apart := List.all_eq_true.1 (List.all_eq_true.1 empty other member) _ inside
  simp at apart

section

variable (checks : m.Checks a g = true) (declared : g.Declared)

include checks declared

theorem follows_sound (rule : g.IsRule q r') (follows : o.follows g m p r q r' = true) :
    o.Follows g p r q r' := by
  unfold Outlook.follows at follows
  obtain ⟨near, lone⟩ := Bool.and_eq_true_iff.1 follows
  refine ⟨Meetings.lone_of_isLone checks declared rule lone, ?_⟩
  rcases Bool.or_eq_true_iff.1 near with same | near
  · exact .inl (Nat.eq_of_beq_eq_true same)
  · split at near
    · cases near
    · rename_i e home
      obtain ⟨below, apart⟩ := Bool.and_eq_true_iff.1 near
      refine .inr ⟨⟨e, endsOnly_of_home? declared home, ?_⟩, apart⟩
      rcases Bool.or_eq_true_iff.1 below with lhs | home'
      · exact .inl (Nat.eq_of_beq_eq_true lhs)
      · exact .inr (endsOnly_of_home? declared (of_decide_eq_true home'))

omit declared in
theorem excludes_of_setOf {z : Nat}
    (apart : (m.setOf g ⟨q, (g.rhs q).length - 1⟩).testBit (m.place ⟨z, 0⟩) = false) :
    g.Excludes q z := by
  intro d s length holds holds'
  have meet := ((Meetings.gathers checks).holds holds holds').2.2
  rw [length, Nat.add_sub_cancel] at apart
  rw [apart] at meet
  cases meet

/-- A rival in front of the last symbol competes with the production, or is known not to matter. -/
theorem rival_of_checks (tests : o.Checks g m = true) {x z : Nat} (rule : g.IsRule q r')
    (last : r'.rhs.getLast? = some (.nonterminal x)) (member : z ∈ o.rivals x) :
    g.Excludes q z ∨ (r'.rhs.length = 1 ∧ z ∈ o.rivals r'.lhs) ∧ (q ∈ o.excepted ∨
      ∀ p r, g.IsRule p r → r.lhs = x → o.Follows g p r q r') := by
  have test := List.all_eq_true.1 (List.all_eq_true.1 (Bool.and_eq_true_iff.1 tests).2 _
    (mem_lasts.2 ⟨rule.1, last⟩)) z member
  unfold checkRival at test
  rcases Bool.or_eq_true_iff.1 test with apart | heir
  · rw [Bool.not_eq_true'] at apart
    refine .inl (excludes_of_setOf checks ?_)
    rwa [Grammar.rhs_of_isRule rule]
  · simp only [Bool.and_eq_true, Nat.beq_eq, List.contains_iff_mem, Bool.or_eq_true] at heir
    refine .inr ⟨heir.1, heir.2.imp_right fun all p r rule' lhs => ?_⟩
    have other := List.all_eq_true.1 all (r, p) rule'.mem_zipIdx
    rw [lhs, Nat.beq_refl, Bool.not_true, Bool.false_or] at other
    exact follows_sound checks declared rule other

/-- Where the production is contested nothing above it is reduced, or only what follows it. -/
theorem pair_of_checks (tests : o.Checks g m = true) (rule : g.IsRule p r) (rule' : g.IsRule q r')
    (last : r'.rhs.getLast? = some (.nonterminal y)) (endings : ReflTransGen g.Ends r.lhs y) :
    disjoint (o.allowed q) (o.contested p) = true ∨ o.Follows g p r q r' := by
  have test := (production_of_checks tests rule).1
  simp only [checkContested, withNow_eq, Bool.or_eq_true, Nat.beq_eq] at test
  rcases test with none | all
  · refine .inl ?_
    rw [disjoint, none, Nat.and_zero]
    rfl
  · obtain ⟨isEnding, all⟩ := Bool.and_eq_true_iff.1 all
    have pair := List.all_eq_true.1 all _ (mem_lasts.2 ⟨rule'.1, last⟩)
    dsimp only at pair
    rw [has_eq, testBit_of_isEnding isEnding endings, Bool.not_true, Bool.false_or, Bool.or_eq_true] at pair
    exact pair.imp_right (follows_sound checks declared rule')

end

variable {rivals : Nat → List Nat} {allowed : Nat → Production → Nat} {excepted : List Nat}
  {t : Table} {s d : Nat} {k : Kind}

theorem isLone_of_not_contested (rule : g.IsRule p r) (terminal : k.isTerminal = true)
    (follows : (a.followOf r.lhs).testBit k.index = true)
    (uncontested : (contestedIn g m a rivals p).testBit k.index = false) :
    m.isLone g (rivals r.lhs) p r = true ∧
      (m.setOf g ⟨p, r.rhs.length⟩ = 1 <<< m.place ⟨p, r.rhs.length⟩ ∨
        isWon g m p (m.setOf g ⟨p, r.rhs.length⟩) k = true) := by
  rw [contestedIn, rule.1] at uncontested
  dsimp only at uncontested
  rw [withNow_eq] at uncontested
  cases lone : m.isLone g (rivals r.lhs) p r with
  | false =>
    rw [lone, cond_false, follows] at uncontested
    cases uncontested
  | true =>
    rw [lone, cond_true, withNow_eq, shifted] at uncontested
    refine ⟨rfl, ?_⟩
    cases alone : Nat.beq (m.setOf g ⟨p, r.rhs.length⟩) (1 <<< m.place ⟨p, r.rhs.length⟩) with
    | true => exact .inl (Nat.eq_of_beq_eq_true alone)
    | false =>
      rw [alone, cond_false, testBit_select terminal, has_eq, follows] at uncontested
      exact .inr (by simpa using uncontested)

theorem lhs_of_isRule (rule : g.IsRule p r) : g.lhs p = r.lhs := by
  rw [Grammar.lhs, rule.1]

theorem follow_of_looks (built : t.BuiltFrom g) (covers : a.Covers g = true) (rule : g.IsRule p r)
    (looks : g.Looks s ⟨p, d⟩ k.index) :
    k.isTerminal = true ∧ (a.followOf r.lhs).testBit k.index = true := by
  have terminal := Grammar.isTerminal_of_looks built.valid looks
  have follows := Ahead.follow_of_looks covers looks (of_decide_eq_true terminal)
  rw [lhs_of_isRule rule] at follows
  exact ⟨terminal, follows⟩

/-- Where a production may be reduced nothing is shifted that does not win against it. -/
theorem wins_of_looks (built : t.BuiltFrom g) (checks : m.Checks a g = true) (covers : a.Covers g = true)
    {target : Nat} (rule : g.IsRule p r) (looks : g.Looks s ⟨p, (g.rhs p).length⟩ k.index)
    (uncontested : (contestedIn g m a rivals p).testBit k.index = false)
    (leads : g.Leads s (.terminal k) target) : g.Above p k ∨ g.Level p k .left := by
  obtain ⟨terminal, follows⟩ := follow_of_looks built covers rule looks
  obtain ⟨j, holds, next⟩ := leads.exists_next
  obtain ⟨own, item, meet⟩ := (Meetings.gathers checks).holds looks.holds holds
  rw [Grammar.rhs_of_isRule rule] at own meet
  rcases (isLone_of_not_contested rule terminal follows uncontested).2 with only | won
  · rw [only, testBit_one_shiftLeft, decide_eq_true_iff] at meet
    obtain rfl := Meetings.eq_of_place (Meetings.dot_lt_stride checks own)
      (Meetings.dot_lt_stride checks item) meet
    simp [Grammar.next?, Grammar.rhs_of_isRule rule] at next
  · rw [isWon, not_disjoint meet (Meetings.check_of_next checks item next).1, Bool.false_or] at won
    exact of_decide_eq_true won

/-- What the terminals that can follow say is sound, if the tests find it enough. -/
theorem sound_of_checks (built : t.BuiltFrom g) (checks : m.Checks a g = true)
    (declared : g.Declared) (covers : a.Covers g = true)
    (reduces : ∀ {s p : Nat} {r : Production} {k : Kind}, g.IsRule p r → t.action s k = .reduce p →
      (allowed p r).testBit k.index = true)
    (tests : (ofGrammar g m a rivals allowed excepted).Checks g m = true) :
    (ofGrammar g m a rivals allowed excepted).Sound g t where
  allowed := by
    intro s p k action
    have looks := Table.looks_of_reduce built action
    obtain ⟨_, origin⟩ := looks.exists_start
    obtain ⟨r, rule⟩ := Grammar.isRule_of_holds origin.holds (Table.completes_of_reduce built action).1
    change (match g.productions[p]? with | none => 0 | some r => allowed p r).testBit _ = true
    rw [rule.1]
    exact reduces rule action
  lone := by
    intro p r b k rule expects uncontested
    obtain ⟨terminal, follows⟩ := follow_of_looks built covers rule (expects.looks rule rfl)
    exact Meetings.lone_of_isLone checks declared rule
      (isLone_of_not_contested rule terminal follows uncontested).1
  wins := wins_of_looks built checks covers
  pair := pair_of_checks checks declared tests
  heir rule last member := (rival_of_checks checks declared tests rule last member).imp_right And.left
  rest rule last member := (rival_of_checks checks declared tests rule last member).imp_right And.right
  empty rule := (production_of_checks tests rule).2

end Outlook

end ShaderTree
