import ShaderTree.Proofs.Parser.Rebuild
import ShaderTree.Proofs.Table.Landing
import ShaderTree.Proofs.Table.Outlook

/-! Steady tables. Where the reductions on one terminal come to rest and another terminal is reduced on,
this one was looked ahead for all along: it can follow the production that is reduced on it, so it can
follow the nonterminal that this one ends with, and in turn every production that was reduced. Two things
can be in the way: the production is complete in several states, or the terminal could be shifted as well
and wins. Tables of what the productions are reduced on show that neither happens. -/
namespace ShaderTree

open Bits
open Relation (ReflTransGen)
open Token (Label)

namespace Grammar

/-- In a state there are no rivals to the productions for a nonterminal, and in another state like it a
terminal can follow the nonterminal. -/
def Backed (g : Grammar) (rivals : Nat → List Nat) (c state n : Nat) : Prop :=
  g.Apart (rivals n) state ∧ ∃ other, g.Expects other n c ∧ g.Apart (rivals n) other

variable {g : Grammar} {rivals : Nat → List Nat} {p d c b b' s n : Nat} {production : Production}
  {x : Symbol}

/-- A terminal that is known to follow a nonterminal follows its productions where they are complete, and
nothing else is complete there. -/
theorem Backed.step (backed : g.Backed rivals c b production.lhs) (rule : g.IsRule p production)
    (lone : g.Lone (rivals production.lhs) p) (length : (g.rhs p).length = d + 1)
    (last : (g.rhs p)[d]? = some x) (holds : g.Holds b' ⟨p, d⟩) (leads : g.Leads b' x s)
    (unit : d = 0 → b' = b) :
    g.Looks s ⟨p, d + 1⟩ c ∧ (∀ j, g.Holds s j → g.IsComplete j → j.production = p) ∧
      ∃ other, g.Looks other ⟨p, d⟩ c ∧
        (d = 0 → g.Apart (rivals production.lhs) b' ∧ g.Apart (rivals production.lhs) other) := by
  obtain ⟨apart, start, expects, apart'⟩ := backed
  obtain ⟨other, looks, same⟩ := (expects.looks rule rfl).exists_along (d := d)
    (by rw [length]; exact Nat.le_succ d)
  obtain ⟨s', leads'⟩ := exists_leads looks.holds last
  have both : d = 0 → g.Apart (rivals production.lhs) b' ∧ g.Apart (rivals production.lhs) other :=
    fun none => ⟨by rw [unit none]; exact apart, by rw [same none]; exact apart'⟩
  obtain rfl := lone.unique length last holds looks.holds leads leads' fun none q member =>
    ⟨(both none).1 q member, (both none).2 q member⟩
  have behind : g.Looks s ⟨p, d + 1⟩ c := looks.pass last leads'
  refine ⟨behind, fun j inside complete => ?_, other, looks, both⟩
  rcases lone.alone (by rw [length]; exact behind.holds) inside complete with own | ⟨one, q, rival, rfl⟩
  · exact own
  · have none : d = 0 := Nat.succ.inj (length.symm.trans one)
    exact absurd (leads.before inside).1 ((both none).1 q rival)

end Grammar

namespace Table

variable {g : Grammar} {t : Table} {base next : Nat} {k : Kind} {ls : List Label} {c : Cell}
  {below : List Cell}

/-- On top of what is built there is a symbol, which the table went over. -/
theorem Builds.exists_leads (built : t.BuiltFrom g) (builds : t.Builds base k ls (c :: below)) :
    c.isSymbol = true ∧ ∃ x, g.Leads (Cell.top base below) x c.state := by
  generalize is : c :: below = cells at builds
  cases builds with
  | nil => cases is
  | shift _ _ _ _ action =>
    obtain ⟨rfl, rfl⟩ := List.cons.inj is
    rw [Cell.top_blanks_append]
    exact ⟨rfl, _, leads_of_shift built action⟩
  | reduce _ _ _ _ goto =>
    obtain ⟨rfl, rfl⟩ := List.cons.inj is
    exact ⟨rfl, _, (leads_of_goto built goto).2⟩

/-- Where symbols are taken off, the table went over the last of them; and if it is the only one, it did
so from the state that is left. -/
theorem Builds.exists_last {n : Nat} {cells popped : List Cell} (built : t.BuiltFrom g)
    (builds : t.Builds base k ls cells) (positive : n ≠ 0) (pops : Cell.pop n cells = some (popped, below)) :
    ∃ c under x, cells = c :: under ∧ g.Leads (Cell.top base under) x c.state ∧
      (n = 1 → Cell.top base under = Cell.top base below) := by
  obtain ⟨n, rfl⟩ := Nat.exists_eq_add_one_of_ne_zero positive
  cases cells with
  | nil => cases pops
  | cons c under =>
    obtain ⟨role, x, leads⟩ := builds.exists_leads built
    refine ⟨c, under, x, rfl, leads, fun one => ?_⟩
    rw [Cell.pop, role, if_pos rfl, Nat.succ.inj one, Cell.pop_zero] at pops
    obtain ⟨_, rfl⟩ := Prod.mk.inj (Option.some.inj pops)
    rfl

/-- The production reduced on one terminal where the reductions on another come to rest. -/
structure Resting (t : Table) (g : Grammar) (k l : Kind) (q n y : Nat) (other : Production) : Prop where
  rule : g.IsRule q other
  last : other.rhs.getLast? = some (.nonterminal y)
  reduces : t.action n l = .reduce q
  rests : t.Rests n k

theorem Resting.not_reduces {l : Kind} {q n y : Nat} {other : Production} (built : t.BuiltFrom g)
    (resting : t.Resting g k l q n y other) : t.action n k ≠ .reduce q := by
  intro action
  have none := resting.rests q _ action (reductions_getElem? built resting.rule.1)
  have last := resting.last
  rw [List.eq_nil_of_length_eq_zero none] at last
  cases last

end Table

namespace Outlook.Sound

variable {o : Outlook} {g : Grammar} {t : Table} (built : t.BuiltFrom g) (sound : o.Sound g t)
  {p q s n b c : Nat} {production other : Production} {k l : Kind}

include sound built

section

variable {y : Nat} (resting : t.Resting g k l q n y other)

include resting

/-- No production that was reduced on the way to the resting place is contested on the terminal that is
reduced on there. -/
theorem uncontested (rule : g.IsRule p production) (ends : ReflTransGen g.Ends production.lhs y)
    (action : t.action s k = .reduce p) : (o.contested p).testBit l.index = false := by
  rcases sound.pair rule resting.rule resting.last ends with apart | follows
  · rw [Bool.eq_false_iff]
    intro contested
    rw [not_disjoint (sound.allowed resting.reduces) contested] at apart
    cases apart
  · exact absurd (sound.reduces_of_follows built follows rule resting.rule action
      (Table.looks_of_reduce built resting.reduces)) (resting.not_reduces built)

theorem step {b' : Nat} {x : Symbol} (rule : g.IsRule p production)
    (ends : ReflTransGen g.Ends production.lhs y) (backed : g.Backed o.rivals l.index b production.lhs)
    (action : t.action s k = .reduce p) (leads : g.Leads b' x s)
    (unit : production.rhs.length = 1 → b' = b) :
    t.action s l = .reduce p ∧ ∀ m, x = .nonterminal m →
      (∃ q other, g.IsRule q other ∧ other.lhs = m) →
        ReflTransGen g.Ends m y ∧ g.Backed o.rivals l.index b' m := by
  have uncontested := sound.uncontested built resting rule ends action
  obtain ⟨_, _, expects, _⟩ := id backed
  have lone := sound.lone rule expects uncontested
  obtain ⟨d, length⟩ := Nat.exists_eq_add_one_of_ne_zero fun none =>
    lone.nonempty (List.eq_nil_of_length_eq_zero none)
  have complete := (Table.looks_of_reduce built action).holds
  rw [length] at complete
  obtain ⟨holds, last⟩ := leads.before complete
  have size : production.rhs.length = d + 1 := by rw [← Grammar.rhs_of_isRule rule, length]
  obtain ⟨looks, alone, b'', before, both⟩ := backed.step rule lone length last holds leads
    fun none => unit (by rw [size, none])
  rw [← length] at looks
  refine ⟨sound.reduces built rule looks alone uncontested, ?_⟩
  rintro m rfl ⟨_, _, rule', lhs⟩
  have isLast := Grammar.getLast?_of_isRule rule length last
  refine ⟨.head ⟨p, production, rule, rfl, isLast⟩ ends, fun z member => ?_, b'',
    before.expects length last rule' lhs, fun z member => ?_⟩
  · rcases sound.heir rule isLast member with excludes | ⟨one, inherited⟩
    · exact excludes d b' length holds
    · exact (both (Nat.succ.inj (size.symm.trans one))).1 z inherited
  · rcases sound.heir rule isLast member with excludes | ⟨one, inherited⟩
    · exact excludes d b'' length before.holds
    · exact (both (Nat.succ.inj (size.symm.trans one))).2 z inherited

/-- In front of where they come to rest, the reductions on the terminal are all made on the other. -/
theorem builds_of_backed {base : Nat} {ls : List Label} {cells : List Cell}
    (builds : t.Builds base k ls cells) (backed : ∀ c below x, cells = c :: below →
      g.Leads (Cell.top base below) (.nonterminal x) c.state →
      (∃ p production, g.IsRule p production ∧ production.lhs = x) →
        ReflTransGen g.Ends x y ∧ g.Backed o.rivals l.index (Cell.top base below) x) :
    t.Builds base l ls cells := by
  induction builds with
  | nil => exact .nil l
  | shift _ before text between action => exact .shift l before text between action
  | @reduce follow ls cells popped below p next r before action known pops goto ih =>
    obtain ⟨production, found, lhs, length, rhs, _⟩ := Table.reduction_eq built known
    obtain ⟨inside, leads⟩ := Table.leads_of_goto built goto
    rw [lhs] at inside leads
    have rule : g.IsRule p production := ⟨found, inside⟩
    obtain ⟨ends, backed⟩ := backed _ _ _ rfl leads ⟨p, production, rule, rfl⟩
    obtain ⟨_, _, expects, _⟩ := id backed
    have lone := sound.lone rule expects (sound.uncontested built resting rule ends action)
    obtain ⟨c, under, x, rfl, leads', unit⟩ := before.exists_last built
      (fun none => lone.nonempty (List.eq_nil_of_length_eq_zero (by rw [rhs, ← length, none]))) pops
    obtain ⟨action', further⟩ := sound.step built resting rule ends backed action leads'
      fun one => unit (length.trans one)
    refine .reduce (ih resting ?_) action' known pops goto
    intro c' below' m is leads'' some
    obtain ⟨rfl, rfl⟩ := List.cons.inj is
    exact further m (leads'.symbol_unique leads'') some

end

/-- A table is steady if the tables of what its productions are reduced on are sound, and what comes to
rest in a way of its own is backed there. -/
theorem steady (exception : ∀ {k l : Kind} {q n y b p s : Nat} {other production : Production},
    t.Resting g k l q n y other → q ∈ o.excepted → g.Leads b (.nonterminal y) n →
      g.IsRule p production → production.lhs = y → t.action s k = .reduce p →
        (∀ x, production.rhs = [x] → g.Leads b x s) → g.Backed o.rivals l.index b y) : t.Steady := by
  intro base k l ls cells q builds rests action
  cases builds with
  | nil => exact .nil l
  | shift _ before text between shifts => exact .shift l before text between shifts
  | @reduce _ _ cells popped below p next r before reduces known pops goto =>
    obtain ⟨production, found, lhs, length, rhs, _⟩ := Table.reduction_eq built known
    obtain ⟨inside, leads⟩ := Table.leads_of_goto built goto
    rw [lhs] at inside leads
    have rule : g.IsRule p production := ⟨found, inside⟩
    have looks : g.Looks next ⟨q, (g.rhs q).length⟩ l.index := Table.looks_of_reduce built action
    obtain ⟨other, rule'⟩ : ∃ other, g.IsRule q other := by
      obtain ⟨_, origin⟩ := looks.exists_start
      exact Grammar.isRule_of_holds origin.holds (Table.completes_of_reduce built action).1
    cases size : (g.rhs q).length with
    | zero =>
      rw [size] at looks
      rw [Grammar.rhs_of_isRule rule', List.length_eq_zero_iff] at size
      exact absurd size (sound.rhs_ne_nil rule' looks.holds leads)
    | succ d =>
      rw [size] at looks
      obtain ⟨b', x, leads', last, before'⟩ := looks.before
      obtain rfl := leads'.symbol_unique leads
      have isLast := Grammar.getLast?_of_isRule rule' size last
      have resting : t.Resting g k l q next production.lhs other := ⟨rule', isLast, action, rests⟩
      refine sound.builds_of_backed built resting (.reduce before reduces known pops goto) ?_
      intro c under x is leads'' _
      obtain ⟨rfl, rfl⟩ := List.cons.inj is
      obtain rfl := Symbol.nonterminal.inj (leads''.symbol_unique leads)
      refine ⟨.refl, ?_⟩
      by_cases excepted : q ∈ o.excepted
      · refine exception resting excepted leads rule rfl reduces fun x only => ?_
        obtain ⟨c, _, y, rfl, leads'', unit⟩ := before.exists_last built
          (by rw [length, only]; exact Nat.one_ne_zero) pops
        rw [← unit (by rw [length, only]; rfl)]
        have complete := (Table.looks_of_reduce built reduces).holds
        rw [rhs, only] at complete
        obtain ⟨_, symbol⟩ := leads''.before complete
        rw [rhs, only] at symbol
        obtain rfl := Option.some.inj symbol
        exact leads''
      · have apart {state : Nat} (holds : g.Holds state ⟨q, d⟩) :
            g.Apart (o.rivals production.lhs) state := by
          intro z member
          rcases sound.rest rule' isLast member with excludes | other' | follows
          · exact excludes d state size holds
          · exact absurd other' excepted
          · exact absurd (sound.reduces_of_follows built (follows p production rule rfl) rule rule'
              reduces (Table.looks_of_reduce built action)) (resting.not_reduces built)
        have holds := (leads.before looks.holds).1
        exact ⟨apart holds, b', before'.expects size last rule rfl, apart before'.holds⟩

end Outlook.Sound

end ShaderTree
