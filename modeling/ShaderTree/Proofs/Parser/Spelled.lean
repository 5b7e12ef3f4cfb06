import Mathlib.Data.List.DropRight
import Mathlib.Data.List.TakeWhile
import ShaderTree.Proofs.Parser.Conservation
import ShaderTree.Proofs.Table.Chains

/-! Seen from the table, a parse is a run of the plain machine: the states under the symbols of its
stack spell a path from the start state, and every move changes them as the machine or a repair
does. Blanks and given-up text in between repeat the state below them. -/
namespace ShaderTree

namespace Config

/-- Entries that are no symbols repeat the state below them. -/
def Repeats : List Entry → Prop
  | [] => True
  | e :: below => (e.isSymbol = false → e.state = topState below) ∧ Repeats below

/-- States of the symbols on a stack, top first, down to the start state. -/
def statesOf (stack : List Entry) : List Nat := (stack.filter Entry.isSymbol).map (·.state) ++ [0]

variable {c : Config} {e : Entry} {stack upper lower : List Entry}

theorem statesOf_symbol (role : e.isSymbol = true) :
    statesOf (e :: stack) = e.state :: statesOf stack := by
  simp [statesOf, role]

theorem statesOf_extra (role : e.isSymbol = false) : statesOf (e :: stack) = statesOf stack := by
  simp [statesOf, role]

theorem statesOf_extras (roles : ∀ e ∈ upper, e.isSymbol = false) :
    statesOf (upper ++ lower) = statesOf lower := by
  induction upper with
  | nil => rfl
  | cons e upper ih =>
    rw [List.cons_append, statesOf_extra (roles e (by simp)), ih fun f member => roles f (by simp [member])]

theorem Repeats.statesOf (repeats : Repeats stack) : ∃ below, statesOf stack = topState stack :: below := by
  induction stack with
  | nil => exact ⟨[], rfl⟩
  | cons e stack ih =>
    obtain ⟨same, repeats⟩ := repeats
    cases role : e.isSymbol with
    | true => exact ⟨_, statesOf_symbol role⟩
    | false =>
      rw [statesOf_extra role, topState, same role]
      exact ih repeats

theorem Repeats.append (repeats : Repeats lower)
    (extras : ∀ e ∈ upper, e.isSymbol = false ∧ e.state = topState lower) :
    Repeats (upper ++ lower) := by
  induction upper with
  | nil => exact repeats
  | cons e upper ih =>
    have others : ∀ f ∈ upper, f.isSymbol = false ∧ f.state = topState lower :=
      fun f member => extras f (by simp [member])
    refine ⟨fun _ => ?_, ih others⟩
    rw [(extras e (by simp)).2]
    cases upper with
    | nil => rfl
    | cons f upper => exact (others f (by simp)).2.symm

theorem Repeats.of_suffix (repeats : Repeats stack) (suffix : lower <:+ stack) : Repeats lower := by
  induction stack with
  | nil =>
    obtain rfl := List.suffix_nil.1 suffix
    exact repeats
  | cons e stack ih =>
    rcases List.suffix_cons_iff.1 suffix with rfl | suffix
    · exact repeats
    · exact ih repeats.2 suffix

theorem pop_suffix (n : Nat) (stack : List Entry) : (pop n stack).2 <:+ stack :=
  ⟨_, pop_split n stack⟩

theorem statesOf_pop {n : Nat} (enough : n < (statesOf stack).length) :
    statesOf (pop n stack).2 = (statesOf stack).drop n := by
  fun_induction pop n stack with
  | case1 => rfl
  | case2 => simp [statesOf] at enough
  | case3 n e below popped rest eq ih =>
    rw [eq] at ih
    cases role : e.isSymbol with
    | true =>
      rw [statesOf_symbol role] at enough ⊢
      simp only [role, if_true] at ih
      exact ih (Nat.lt_of_succ_lt_succ enough)
    | false =>
      rw [statesOf_extra role] at enough ⊢
      simp only [role, Bool.false_eq_true, if_false] at ih
      exact ih enough

theorem statesOf_dropWhile (stack : List Entry) :
    statesOf (stack.dropWhile (!·.isSymbol)) = statesOf stack := by
  conv_rhs => rw [← List.takeWhile_append_dropWhile (p := (!·.isSymbol)) (l := stack)]
  refine (statesOf_extras fun e member => ?_).symm
  simpa using List.mem_takeWhile_imp member

/-- Nothing is left to be set aside. -/
theorem settle_eq_of_rest {c' : Config} (rest : c'.rest = c.settle.rest) : c'.settle = c' := by
  have none : c'.rest.takeWhile (·.kind.isTrivia) = [] := by
    rw [rest]
    exact List.takeWhile_eq_nil_iff.2 fun bound => List.dropWhile_get_zero_not _ _ bound
  have same : c'.rest.dropWhile (·.kind.isTrivia) = c'.rest := by
    rw [rest]
    exact List.dropWhile_idempotent _ _
  unfold settle
  rw [none, same, List.append_nil]

@[simp] theorem settle_settle (c : Config) : c.settle.settle = c.settle := settle_eq_of_rest rfl

theorem states_flush (c : Config) : c.flush.states = c.states := by
  rw [flush_eq]
  refine statesOf_extras fun e member => ?_
  obtain ⟨t, _, rfl⟩ := List.mem_map.1 (List.mem_reverse.1 member)
  rfl

theorem Repeats.flush (repeats : Repeats c.stack) : Repeats c.flush.stack := by
  rw [flush_eq]
  refine repeats.append fun e member => ?_
  obtain ⟨t, _, rfl⟩ := List.mem_map.1 (List.mem_reverse.1 member)
  exact ⟨rfl, rfl⟩

/-- What is left on the stack below the symbols that a reduction takes off. -/
theorem Repeats.below (repeats : Repeats stack) {n base : Nat} {under : List Nat}
    (dropped : (Config.statesOf stack).drop n = base :: under) {below : List Entry}
    (rest : (pop n (stack.dropWhile (!·.isSymbol))).2 = below) :
    Repeats below ∧ topState below = base ∧ Config.statesOf below = base :: under := by
  have enough : n < (Config.statesOf (stack.dropWhile (!·.isSymbol))).length := by
    rw [statesOf_dropWhile]
    by_contra few
    rw [List.drop_eq_nil_of_le (Nat.not_lt.1 few)] at dropped
    cases dropped
  have taken := statesOf_pop enough
  rw [rest, statesOf_dropWhile, dropped] at taken
  have left : Repeats below :=
    rest ▸ repeats.of_suffix ((pop_suffix _ _).trans (List.dropWhile_suffix _))
  obtain ⟨_, is⟩ := left.statesOf
  exact ⟨left, (List.cons.inj (is.symm.trans taken)).1, taken⟩

end Config

namespace Setup

open Config

variable {s : Setup} {c c' : Config}

/-- A reduction with symbols enough on the stack and a goto below them. -/
theorem reduce_of_drop (repeats : Repeats c.stack) {p base next : Nat} {r : Reduction}
    {under : List Nat} (k : Kind) (known : s.table.reductions[p]? = some r)
    (dropped : c.states.drop r.length = base :: under)
    (goto : s.table.goto? base r.lhs = some next) :
    ∃ c', s.reduce c p k = .ok c' ∧ c'.states = next :: base :: under ∧ Repeats c'.stack := by
  obtain ⟨left, top, states⟩ := repeats.below dropped rfl
  obtain ⟨c', reduced⟩ : ∃ c', s.reduce c p k = .ok c' := by
    unfold reduce
    simp only [known, top, goto]
    exact ⟨_, rfl⟩
  obtain ⟨r', trailing, popped, below, next', known', trailingIs, split, goto', is⟩ :=
    reduce_ok reduced
  obtain rfl : r' = r := Option.some.inj (known'.symm.trans known)
  obtain rfl : _ = below := congrArg Prod.snd split
  obtain rfl : next' = next := by
    rw [top, goto] at goto'
    exact (Option.some.inj goto').symm
  have roles : ∀ e ∈ trailing.map (fun e => { e with state := next' }),
      e.isSymbol = false ∧ e.state = next' := by
    intro e member
    obtain ⟨old, there, rfl⟩ := List.mem_map.1 member
    rw [trailingIs] at there
    have role : old.isSymbol = false := by simpa using List.mem_takeWhile_imp there
    exact ⟨role, rfl⟩
  refine ⟨c', reduced, ?_, ?_⟩
  · rw [is]
    change statesOf (_ ++ _ :: _) = _
    rw [statesOf_extras fun e member => (roles e member).1, statesOf_symbol rfl, states]
  · rw [is]
    exact Repeats.append ⟨(fun extra => nomatch extra), left⟩ roles

/-- Leaving a token out changes no states. -/
theorem states_skip (repeats : Repeats c.stack) (h : s.skip c = .ok c') :
    c'.states = c.states ∧ Repeats c'.stack := by
  obtain ⟨u, rest, _, rfl⟩ := skip_ok h
  unfold pushSkipped
  split
  · rename_i state damaged offset children below _ stack
    rw [stack] at repeats
    exact ⟨(congrArg statesOf stack).symm, repeats⟩
  · exact ⟨(statesOf_extra rfl).trans (states_flush c), fun _ => rfl, repeats.flush⟩

end Setup

/-- The states of the symbols spell a path, and the rest of the stack repeats them. -/
structure Config.Spelled (g : Grammar) (c : Config) : Prop where
  path : ∃ path, g.Spells path c.states
  repeats : Config.Repeats c.stack

namespace Config

variable {g : Grammar} {c c' : Config}

theorem spelled_initial (tokens : List Token) : (initial tokens).Spelled g :=
  ⟨⟨[], .start⟩, trivial⟩

theorem Spelled.settle (spelled : c.Spelled g) : c.settle.Spelled g :=
  ⟨spelled.path, spelled.repeats⟩

theorem Spelled.states_eq (spelled : c.Spelled g) : ∃ below, c.states = c.top :: below :=
  spelled.repeats.statesOf

theorem Spelled.flush (spelled : c.Spelled g) : c.flush.Spelled g :=
  ⟨by rw [states_flush]; exact spelled.path, spelled.repeats.flush⟩

/-- A symbol is put on top. -/
theorem Spelled.push (spelled : c.Spelled g) {e : Entry} {x : Symbol} (role : e.isSymbol = true)
    (leads : g.Leads c.top x e.state) (stack : c'.stack = e :: c.stack) :
    c'.Spelled g ∧ c'.states = e.state :: c.states := by
  obtain ⟨path, spells⟩ := spelled.path
  obtain ⟨below, states⟩ := spelled.states_eq
  have grown : c'.states = e.state :: c.states := by
    change statesOf c'.stack = _
    rw [stack, statesOf_symbol role]
    rfl
  refine ⟨⟨⟨x :: path, ?_⟩, ?_⟩, grown⟩
  · rw [states] at spells
    rw [grown, states]
    exact .step spells leads
  · rw [stack]
    exact ⟨fun extra => (by rw [role] at extra; cases extra), spelled.repeats⟩

end Config

namespace Setup

open Config

variable {g : Grammar} {t : Table} {s : Setup} {c c' : Config}

/-- A reduction that the table asks for can be made, and is one of the plain machine. -/
theorem exists_reduce {p : Nat} {k : Kind} (built : t.BuiltFrom g) (table : s.table = t)
    (spelled : c.Spelled g) (action : t.action c.top k = .reduce p) :
    ∃ c', s.reduce c p k = .ok c' ∧ t.reduceStates p c.states = some c'.states ∧ c'.Spelled g := by
  obtain ⟨path, spells⟩ := spelled.path
  obtain ⟨_, whole⟩ := spelled.states_eq
  rw [whole] at spells
  obtain ⟨after, reduced⟩ := spells.exists_reduce built action
  obtain ⟨production, front, _, _, spells'⟩ := spells.reduce built action reduced
  obtain ⟨r, base, under, next, known, dropped, goto, is⟩ := Table.reduceStates_ok reduced
  obtain ⟨c', made, states, repeats⟩ := reduce_of_drop spelled.repeats k (table ▸ known)
    (whole ▸ dropped) (table ▸ goto)
  have same : c'.states = after := states.trans is.symm
  exact ⟨c', made, by rw [whole, reduced, same], ⟨_, same ▸ spells'⟩, repeats⟩

theorem spelled_reduce {p : Nat} {k : Kind} (built : t.BuiltFrom g) (table : s.table = t)
    (spelled : c.Spelled g) (action : t.action c.top k = .reduce p)
    (h : s.reduce c p k = .ok c') :
    t.reduceStates p c.states = some c'.states ∧ c'.Spelled g := by
  obtain ⟨c'', reduced, result⟩ := exists_reduce built table spelled action
  obtain rfl : c'' = c' := Except.ok.inj (reduced.symm.trans h)
  exact result

theorem spelled_shift {next : Nat} (built : t.BuiltFrom g) (spelled : c.Spelled g)
    (action : t.action c.top c.lookahead = .shift next) (h : Setup.shift c next = .ok c') :
    c'.Spelled g := by
  obtain ⟨u, rest, _, rfl⟩ := shift_ok h
  have leads := Table.leads_of_shift built action
  rw [← top_flush] at leads
  exact (spelled.flush.push (by rfl) leads rfl).1

theorem spelled_takeOver {found : Reusable} (built : t.BuiltFrom g) (table : s.table = t)
    (spelled : c.Spelled g) (goesTo : s.gotoKind c.top found.node.kind = some found.next) :
    (Setup.takeOver c found).Spelled g := by
  obtain ⟨n, _, goto⟩ := Option.bind_eq_some_iff.1 goesTo
  rw [table] at goto
  obtain ⟨_, leads⟩ := Table.leads_of_goto built goto
  rw [← top_flush] at leads
  exact (spelled.flush.push (by rfl) leads rfl).1

theorem spelled_insertShift {k : Kind} {next : Nat} (built : t.BuiltFrom g) (spelled : c.Spelled g)
    (action : t.action c.top k = .shift next) :
    (endInsertion (pushMissing c k next)).Spelled g :=
  (spelled.push (by rfl) (Table.leads_of_shift built action) rfl).1

theorem spelled_skip (spelled : c.Spelled g) (h : s.skip c = .ok c') : c'.Spelled g := by
  obtain ⟨states, repeats⟩ := states_skip spelled.repeats h
  exact ⟨states ▸ spelled.path, repeats⟩

/-- Giving up entries takes that many states off. -/
theorem spelled_wrap {depth : Nat} (k : Kind) (spelled : c.Spelled g)
    (inside : depth < c.states.length) :
    (Setup.wrap c depth k).Spelled g ∧ (Setup.wrap c depth k).states = c.states.drop depth := by
  obtain ⟨path, spells⟩ := spelled.path
  have left : (Setup.wrap c depth k).states = c.states.drop depth := statesOf_pop inside
  refine ⟨⟨⟨path.drop depth, ?_⟩, fun _ => rfl, ?_⟩, left⟩
  · rw [left]
    exact spells.drop (by have := spells.length; omega)
  · exact spelled.repeats.of_suffix (pop_suffix _ _)

end Setup

end ShaderTree
