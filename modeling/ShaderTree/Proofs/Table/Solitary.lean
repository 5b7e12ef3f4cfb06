import ShaderTree.Proofs.Table.Following
import ShaderTree.Proofs.Table.Meetings

/-! Productions that are complete in one state only, and alone there. The states in front of the last
symbol of such a production may differ, but not in what stands in front of that symbol: it is what the
item itself brings with it. Some productions can have rivals, which a state brings or does not. -/
namespace ShaderTree

open Bits
open Relation (ReflTransGen)

namespace Bits

variable {α : Type}

theorem foldNow_eq_foldl (f : Nat → α → Nat) (xs : List α) (s : Nat) :
    foldNow f xs s = xs.foldl f s := by
  induction xs generalizing s with
  | nil => rfl
  | cons x xs ih =>
    rw [List.foldl_cons, ← ih]
    unfold foldNow
    dsimp only
    cases f s x <;> rfl

/-- What a step keeps, repetitions keep. -/
theorem saturate_induction {P : Nat → Prop} {step : Nat → Nat} (each : ∀ s, P s → P (step s))
    (rounds : Nat) {s : Nat} (start : P s) : P (saturate step rounds s) := by
  induction rounds generalizing s with
  | zero => exact start
  | succ rounds ih =>
    rw [saturate]
    cases Nat.beq (step s) s with
    | true => exact start
    | false => exact ih (each s start)

theorem testBit_one_shiftLeft (n m : Nat) : (1 <<< n).testBit m = decide (n = m) := by
  rw [Nat.one_shiftLeft, Nat.testBit_two_pow]

/-- A function that knows its number before it goes on. -/
def withNow (s : Nat) (f : Nat → α) : α :=
  match s with
  | 0 => f 0
  | n + 1 => f (n + 1)

@[simp] theorem withNow_eq (s : Nat) (f : Nat → α) : withNow s f = f s := by
  cases s <;> rfl

/-- The numbers of one set that are not in another. -/
def minus (s t : Nat) : Nat := s ^^^ (s &&& t)

theorem testBit_minus (s t i : Nat) : (minus s t).testBit i = (s.testBit i && !t.testBit i) := by
  rw [minus, Nat.testBit_xor, Nat.testBit_and]
  cases s.testBit i <;> cases t.testBit i <;> rfl

/-- The numbers of the elements that pass a test. -/
def mark (number : α → Nat) (test : α → Bool) (xs : List α) : Nat :=
  foldNow (fun s x => bif test x then s ||| 1 <<< number x else s) xs 0

theorem testBit_mark {number : α → Nat} {test : α → Bool} {xs : List α} {i : Nat} :
    (mark number test xs).testBit i = true ↔ ∃ x ∈ xs, test x = true ∧ number x = i := by
  suffices all : ∀ s, (xs.foldl (fun s x => bif test x then s ||| 1 <<< number x else s) s).testBit i =
      true ↔ s.testBit i = true ∨ ∃ x ∈ xs, test x = true ∧ number x = i by
    rw [mark, foldNow_eq_foldl, all, Nat.zero_testBit]
    simp
  induction xs with
  | nil => simp
  | cons x xs ih =>
    intro s
    rw [List.foldl_cons, ih]
    cases passes : test x with
    | false => simp [passes]
    | true => rw [cond_true, Nat.testBit_or, testBit_one_shiftLeft]; simp [passes, or_assoc]

end Bits

namespace Grammar

variable {g : Grammar} {n m p q d state : Nat} {production other : Production} {i : Item}

/-- A production for one nonterminal starts with another. -/
def Heads (g : Grammar) (n m : Nat) : Prop :=
  ∃ p production xs, g.IsRule p production ∧ production.lhs = n ∧ production.rhs = .nonterminal m :: xs

/-- The nonterminals, as bits, that start what can stand for a nonterminal. -/
def headsOf (g : Grammar) (n : Nat) : Nat :=
  saturate (foldNow (fun s (r : Production) => match r.rhs with
    | .nonterminal m :: _ => bif has s r.lhs then s ||| 1 <<< m else s
    | _ => s) g.productions.toList) g.nonterminals.size (1 <<< n)

theorem heads_of_testBit (declared : g.Declared) (member : (g.headsOf n).testBit m = true) :
    ReflTransGen g.Heads n m := by
  suffices all : ∀ m, (g.headsOf n).testBit m = true → ReflTransGen g.Heads n m from all m member
  refine saturate_induction (P := fun (s : Nat) => ∀ m, s.testBit m = true → ReflTransGen g.Heads n m)
    (fun s each => ?_) _ fun m own => ?_
  · rw [foldNow_eq_foldl]
    refine foldl_induction (P := fun (s : Nat) => ∀ m, s.testBit m = true → ReflTransGen g.Heads n m) each ?_
    intro s r inside each
    split
    · rename_i k xs rhs
      rw [has_eq]
      cases known : s.testBit r.lhs with
      | false => exact each
      | true =>
        intro m member
        rw [cond_true, Nat.testBit_or, Bool.or_eq_true, testBit_one_shiftLeft, decide_eq_true_iff]
          at member
        rcases member with old | rfl
        · exact each m old
        · obtain ⟨p, found⟩ := Array.mem_iff_getElem?.1 (Array.mem_toList_iff.1 inside)
          exact (each _ known).tail ⟨p, r, xs, declared.isRule found, rfl, rhs⟩
    · exact each
  · rw [testBit_one_shiftLeft, decide_eq_true_iff] at own
    subst own
    exact .refl

/-- In front of a nonterminal a state has all that starts what can stand for it. -/
theorem Holds.of_heads (holds : g.Holds state i) (next : g.next? i = some (.nonterminal n))
    (heads : ReflTransGen g.Heads n m) (rule : g.IsRule p production) (lhs : production.lhs = m) :
    g.Holds state ⟨p, 0⟩ := by
  induction heads generalizing p production with
  | refl => exact holds.start_of rule (lhs ▸ next)
  | tail _ step ih =>
    obtain ⟨q, other, xs, rule', lhs', rhs⟩ := step
    refine (ih rule' lhs').start_of rule ?_
    rw [Grammar.next?, rhs_of_isRule rule', rhs, lhs]
    rfl

/-- Productions that start together and with the same symbols go on together. -/
theorem Holds.beside (holds : g.Holds state ⟨p, d⟩) (rule : g.IsRule p production)
    (rule' : g.IsRule q other) (heads : ReflTransGen g.Heads production.lhs other.lhs)
    (same : other.rhs.take d = production.rhs.take d) : g.Holds state ⟨q, d⟩ := by
  induction d generalizing state with
  | zero =>
    obtain ⟨j, front, next⟩ := holds.exists_front rule
    exact front.of_heads next heads rule' rfl
  | succ d ih =>
    obtain ⟨s, known⟩ := exists_of_holds holds
    obtain ⟨path, reaches⟩ := exists_reaches known
    cases reaches with
    | start => exact absurd (Reaches.start.read holds).1 (Nat.not_succ_le_zero d)
    | @step path before _ x _ leads =>
      obtain ⟨holds, next⟩ := leads.before holds
      have earlier := congrArg (List.take d) same
      rw [List.take_take, List.take_take, Nat.min_eq_left (Nat.le_succ d)] at earlier
      have symbol := congrArg (·[d]?) same
      simp only [List.getElem?_take_of_lt (Nat.lt_succ_self d)] at symbol
      rw [rhs_of_isRule rule] at next
      have next' : g.next? ⟨q, d⟩ = some x := by
        rw [Grammar.next?, rhs_of_isRule rule', symbol, next]
      exact .kernel ((leads.kernel.2 _).2 ⟨_, ih holds earlier, next', rfl⟩)

/-- Where the production is about to be complete, all that stands in front of the same symbol comes with
it, and where it is complete, it is alone; apart from rivals, which start in front of its only symbol. -/
structure Lone (g : Grammar) (rivals : List Nat) (p : Nat) : Prop where
  nonempty : g.rhs p ≠ []
  brings : ∀ {d x b b' j}, (g.rhs p).length = d + 1 → (g.rhs p)[d]? = some x → g.Holds b ⟨p, d⟩ →
    g.Holds b' ⟨p, d⟩ → g.Holds b j → g.next? j = some x →
      g.Holds b' j ∨ d = 0 ∧ ∃ q ∈ rivals, j = ⟨q, 0⟩
  alone : ∀ {s j}, g.Holds s ⟨p, (g.rhs p).length⟩ → g.Holds s j → g.IsComplete j →
    j.production = p ∨ (g.rhs p).length = 1 ∧ ∃ q ∈ rivals, j = ⟨q, 1⟩

variable {rivals : List Nat} {b b' s s' : Nat} {x : Symbol}

theorem Lone.mono (lone : g.Lone [] p) : g.Lone rivals p where
  nonempty := lone.nonempty
  brings length last holds holds' inside next :=
    (lone.brings length last holds holds' inside next).imp_right fun none => by simp at none
  alone holds inside complete := (lone.alone holds inside complete).imp_right fun none => by simp at none

/-- States without rivals go on to the same state. -/
theorem Lone.unique (lone : g.Lone rivals p) (length : (g.rhs p).length = d + 1)
    (last : (g.rhs p)[d]? = some x) (holds : g.Holds b ⟨p, d⟩) (holds' : g.Holds b' ⟨p, d⟩)
    (leads : g.Leads b x s) (leads' : g.Leads b' x s')
    (apart : d = 0 → ∀ q ∈ rivals, ¬ g.Holds b ⟨q, 0⟩ ∧ ¬ g.Holds b' ⟨q, 0⟩) : s = s' := by
  obtain ⟨⟨state, known⟩, kernel⟩ := leads.kernel
  obtain ⟨⟨state', known'⟩, kernel'⟩ := leads'.kernel
  rw [kernelOf_eq known] at kernel
  rw [kernelOf_eq known'] at kernel'
  refine state_unique known known' fun j => ?_
  rw [kernel, kernel']
  refine ⟨?_, ?_⟩ <;> rintro ⟨i, inside, next, rfl⟩
  · rcases lone.brings length last holds holds' inside next with there | ⟨none, q, member, rfl⟩
    · exact ⟨i, there, next, rfl⟩
    · exact absurd inside (apart none q member).1
  · rcases lone.brings length last holds' holds inside next with there | ⟨none, q, member, rfl⟩
    · exact ⟨i, there, next, rfl⟩
    · exact absurd inside (apart none q member).2

/-- A lone production without rivals is complete in one state. -/
theorem Lone.unique_of_looks (lone : g.Lone [] p) {c c' : Nat} (looks : g.Looks s ⟨p, (g.rhs p).length⟩ c)
    (looks' : g.Looks s' ⟨p, (g.rhs p).length⟩ c') : s = s' := by
  obtain ⟨d, length⟩ :=
    Nat.exists_eq_add_one_of_ne_zero fun none => lone.nonempty (List.eq_nil_of_length_eq_zero none)
  rw [length] at looks looks'
  obtain ⟨b, x, leads, last, before⟩ := looks.before
  obtain ⟨b', x', leads', last', before'⟩ := looks'.before
  obtain rfl := Option.some.inj (last.symm.trans last')
  exact lone.unique length last before.holds before'.holds leads leads' fun _ _ none => by simp at none

end Grammar

namespace Meetings

variable {g : Grammar} {m : Meetings} {a : Ahead} {rivals : List Nat} {p d q e next own : Nat}
  {r r' : Production}

/-- The starts, as places, of what can stand for a symbol. -/
def brings (m : Meetings) (g : Grammar) : Symbol → Nat
  | .terminal _ => 0
  | .nonterminal n => withNow (g.headsOf n) fun heads =>
    mark (fun o => m.place ⟨o.2, 0⟩) (fun o => has heads o.1.lhs) g.productions.toList.zipIdx

/-- An item comes with the one in front of the last symbol of a production: it starts what can stand for
the production's nonterminal, and went the same way; or it is a rival. -/
def isBeside (g : Grammar) (rivals : List Nat) (d : Nat) (r : Production) (q e : Nat)
    (r' : Production) : Bool :=
  Nat.blt r'.lhs g.nonterminals.size && Nat.beq e d && (g.headsOf r.lhs).testBit r'.lhs &&
      decide (r'.rhs.take d = r.rhs.take d) ||
    Nat.beq d 0 && Nat.beq e 0 && rivals.contains q

/-- Each item of a set passes a test. -/
def eachItem (m : Meetings) (g : Grammar) (s : Nat) (test : Nat → Nat → Production → Bool) : Bool :=
  g.rules.zipIdx.all fun (r, q) => Nat.beq (row m.stride s q) 0 ||
    (List.range m.stride).all fun e => !has s (m.place ⟨q, e⟩) || test q e r

/-- Each item of a set that is not the given one passes a test. -/
def eachOther (m : Meetings) (g : Grammar) (s : Nat) (i : Item)
    (test : Nat → Nat → Production → Bool) : Bool :=
  Nat.beq s (1 <<< m.place i) || m.eachItem g s test

def isLone (m : Meetings) (g : Grammar) (rivals : List Nat) (p : Nat) (r : Production) : Bool :=
  match r.rhs.reverse with
  | [] => false
  | x :: front => withNow (m.setOf g ⟨p, front.length⟩) fun s =>
    withNow (minus (s &&& m.inFront x) (m.brings g x)) (fun rest =>
      m.eachOther g rest ⟨p, front.length⟩ (isBeside g rivals front.length r)) &&
    withNow (m.move g s x &&& m.complete) fun rest =>
      m.eachOther g rest ⟨p, front.length + 1⟩ fun q e _ =>
        Nat.beq q p || Nat.beq front.length 0 && Nat.beq e 1 && rivals.contains q

theorem row_ne_zero {s : Nat} (inside : e < m.stride) (member : s.testBit (m.place ⟨q, e⟩) = true) :
    Nat.beq (row m.stride s q) 0 = false := by
  have bit : (row m.stride s q).testBit e = true := by
    rw [row, Nat.testBit_mod_two_pow, Nat.testBit_shiftRight, decide_eq_true inside, Bool.true_and]
    exact member
  rw [Bool.eq_false_iff]
  intro zero
  rw [Nat.eq_of_beq_eq_true zero, Nat.zero_testBit] at bit
  cases bit

theorem eachItem_sound {s : Nat} {test : Nat → Nat → Production → Bool} (checks : m.Checks a g = true)
    (each : m.eachItem g s test = true) {j : Item} (item : g.IsItem j)
    (member : s.testBit (m.place j) = true) :
    ∃ r, g.rules[j.production]? = some r ∧ test j.production j.dot r = true := by
  obtain ⟨r, known, _, rhs⟩ := Grammar.getElem?_rules item.1
  have short : j.dot < m.stride := by
    have bound := (rule_of_checks checks known).1
    rw [rhs] at bound
    exact Nat.lt_of_le_of_lt item.2 bound
  have rule := List.all_eq_true.1 each (r, j.production) (List.mem_zipIdx_iff_getElem?.2 known)
  dsimp only at rule
  rw [row_ne_zero short member, Bool.false_or] at rule
  have place := List.all_eq_true.1 rule j.dot (List.mem_range.2 short)
  rw [show (⟨j.production, j.dot⟩ : Item) = j from rfl, has_eq, member] at place
  exact ⟨r, known, by simpa using place⟩

theorem isRule_of_rules {q : Nat} (known : g.rules[q]? = some r) (bound : r.lhs < g.nonterminals.size) :
    g.IsRule q r := by
  refine ⟨?_, bound⟩
  unfold Grammar.rules at known
  rcases Nat.lt_or_ge q g.productions.toList.length with inside | outside
  · rwa [List.getElem?_append_left inside, Array.getElem?_toList] at known
  · rw [List.getElem?_append_right outside, List.getElem?_singleton] at known
    split at known
    · obtain rfl := Option.some.inj known
      exact absurd bound (Nat.lt_irrefl _)
    · cases known

theorem eq_of_place {i j : Item} (short : i.dot < m.stride) (short' : j.dot < m.stride)
    (same : m.place i = m.place j) : i = j := by
  have production := production_of_place short short' same
  have dot : i.dot = j.dot := by
    unfold Places.place at same
    rw [production] at same
    exact Nat.add_left_cancel same
  cases i
  cases j
  simp_all

theorem dot_lt_stride (checks : m.Checks a g = true) {i : Item} (item : g.IsItem i) :
    i.dot < m.stride := by
  obtain ⟨r, known, _, rhs⟩ := Grammar.getElem?_rules item.1
  have bound := (rule_of_checks checks known).1
  rw [rhs] at bound
  exact Nat.lt_of_le_of_lt item.2 bound

theorem eachOther_sound {s : Nat} {test : Nat → Nat → Production → Bool} (checks : m.Checks a g = true)
    {i j : Item} (each : m.eachOther g s i test = true) (own : g.IsItem i) (item : g.IsItem j)
    (member : s.testBit (m.place j) = true) :
    j = i ∨ ∃ r, g.rules[j.production]? = some r ∧ test j.production j.dot r = true := by
  rcases Bool.or_eq_true_iff.1 each with only | each
  · rw [Nat.eq_of_beq_eq_true only, testBit_one_shiftLeft, decide_eq_true_iff] at member
    exact .inl (eq_of_place (dot_lt_stride checks item) (dot_lt_stride checks own) member.symm)
  · exact .inr (eachItem_sound checks each item member)

/-- What is listed as brought with a nonterminal starts what can stand for it. -/
theorem start_of_brings (checks : m.Checks a g = true) (declared : g.Declared) {n : Nat} {j : Item}
    (item : g.IsItem j) (member : (m.brings g (.nonterminal n)).testBit (m.place j) = true) :
    j.dot = 0 ∧ ∃ r, g.IsRule j.production r ∧ ReflTransGen g.Heads n r.lhs := by
  simp only [brings, withNow_eq, testBit_mark, has_eq] at member
  obtain ⟨⟨r, q⟩, inside, heads, same⟩ := member
  have rule := declared.isRule (Array.getElem?_toList ▸ List.mem_zipIdx_iff_getElem?.1 inside)
  have start : g.IsItem ⟨q, 0⟩ :=
    ⟨Nat.le_of_lt (Array.getElem?_eq_some_iff.1 rule.1).1, Nat.zero_le _⟩
  obtain rfl := eq_of_place (dot_lt_stride checks start) (dot_lt_stride checks item) same
  exact ⟨rfl, r, rule, Grammar.heads_of_testBit declared heads⟩

theorem isBeside_cases {j : Item} (beside : isBeside g rivals d r j.production j.dot r' = true) :
    (r'.lhs < g.nonterminals.size ∧ j.dot = d ∧ (g.headsOf r.lhs).testBit r'.lhs = true ∧
      r'.rhs.take d = r.rhs.take d) ∨ d = 0 ∧ j.dot = 0 ∧ j.production ∈ rivals := by
  simpa [isBeside, and_assoc] using beside

/-- What stands in front of the last symbol of a production comes with it, in every state. -/
theorem brought_of_isLone (checks : m.Checks a g = true) (declared : g.Declared)
    (rule : g.IsRule p r) {x : Symbol} {b b' : Nat} {j : Item} (last : r.rhs[d]? = some x)
    (each : m.eachOther g (minus (m.setOf g ⟨p, d⟩ &&& m.inFront x) (m.brings g x)) ⟨p, d⟩
      (isBeside g rivals d r) = true) (holds : g.Holds b ⟨p, d⟩) (holds' : g.Holds b' ⟨p, d⟩)
    (inside : g.Holds b j) (next : g.next? j = some x) :
    g.Holds b' j ∨ d = 0 ∧ ∃ q ∈ rivals, j = ⟨q, 0⟩ := by
  obtain ⟨own, item, meet⟩ := (gathers checks).holds holds inside
  cases brought : (m.brings g x).testBit (m.place j) with
  | true =>
    cases x with
    | terminal k =>
      rw [brings, Nat.zero_testBit] at brought
      cases brought
    | nonterminal n =>
      obtain ⟨dot, other, rule', heads⟩ := start_of_brings checks declared item brought
      have front : g.next? ⟨p, d⟩ = some (.nonterminal n) := by
        rw [Grammar.next?, Grammar.rhs_of_isRule rule]
        exact last
      have start := holds'.of_heads front heads rule' rfl
      rw [← dot] at start
      exact .inl start
  | false =>
    have member : (minus (m.setOf g ⟨p, d⟩ &&& m.inFront x) (m.brings g x)).testBit (m.place j) = true := by
      rw [testBit_minus, Nat.testBit_and, meet, (check_of_next checks item next).1, brought]
      rfl
    rcases eachOther_sound checks each own item member with rfl | ⟨other, known, beside⟩
    · exact .inl holds'
    · rcases isBeside_cases beside with ⟨bound, dot, heads, same⟩ | ⟨none, dot, rival⟩
      · have start := holds'.beside rule (isRule_of_rules known bound)
          (Grammar.heads_of_testBit declared heads) same
        rw [← dot] at start
        exact .inl start
      · refine .inr ⟨none, _, rival, ?_⟩
        rw [← dot]

theorem lone_of_isLone (checks : m.Checks a g = true) (declared : g.Declared)
    (rule : g.IsRule p r) (lone : m.isLone g rivals p r = true) : g.Lone rivals p := by
  have own := Grammar.rhs_of_isRule rule
  unfold isLone at lone
  split at lone
  · cases lone
  · rename_i x front rhs
    have whole : r.rhs = front.reverse ++ [x] := by
      rw [← List.reverse_reverse r.rhs, rhs, List.reverse_cons]
    have size : r.rhs.length = front.length + 1 := by simp [whole]
    have symbol : r.rhs[front.length]? = some x := by
      rw [whole, List.getElem?_append_right (by simp)]
      simp
    simp only [withNow_eq, Bool.and_eq_true] at lone
    obtain ⟨before, behind⟩ := lone
    refine ⟨fun none => ?_, ?_, ?_⟩
    · rw [own, whole] at none
      simp at none
    · intro d y b b' j length last holds holds' inside next
      rw [own] at length last
      obtain rfl : front.length = d := Nat.succ.inj (size.symm.trans length)
      obtain rfl := Option.some.inj (symbol.symm.trans last)
      exact brought_of_isLone checks declared rule last before holds holds' inside next
    · intro s j holds inside complete
      obtain ⟨whole', item, meet⟩ := (gathers checks).holds holds inside
      rw [own, size] at whole' meet
      have front' : g.next? ⟨p, front.length⟩ = some x := by
        rw [Grammar.next?, own]
        exact symbol
      have both : (m.move g (m.setOf g ⟨p, front.length⟩) x &&& m.complete).testBit (m.place j) = true := by
        rw [← setOf_advance front', Nat.testBit_and]
        exact Bool.and_eq_true_iff.2 ⟨meet, (check_of_complete checks inside complete).2.1⟩
      rcases eachOther_sound checks behind whole' item both with rfl | ⟨r', known, brought⟩
      · exact .inl rfl
      · simp only [Bool.or_eq_true, Bool.and_eq_true, List.contains_iff_mem] at brought
        rcases brought with same | ⟨⟨none, dot⟩, rival⟩
        · exact .inl (Nat.eq_of_beq_eq_true same)
        · refine .inr ⟨by rw [own, size, Nat.eq_of_beq_eq_true none], _, rival, ?_⟩
          rw [← Nat.eq_of_beq_eq_true dot]

end Meetings

end ShaderTree
