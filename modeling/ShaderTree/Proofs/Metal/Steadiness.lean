import ShaderTree.Proofs.Metal.Precedence
import ShaderTree.Proofs.Parser.Steadiness

/-! The table of the built-in language is steady. An operand is contested on the operators that bind
tighter; a path is a type or a value, and a type with arguments behind it is a construction. -/
namespace ShaderTree

open Bits

namespace Grammar

variable {g : Grammar} {state n p c : Nat} {production : Production}

/-- Where a nonterminal stands in front of the dot of one production only, which it makes up, it is
followed by what follows this production. -/
theorem Expects.looks_of_only (expects : g.Expects state n c) (rule : g.IsRule p production)
    (rhs : production.rhs = [.nonterminal n])
    (only : ∀ i, g.Holds state i → g.next? i = some (.nonterminal n) → i = ⟨p, 0⟩) :
    g.Looks state ⟨p, 0⟩ c := by
  obtain ⟨_, i, next, ⟨holds, first⟩ | ⟨looks, _⟩⟩ := expects_iff.1 expects
  · obtain rfl := only i holds next
    change (First.ofSymbols _ ((g.rhs p).drop 1)).terminals.mem c = true at first
    rw [rhs_of_isRule rule, rhs] at first
    simp [First.ofSymbols, First.empty] at first
  · obtain rfl := only i looks.holds next
    exact looks

end Grammar

theorem First.not_nullable_of_terminal {known : Array First} {k : Kind} {xs : List Symbol}
    (member : .terminal k ∈ xs) : (First.ofSymbols known xs).nullable = false := by
  induction xs with
  | nil => cases member
  | cons x xs ih =>
    cases x with
    | terminal l => rfl
    | nonterminal m =>
      have inside : .terminal k ∈ xs := by simpa using member
      unfold First.ofSymbols
      split
      · rfl
      · split
        · exact ih inside
        · rfl

/-- What goes on with a terminal among others does not vanish. -/
theorem Grammar.not_nullable_behind {g : Grammar} {k : Kind} {i : Item}
    (member : .terminal k ∈ (g.rhs i.production).drop (i.dot + 1)) :
    (Spread.behind (.ofGrammar g) i).nullable = false :=
  First.not_nullable_of_terminal member

namespace Metal

/-- The number of a production. -/
def number (lhs : Phrase) (rhs : List Symbol) : Nat :=
  grammar.productions.toList.findIdx fun r => Nat.beq r.lhs lhs.index && decide (r.rhs = rhs)

/-- A path that names a type. -/
def naming : Nat := number .namedType [n .path]

/-- A path that names a value. -/
def reference : Nat := number .nameRef [n .path]

/-- A name of a type in a declaration or a cast. -/
def nameAsType : Nat := number .typeSpecifier [n .namedType]

/-- A type in front of its arguments. -/
def construction : Nat := number .constructorExpr [n .builtinType, n .argList]

/-- What competes with a type or a name. -/
def rivals (x : Nat) : List Nat :=
  bif Nat.beq x Phrase.typeSpecifier.index || Nat.beq x Phrase.specifiers.index then
    [construction, reference]
  else bif Nat.beq x Phrase.namedType.index then [reference]
  else bif Nat.beq x Phrase.nameRef.index || Nat.beq x Phrase.expression.index then [naming]
  else []

/-- The terminals behind the first operands of operators. -/
def infixes : List Kind := operators.filterMap fun o => behind? o.1.rhs

/-- A production may be reduced on what can follow its nonterminal, but not on an operator that takes
over its last operand. -/
def allows (p : Nat) (r : Production) (k : Kind) : Bool :=
  ((Ahead.ofGrammar grammar).followOf r.lhs).testBit k.index &&
    !(isOpen r && infixes.contains k && !decide (grammar.Above p k ∨ grammar.Level p k .left))

def allowed (p : Nat) (r : Production) : Nat :=
  bif isOpen r then Outlook.select (allows p r) else (Ahead.ofGrammar grammar).followOf r.lhs

def outlook : Outlook := .ofGrammar grammar meetings (.ofGrammar grammar) rivals allowed [nameAsType]

theorem rivals_namedType : outlook.rivals Phrase.namedType.index = [reference] := rfl

/-! The productions are checked in parts, as the evaluation of all of them at once holds too much. -/

set_option maxRecDepth 20000 in
theorem checks_front :
    (grammar.productions.toList.zipIdx.take 150).all (outlook.checkProduction grammar meetings) =
      true := by decide

set_option maxRecDepth 20000 in
theorem checks_middle :
    ((grammar.productions.toList.zipIdx.drop 150).take 45).all
      (outlook.checkProduction grammar meetings) = true := by decide

set_option maxRecDepth 20000 in
theorem checks_back :
    ((grammar.productions.toList.zipIdx.drop 150).drop 45).all
      (outlook.checkProduction grammar meetings) = true := by decide

set_option maxRecDepth 20000 in
theorem checks_lasts :
    (Outlook.lasts grammar).all (outlook.checkLast grammar meetings) = true := by decide

theorem checks_outlook : outlook.Checks grammar meetings = true :=
  Bool.and_eq_true_iff.2
    ⟨all_of_parts 150 checks_front (all_of_parts 45 checks_middle checks_back), checks_lasts⟩

/-- A type by its name alone as the whole of what a declaration says of it. -/
def typeAlone : Nat := number .specifiers [n .typeSpecifier]

set_option maxRecDepth 10000 in
theorem exists_rule {lhs : Phrase} {rhs : List Symbol}
    (bound : Nat.blt (number lhs rhs) grammar.productions.size = true) :
    ∃ r, grammar.IsRule (number lhs rhs) r ∧ r.lhs = lhs.index ∧ r.rhs = rhs := by
  have inside : number lhs rhs < grammar.productions.toList.length := by simpa using bound
  have is := List.findIdx_getElem (w := inside)
  simp only [Bool.and_eq_true, Nat.beq_eq, decide_eq_true_iff] at is
  refine ⟨_, declared.isRule ?_, is⟩
  rw [← Array.getElem?_toList, List.getElem?_eq_getElem inside]
  rfl

set_option maxRecDepth 20000 in
theorem exists_naming : ∃ r, grammar.IsRule naming r ∧ r.lhs = Phrase.namedType.index ∧
    r.rhs = [n .path] := exists_rule (by decide)

set_option maxRecDepth 20000 in
theorem exists_reference : ∃ r, grammar.IsRule reference r ∧ r.lhs = Phrase.nameRef.index ∧
    r.rhs = [n .path] := exists_rule (by decide)

set_option maxRecDepth 20000 in
theorem exists_nameAsType : ∃ r, grammar.IsRule nameAsType r ∧ r.lhs = Phrase.typeSpecifier.index ∧
    r.rhs = [n .namedType] := exists_rule (by decide)

set_option maxRecDepth 20000 in
theorem exists_typeAlone : ∃ r, grammar.IsRule typeAlone r ∧ r.lhs = Phrase.specifiers.index ∧
    r.rhs = [n .typeSpecifier] := exists_rule (by decide)

set_option maxRecDepth 10000 in
/-- A path can be a value only where a type starts a declaration, as in front of every item. -/
theorem reference_shape :
    (∀ o ∈ grammar.productions.toList.zipIdx, o.1.lhs = Phrase.namedType.index →
      o.2 = naming ∧ o.1.rhs = [n .path]) ∧
    (∀ r ∈ grammar.productions.toList, r.lhs = Phrase.declaration.index →
      r.rhs.getLast? = some (t .semicolon)) ∧
    (∀ r ∈ grammar.productions[nameAsType]?, meetings.isLone grammar [] nameAsType r = true) ∧
    Nat.beq (outlook.contested nameAsType) 0 = true ∧
    Nat.beq (meetings.setOf grammar ⟨reference, 0⟩ &&& meetings.inFront (n .namedType))
      (1 <<< meetings.place ⟨nameAsType, 0⟩) = true ∧
    Nat.beq (meetings.setOf grammar ⟨reference, 0⟩ &&& meetings.inFront (n .typeSpecifier))
      (1 <<< meetings.place ⟨typeAlone, 0⟩) = true ∧
    meetings.eachItem grammar
      (meetings.setOf grammar ⟨reference, 0⟩ &&& meetings.inFront (n .specifiers))
      (fun _ e r => Nat.beq e 0 && Nat.beq r.lhs Phrase.declaration.index) = true ∧
    (meetings.setOf grammar grammar.startItem).testBit (meetings.place ⟨reference, 0⟩) = false ∧
    (grammar.headsOf grammar.start).testBit Phrase.declaration.index = true := by
  decide

variable {t : Table} {p q s c : Nat} {r : Production} {k l : Kind} {lhs : Phrase} {rhs : List Symbol}

/-- The terminal behind the first operand of an operator can be shifted behind every operand, so that a
production with an operand at its end wins over it where it is reduced. -/
theorem allows_of_reduce (built : table = .ok t) (isRule : grammar.IsRule p r)
    (action : t.action s k = .reduce p) : allows p r k = true := by
  have parts := Table.build_ok built
  have looks := Table.looks_of_reduce parts action
  have follows := (Outlook.follow_of_looks parts covers_ahead isRule looks).2
  rw [allows, follows, Bool.true_and, Bool.not_eq_true',
    Bool.eq_false_iff]
  intro refused
  simp only [Bool.and_eq_true, Bool.not_eq_true', decide_eq_false_iff_not,
    List.contains_iff_mem] at refused
  obtain ⟨⟨ends, infix'⟩, against⟩ := refused
  obtain ⟨⟨operator, o⟩, member, behind⟩ := List.mem_filterMap.1 infix'
  obtain ⟨inside, operand⟩ := List.mem_filter.1 member
  have rule' := declared.isRule (Array.getElem?_toList ▸ List.mem_zipIdx_iff_getElem?.1 inside)
  obtain ⟨x, more, own, second⟩ := exists_behind behind
  obtain ⟨front, whole⟩ := exists_open ends
  rw [Grammar.rhs_of_isRule isRule, whole, List.length_append, List.length_singleton] at looks
  obtain ⟨mid, y, leads, last, before⟩ := looks.before
  rw [Grammar.rhs_of_isRule isRule, whole, List.getElem?_append_right (Nat.le_refl _)] at last
  obtain rfl : .nonterminal expression = y := by simpa using last
  have next : grammar.next? ⟨p, front.length⟩ = some (.nonterminal expression) := by
    rw [Grammar.next?, Grammar.rhs_of_isRule isRule, whole,
      List.getElem?_append_right (Nat.le_refl _)]
    simp
  obtain ⟨target, shift⟩ :=
    (operand_of_mem rule' operand).exists_leads own second before.holds next leads
  obtain ⟨_, _, _, _, _, _, groups⟩ := operands_shape
  exact against ((Table.settled_of_groups built (groups _ member k behind) s).1 p target action shift)

theorem allowed_of_reduce (built : table = .ok t) (isRule : grammar.IsRule p r)
    (action : t.action s k = .reduce p) : (allowed p r).testBit k.index = true := by
  have parts := Table.build_ok built
  obtain ⟨terminal, follows⟩ :=
    Outlook.follow_of_looks parts covers_ahead isRule (Table.looks_of_reduce parts action)
  cases isOpen : isOpen r with
  | false => rwa [allowed, isOpen, cond_false]
  | true =>
    rw [allowed, isOpen, cond_true, Outlook.testBit_select terminal]
    exact allows_of_reduce built isRule action

theorem outlook_sound (built : table = .ok t) : outlook.Sound grammar t :=
  Outlook.sound_of_checks (Table.build_ok built) checks_meetings declared covers_ahead
    (allowed_of_reduce built) checks_outlook

/-- Where one item alone stands in front of a symbol beside another item. -/
theorem eq_of_setOf {i i' j : Item} {x : Symbol} {state : Nat}
    (only : Nat.beq (meetings.setOf grammar i &&& meetings.inFront x) (1 <<< meetings.place j) = true)
    (item : grammar.IsItem j) (holds : grammar.Holds state i) (inside : grammar.Holds state i')
    (next : grammar.next? i' = some x) : i' = j := by
  obtain ⟨_, item', meet⟩ := (Meetings.gathers checks_meetings).holds holds inside
  have both : (meetings.setOf grammar i &&& meetings.inFront x).testBit (meetings.place i') = true := by
    rw [Nat.testBit_and]
    exact Bool.and_eq_true_iff.2 ⟨meet, (Meetings.check_of_next checks_meetings item' next).1⟩
  rw [Nat.eq_of_beq_eq_true only, testBit_one_shiftLeft, decide_eq_true_iff] at both
  exact (Meetings.eq_of_place (Meetings.dot_lt_stride checks_meetings item)
    (Meetings.dot_lt_stride checks_meetings item') both).symm

theorem isItem_start (rule : grammar.IsRule p r) : grammar.IsItem ⟨p, 0⟩ :=
  ⟨Nat.le_of_lt (Array.getElem?_eq_some_iff.1 rule.1).1, Nat.zero_le _⟩

/-- Where a name stands as a type and comes to rest, it could not have been a value: then it could only
be the type of a declaration, and it would not come to rest. -/
theorem apart_of_rests (built : table = .ok t) {b next : Nat} {other : Production}
    (resting : t.Resting grammar k l nameAsType next Phrase.namedType.index other)
    (action : t.action s k = .reduce naming) (before : grammar.Leads b (n .path) s) :
    ¬ grammar.Holds b ⟨reference, 0⟩ := by
  intro holds
  have parts := Table.build_ok built
  obtain ⟨_, _, alone, uncontested, named, _⟩ := reference_shape
  obtain ⟨_, naming', lhs, rhs⟩ := exists_naming
  obtain ⟨_, reference', _, rhsV⟩ := exists_reference
  obtain ⟨_, typed, _, rhsT⟩ := exists_nameAsType
  have looks := Table.looks_of_reduce parts action
  rw [Grammar.rhs_of_isRule naming', rhs, List.length_singleton, ← Nat.zero_add 1] at looks
  obtain ⟨b', x, leads', _, looks'⟩ := looks.before
  obtain rfl := leads'.symbol_unique before
  have value := before.behind holds (by rw [Grammar.rhs_of_isRule reference', rhsV]; rfl)
  have holds' := (leads'.before value).1
  have expects : grammar.Expects b' Phrase.namedType.index k.index := ⟨_, _, naming', lhs, looks'⟩
  have outer := expects.looks_of_only typed rhsT fun i inside next =>
    eq_of_setOf named (isItem_start typed) holds' inside next
  obtain ⟨next', behind, _⟩ := outer.exists_along (Nat.le_refl _)
  have lone := Meetings.lone_of_isLone checks_meetings declared typed (alone _ typed.1)
  obtain rfl := lone.unique_of_looks behind (Table.looks_of_reduce parts resting.reduces)
  refine resting.not_reduces parts ((outlook_sound built).reduces parts typed behind ?_ ?_)
  · exact fun j inside complete =>
      (lone.alone behind.holds inside complete).resolve_right fun rival => by simp at rival
  · rw [Nat.eq_of_beq_eq_true uncontested, Nat.zero_testBit]

/-- What follows a name as a type, follows one where no value can stand. -/
theorem exists_expects {next c : Nat} (looks : grammar.Looks next ⟨nameAsType, 1⟩ c) :
    ∃ b, grammar.Expects b Phrase.namedType.index c ∧ ¬ grammar.Holds b ⟨reference, 0⟩ := by
  obtain ⟨_, shape, _, _, _, first, firsts, start, heads⟩ := reference_shape
  obtain ⟨_, naming', lhs, _⟩ := exists_naming
  obtain ⟨_, typed, lhsT, rhsT⟩ := exists_nameAsType
  obtain ⟨_, alone, lhsA, rhsA⟩ := exists_typeAlone
  have passes {b : Nat} (looks : grammar.Looks b ⟨nameAsType, 0⟩ c) :
      grammar.Expects b Phrase.namedType.index c := by
    have own : grammar.rhs nameAsType = [n .namedType] := by rw [Grammar.rhs_of_isRule typed, rhsT]
    exact looks.expects (by rw [own]; rfl) (by rw [own]; rfl) naming' lhs
  obtain ⟨b, _, _, _, before⟩ := looks.before
  by_cases value : grammar.Holds b ⟨reference, 0⟩
  · have expects : grammar.Expects b Phrase.typeSpecifier.index c := ⟨_, _, typed, lhsT, before⟩
    have outer := expects.looks_of_only alone rhsA fun i inside next =>
      eq_of_setOf first (isItem_start alone) value inside next
    have outermost : grammar.Expects b Phrase.specifiers.index c := ⟨_, _, alone, lhsA, outer⟩
    obtain ⟨_, i, next, cause⟩ := Grammar.expects_iff.1 outermost
    have inside : grammar.Holds b i := cause.elim (·.1) (·.1.holds)
    obtain ⟨_, item, meet⟩ := (Meetings.gathers checks_meetings).holds value inside
    have both : (meetings.setOf grammar ⟨reference, 0⟩ &&& meetings.inFront (n .specifiers)).testBit
        (meetings.place i) = true := by
      rw [Nat.testBit_and]
      exact Bool.and_eq_true_iff.2 ⟨meet, (Meetings.check_of_next checks_meetings item next).1⟩
    obtain ⟨p, d⟩ := i
    obtain ⟨r, known, test⟩ := Meetings.eachItem_sound checks_meetings firsts item both
    simp only [Bool.and_eq_true, Nat.beq_eq] at test
    obtain ⟨rfl, lhsD⟩ := test
    have rule := Meetings.isRule_of_rules known (by rw [lhsD]; decide)
    have top : grammar.Holds 0 ⟨p, 0⟩ :=
      grammar.holds_startItem.of_heads grammar.next?_startItem
        (Grammar.heads_of_testBit declared heads) rule lhsD
    have ends := shape r (Array.mem_toList_iff.2 (Array.mem_of_getElem? rule.1)) lhsD
    have more : .terminal .semicolon ∈ (grammar.rhs p).drop (0 + 1) := by
      rw [Grammar.next?, Grammar.rhs_of_isRule rule] at next
      rw [Grammar.rhs_of_isRule rule]
      cases rhs : r.rhs with
      | nil =>
        rw [rhs] at next
        cases next
      | cons x xs =>
        rw [rhs] at next ends
        obtain rfl := Option.some.inj next
        cases xs with
        | nil => cases ends
        | cons y ys => exact List.mem_of_getLast? (by rwa [List.getLast?_cons_cons] at ends)
    rcases cause with ⟨_, ahead⟩ | ⟨_, nullable⟩
    · have again : grammar.Expects 0 Phrase.specifiers.index c :=
        Grammar.expects_iff.2 ⟨⟨_, _, alone, lhsA⟩, _, next, .inl ⟨top, ahead⟩⟩
      have looks := again.looks alone lhsA
      have expects := looks.expects (by rw [Grammar.rhs_of_isRule alone, rhsA]; rfl)
        (by rw [Grammar.rhs_of_isRule alone, rhsA]; rfl) typed lhsT
      refine ⟨0, passes (expects.looks typed lhsT), fun value => ?_⟩
      have meet := ((Meetings.gathers checks_meetings).holds grammar.holds_startItem value).2.2
      rw [start] at meet
      cases meet
    · rw [Grammar.not_nullable_behind (i := ⟨p, 0⟩) more] at nullable
      cases nullable
  · exact ⟨b, passes before, value⟩

/-- What the table of the built-in language builds does not hang on the terminal behind it. -/
theorem steady (built : table = .ok t) : t.Steady := by
  have parts := Table.build_ok built
  intro _ _ _ _ _ _ builds rests reduces
  refine (outlook_sound built).steady parts ?_ builds rests reduces
  intro k l q next y b p s other production resting excepted leads rule lhs action before
  obtain rfl : q = nameAsType := List.mem_singleton.1 excepted
  obtain ⟨_, typed, _, rhsT⟩ := exists_nameAsType
  obtain rfl := Option.some.inj (typed.1.symm.trans resting.rule.1)
  have last := resting.last
  rw [rhsT] at last
  obtain rfl : Phrase.namedType.index = y := by simpa [n] using last
  obtain ⟨rfl, rhs⟩ := reference_shape.1 _ rule.mem_zipIdx lhs
  have looks := Table.looks_of_reduce parts resting.reduces
  rw [Grammar.rhs_of_isRule typed, rhsT] at looks
  have apart {b : Nat} (none : ¬ grammar.Holds b ⟨reference, 0⟩) :
      grammar.Apart (outlook.rivals Phrase.namedType.index) b := by
    rw [rivals_namedType]
    intro q member
    rw [List.mem_singleton.1 member]
    exact none
  obtain ⟨b', expects, none⟩ := exists_expects looks
  exact ⟨apart (apart_of_rests built resting action (before _ rhs)), b', expects, apart none⟩

end Metal

end ShaderTree
