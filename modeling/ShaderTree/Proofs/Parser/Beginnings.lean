import ShaderTree.Proofs.Metal.Acceptance
import ShaderTree.Proofs.Parser.Quiet
import ShaderTree.Proofs.Parser.Replay
import ShaderTree.Proofs.Parser.Tight

/-! Where nodes begin. In a parse that reports nothing each symbol on the stack was begun in a place where
the parser came to shift its first token, on top of what is still below the symbol. Where a text is a list
of items, this place tells the state that an item records: the start state for the first item, the state
behind the list for any other. -/
namespace ShaderTree

open Relation (ReflTransGen)
open Token (Label label hasText)

namespace Token

/-- Kind of the first label that is no blank or comment; the end of input where there is none. -/
def followOf (ls : List Label) : Kind := ((ls.find? (!·.1.isTrivia)).map (·.1)).getD .eof

theorem followOf_append {front : List Label} (blank : ∀ l ∈ front, l.1.isTrivia = true) (ls : List Label) :
    followOf (front ++ ls) = followOf ls := by
  have none : front.find? (!·.1.isTrivia) = none :=
    List.find?_eq_none.2 fun l member => by simp [blank l member]
  rw [followOf, List.find?_append, none, Option.none_or, followOf]

theorem followOf_map_label (tokens : List Token) :
    followOf (tokens.map label) = Reuse.followKind tokens := by
  rw [followOf, Reuse.followKind, List.find?_map]
  change (((tokens.find? (!·.kind.isTrivia)).map label).map (·.1)).getD .eof = _
  cases tokens.find? (!·.kind.isTrivia) <;> rfl

end Token

open Token (followOf)

/-- A text is a list of items, and each item is a node. -/
structure Grammar.Lists (g : Grammar) (list item : Nat) : Prop where
  ofStart : ∀ p ∈ g.productions.toList, p.lhs = g.start → p.rhs = [] ∨ p.rhs = [.nonterminal list]
  ofList : ∀ p ∈ g.productions.toList, p.lhs = list →
    p.rhs = [.nonterminal item] ∨ p.rhs = [.nonterminal list, .nonterminal item]
  ofItem : ∀ p ∈ g.productions.toList, p.lhs = item → ∃ n k, p.rhs = [.nonterminal n] ∧
    g.nonterminals[n]?.bind (·.node?) = some k
  hidden : ∀ n ∈ [g.start, list, item], g.nonterminals[n]?.bind (·.node?) = none

namespace Setup

open Config

variable {g : Grammar} {s : Setup} {c c' : Config} {tokens : List Token} {list item : Nat}
  {stack below lower : List Entry} {path : List Symbol} {x : Symbol} {u : Tree} {us : List Tree}

/-- A step of a parse that reports nothing. -/
inductive Proceeds (s : Setup) (c : Config) : Config → Prop
  | reduce {p : Nat} {c' : Config}
      (action : s.table.action c.top c.settle.lookahead = .reduce p)
      (reduced : s.reduce c.settle p c.settle.lookahead = .ok c') : Proceeds s c c'
  | shift {next : Nat} {c' : Config} (action : s.table.action c.top c.settle.lookahead = .shift next)
      (none : ∀ r found, s.reuse = some r →
        r.find? (s.gotoKind c.top) c.top c.settle.rest ≠ .ok (some found))
      (shifted : Setup.shift c.settle next = .ok c') : Proceeds s c c'
  | takeOver {next : Nat} {r : Reuse} {found : Reusable}
      (action : s.table.action c.top c.settle.lookahead = .shift next) (reuse : s.reuse = some r)
      (finds : r.find? (s.gotoKind c.top) c.top c.settle.rest = .ok (some found)) :
      Proceeds s c (takeOver c.settle found)

theorem proceeds_of_step (built : s.table.BuiltFrom g) (spelled : c.Spelled g)
    (pretending : s.Pretending c) (step : s.step c = .ok (.next c')) (later : Quiet c') :
    Quiet c ∧ s.Proceeds c c' := by
  rcases step_cases step with ⟨_, is, move⟩ | ⟨_, is | is, _⟩
  · obtain rfl := Step.next.inj is
    have quiet := move.quiet built spelled pretending later
    refine ⟨quiet, ?_⟩
    cases move with
    | insertReduce inserting => cases inserting.symm.trans quiet.2
    | insertShift inserting => cases inserting.symm.trans quiet.2
    | insertStop inserting => cases inserting.symm.trans quiet.2
    | reduce _ _ action reduced => exact .reduce action reduced
    | @shift next _ reading terminal action shifted =>
      by_cases finds : ∃ r found, s.reuse = some r ∧
          r.find? (s.gotoKind c.top) c.top c.settle.rest = .ok (some found)
      · obtain ⟨r, found, reuse, finds⟩ := finds
        have taken := step_shift reading terminal action
          (advance_of_finds (c := c.settle) reuse finds next)
        obtain rfl := Step.next.inj (Except.ok.inj (taken.symm.trans step))
        exact .takeOver action reuse finds
      · exact .shift action (fun r found reuse is => finds ⟨r, found, reuse, is⟩) shifted
    | takeOver _ _ action reuse finds => exact .takeOver action reuse finds
    | insert => cases later.2
    | wrap => cases later.1
    | skip _ _ _ _ _ skipped =>
      obtain ⟨u, rest, _, rfl⟩ := skip_ok skipped
      exact absurd later.1 (reportSkipped_ne_nil _ _ _ _)
  · cases is
  · cases is

/-- Trees were begun in a place: there their first token was next to be shifted, on top of what is below
them now. If an old node stood for the tokens there, it is in the trees. -/
structure Begins (s : Setup) (tokens : List Token) (below : List Entry) (us : List Tree) (c : Config) :
    Prop where
  reached : s.Reached tokens c
  stack : c.settle.flush.stack = below
  action : ∃ next, s.table.action c.top c.settle.lookahead = .shift next
  rest : word below ++ c.settle.rest.map label = tokens.map label
  takes : ∀ r found, s.reuse = some r →
    r.find? (s.gotoKind c.top) c.top c.settle.rest = .ok (some found) → found.node ∈ Tree.nodesAll us
  size : Tree.sizeAll us ≠ 0

/-- A node that was made on top of a stack, with what it records. -/
structure Made (s : Setup) (tokens : List Token) (below : List Entry) (u : Tree) : Prop where
  begins : ∃ c, s.Begins tokens below [u] c
  goto : ∃ next, s.gotoKind (topState below) u.kind = some next
  recorded : ∃ behind, word below ++ (u.leaves ++ behind) = tokens.map label ∧
    u.record? = some ⟨topState below, followOf behind⟩

theorem Made.isLeaf (made : s.Made tokens below u) : u.isLeaf = false := by
  obtain ⟨_, _, recorded⟩ := made.recorded
  cases u with
  | leaf k text => cases recorded
  | node => rfl

/-- The state that an item of a list records: the one below the list for the first item, the one behind
the items in front for any other. -/
structure Counts (g : Grammar) (list base : Nat) (isFirst : Bool) (state : Nat) : Prop where
  first : isFirst = true → state = base
  later : isFirst = false → g.Leads base (.nonterminal list) state

theorem Counts.unique {base state state' : Nat} {isFirst : Bool} (counts : Counts g list base isFirst state)
    (counts' : Counts g list base isFirst state') : state = state' := by
  cases isFirst with
  | true => rw [counts.first rfl, counts'.first rfl]
  | false => exact (counts.later rfl).unique (counts'.later rfl)

/-- The nodes in a list were made on top of what is in front of them. -/
def Listed (s : Setup) (g : Grammar) (list : Nat) (tokens : List Token) (below : List Entry)
    (us : List Tree) : Prop :=
  ∀ front u back, us = front ++ u :: back → u.isLeaf = false →
    ∃ lower, forest lower = forest below ++ front ∧ s.Made tokens lower u ∧
      Counts g list (topState below) (front.all Tree.isLeaf) (topState lower)

/-- What is known of the trees of a symbol. -/
structure Sourced (s : Setup) (g : Grammar) (list item : Nat) (tokens : List Token) (below : List Entry)
    (x : Symbol) (us : List Tree) : Prop where
  begins : x ≠ .nonterminal g.start → ∃ c, s.Begins tokens below us c
  single : ∀ n, x = .nonterminal n → (n = item ∨ ∃ k, g.nonterminals[n]?.bind (·.node?) = some k) →
    ∃ u, us = [u] ∧ s.Made tokens below u
  listed : x = .nonterminal list ∨ x = .nonterminal g.start → s.Listed g list tokens below us
  some : x = .nonterminal list → ∃ u ∈ us, u.isLeaf = false

/-- A stack whose symbols were begun one on top of the other, with blanks and comments in between. -/
inductive Traced (s : Setup) (g : Grammar) (list item : Nat) (tokens : List Token) :
    List Entry → List Symbol → Prop
  | nil : Traced s g list item tokens [] []
  | extra {e : Entry} {below : List Entry} {path : List Symbol}
      (rest : Traced s g list item tokens below path) (role : e.isSymbol = false)
      (same : e.state = topState below) (leaves : ∀ u ∈ e.trees, u.isLeaf = true) :
      Traced s g list item tokens (e :: below) path
  | symbol {e : Entry} {below : List Entry} {path : List Symbol} {x : Symbol}
      (rest : Traced s g list item tokens below path) (role : e.isSymbol = true)
      (leads : g.Leads (topState below) x e.state)
      (sourced : s.Sourced g list item tokens below x e.children) :
      Traced s g list item tokens (e :: below) (x :: path)

namespace Traced

theorem reaches (traced : s.Traced g list item tokens stack path) : g.Reaches path (topState stack) := by
  induction traced with
  | nil => exact .start
  | extra rest role same leaves ih =>
    rw [← same] at ih
    exact ih
  | symbol rest role leads sourced ih => exact .step ih leads

theorem extras (traced : s.Traced g list item tokens stack path) (blanks : List Token) :
    s.Traced g list item tokens (Config.extras (topState stack) blanks ++ stack) path := by
  have all : ∀ e ∈ Config.extras (topState stack) blanks, e.isSymbol = false ∧
      e.state = topState stack ∧ ∀ u ∈ e.trees, u.isLeaf = true := by
    intro e member
    obtain ⟨v, _, rfl⟩ := List.mem_map.1 (List.mem_reverse.1 member)
    exact ⟨rfl, rfl, by simp [Entry.trees, leaf, Tree.isLeaf]⟩
  generalize Config.extras (topState stack) blanks = upper at all
  induction upper with
  | nil => exact traced
  | cons e upper ih =>
    obtain ⟨⟨role, same, leaves⟩, others⟩ := List.forall_mem_cons.1 all
    refine .extra (ih others) role ?_ leaves
    rw [same]
    cases upper with
    | nil => rfl
    | cons f upper => exact (others f List.mem_cons_self).2.1.symm

/-- The symbol on top, below some blanks and comments. -/
theorem exists_symbol (traced : s.Traced g list item tokens stack (x :: path)) :
    ∃ upper e below, stack = upper ++ e :: below ∧
      (∀ f ∈ upper, f.isSymbol = false ∧ ∀ u ∈ f.trees, u.isLeaf = true) ∧ e.isSymbol = true ∧
        topState stack = e.state ∧ s.Traced g list item tokens below path ∧
          g.Leads (topState below) x e.state ∧ s.Sourced g list item tokens below x e.children := by
  generalize is : x :: path = path' at traced
  induction traced with
  | nil => cases is
  | @extra f below path rest role same leaves ih =>
    obtain ⟨upper, e, below, rfl, extras, others⟩ := ih is
    refine ⟨f :: upper, e, below, rfl, List.forall_mem_cons.2 ⟨⟨role, leaves⟩, extras⟩, others.1, ?_,
      others.2.2⟩
    exact same.trans others.2.1
  | @symbol e below path y rest role leads sourced ih =>
    obtain ⟨rfl, rfl⟩ := List.cons.inj is
    exact ⟨[], e, below, rfl, by simp, role, rfl, rest, leads, sourced⟩

/-- Without symbols there are only blanks and comments. -/
theorem blank (traced : s.Traced g list item tokens stack []) :
    topState stack = 0 ∧ ∀ v ∈ forest stack, v.isLeaf = true := by
  generalize none : ([] : List Symbol) = path at traced
  induction traced with
  | nil => exact ⟨rfl, by simp [forest]⟩
  | extra rest role same leaves ih =>
    obtain ⟨top, below⟩ := ih none
    refine ⟨same.trans top, fun v member => ?_⟩
    rw [forest_cons] at member
    exact (List.mem_append.1 member).elim (below v) (leaves v)
  | symbol => cases none

theorem pop_append {upper : List Entry} {e : Entry} (extras : ∀ f ∈ upper, f.isSymbol = false)
    (role : e.isSymbol = true) (n : Nat) (below : List Entry) :
    Config.pop (n + 1) (upper ++ e :: below) =
      ((Config.pop n below).1 ++ e :: upper.reverse, (Config.pop n below).2) := by
  induction upper with
  | nil => simp [Config.pop, role]
  | cons f upper ih =>
    obtain ⟨own, others⟩ := List.forall_mem_cons.1 extras
    rw [List.cons_append, Config.pop, own]
    simp [ih others]

/-- What is left when symbols are taken off, and the lowest of them. -/
theorem pop {n : Nat} (traced : s.Traced g list item tokens stack path) (enough : n ≤ path.length) :
    s.Traced g list item tokens (Config.pop n stack).2 (path.drop n) := by
  induction n generalizing stack path with
  | zero =>
    rw [Config.pop_zero]
    exact traced
  | succ n ih =>
    cases path with
    | nil => cases enough
    | cons x path =>
      obtain ⟨upper, e, below, rfl, extras, role, _, rest, _⟩ := traced.exists_symbol
      rw [pop_append (fun f member => (extras f member).1) role]
      exact ih rest (Nat.le_of_succ_le_succ enough)

theorem lowest {n : Nat} (traced : s.Traced g list item tokens stack path) (enough : n + 1 ≤ path.length) :
    ∃ e more x, (Config.pop (n + 1) stack).1 = e :: more ∧ e.isSymbol = true ∧ x ∈ path.take (n + 1) ∧
      s.Sourced g list item tokens (Config.pop (n + 1) stack).2 x e.children := by
  induction n generalizing stack path with
  | zero =>
    cases path with
    | nil => cases enough
    | cons x path =>
      obtain ⟨upper, e, below, rfl, extras, role, _, _, _, sourced⟩ := traced.exists_symbol
      rw [pop_append (fun f member => (extras f member).1) role, Config.pop_zero]
      exact ⟨e, upper.reverse, x, rfl, role, by simp, sourced⟩
  | succ n ih =>
    cases path with
    | nil => cases enough
    | cons x path =>
      obtain ⟨upper, e, below, rfl, extras, role, _, rest, _⟩ := traced.exists_symbol
      obtain ⟨f, more, y, first, symbol, member, sourced⟩ := ih rest (Nat.le_of_succ_le_succ enough)
      rw [pop_append (fun f member => (extras f member).1) role, first]
      exact ⟨f, _, y, rfl, symbol, .tail _ member, sourced⟩

end Traced

/-- A state of a parse that has reported nothing. -/
structure Traces (s : Setup) (g : Grammar) (list item : Nat) (tokens : List Token) (c : Config) : Prop where
  path : ∃ path, s.Traced g list item tokens c.stack path
  solid : ∀ e ∈ c.stack.head?, e.isSymbol = true
  whole : word c.stack ++ (c.pending ++ c.rest).map label = tokens.map label
  pending : ∀ u ∈ c.pending, u.kind.isTrivia = true

namespace Traces

theorem initial : s.Traces g list item tokens (.initial tokens) where
  path := ⟨[], .nil⟩
  solid := fun _ is => nomatch is
  whole := rfl
  pending := fun _ member => nomatch member

theorem settle (traces : s.Traces g list item tokens c) : s.Traces g list item tokens c.settle where
  path := traces.path
  solid := traces.solid
  whole := by
    rw [pending_append_rest_settle]
    exact traces.whole
  pending := by
    intro u member
    rcases List.mem_append.1 member with before | more
    · exact traces.pending u before
    · simpa using List.mem_takeWhile_imp more

/-- Where the blanks in front of the next token are put on the stack. -/
theorem flush (traces : s.Traces g list item tokens c) :
    (∃ path, s.Traced g list item tokens c.flush.stack path) ∧
      word c.flush.stack ++ c.rest.map label = tokens.map label := by
  obtain ⟨path, traced⟩ := traces.path
  refine ⟨⟨path, ?_⟩, ?_⟩
  · rw [stack_flush]
    exact traced.extras c.pending
  · rw [stack_flush, word_append, word_extras, List.append_assoc, ← List.map_append]
    exact traces.whole

/-- A symbol is put on top, for some of the next tokens. -/
theorem push (taken : List Token) (traces : s.Traces g list item tokens c) {e : Entry}
    (role : e.isSymbol = true) (leads : g.Leads c.top x e.state)
    (sourced : s.Sourced g list item tokens c.settle.flush.stack x e.children)
    (split : c.settle.rest = taken ++ c'.rest) (leaves : Tree.leavesAll e.children = taken.map label)
    (stack : c'.stack = e :: c.settle.flush.stack) (pending : c'.pending = []) :
    s.Traces g list item tokens c' := by
  obtain ⟨⟨path, traced⟩, whole⟩ := traces.settle.flush
  refine ⟨⟨x :: path, ?_⟩, ?_, ?_, by simp [pending]⟩
  · rw [stack]
    refine .symbol traced role ?_ sourced
    have top : topState c.settle.flush.stack = c.top := top_flush c.settle
    rwa [top]
  · rw [stack]
    rintro _ ⟨⟩
    exact role
  · rw [stack, word_cons, pending, List.nil_append, leaves, List.append_assoc, ← List.map_append, ← split]
    exact whole

end Traces

/-- Where the next token is shifted, what is put on the stack is begun. -/
theorem Traces.begins (traces : s.Traces g list item tokens c) (reached : s.Reached tokens c)
    {next : Nat} (action : s.table.action c.top c.settle.lookahead = .shift next)
    (takes : ∀ r found, s.reuse = some r →
      r.find? (s.gotoKind c.top) c.top c.settle.rest = .ok (some found) → found.node ∈ Tree.nodesAll us)
    (size : Tree.sizeAll us ≠ 0) : s.Begins tokens c.settle.flush.stack us c :=
  ⟨reached, rfl, ⟨next, action⟩, traces.settle.flush.2, takes, size⟩

theorem Traces.shift (traces : s.Traces g list item tokens c) (built : s.table.BuiltFrom g)
    (reached : s.Reached tokens c) (texts : ∀ u ∈ tokens, hasText (label u) = true) {next : Nat}
    (action : s.table.action c.top c.settle.lookahead = .shift next)
    (none : ∀ r found, s.reuse = .some r →
      r.find? (s.gotoKind c.top) c.top c.settle.rest ≠ .ok (.some found))
    (shifted : Setup.shift c.settle next = .ok c') : s.Traces g list item tokens c' := by
  obtain ⟨u, rest, front, rfl⟩ := shift_ok shifted
  have member : u ∈ tokens := by
    refine (moves_rest_suffix reached.moves).subset ((rest_suffix_settle c).subset ?_)
    rw [front]
    exact List.mem_cons_self
  have size : Tree.sizeAll [leaf u] ≠ 0 :=
    Nat.ne_of_gt (Token.size_pos_of_hasText (texts u member))
  refine traces.push [u] (x := .terminal c.settle.lookahead) rfl
    (Table.leads_of_shift built action) ⟨fun _ => ?_, ?_, ?_, ?_⟩ front rfl rfl rfl
  · exact ⟨c, traces.begins reached action
      (fun r found reuse finds => absurd finds (none r found reuse)) size⟩
  · rintro n ⟨⟩
  · rintro (is | is) <;> cases is
  · rintro ⟨⟩

theorem Traces.takeOver (traces : s.Traces g list item tokens c) (lists : g.Lists list item)
    (built : s.table.BuiltFrom g) (reached : s.Reached tokens c)
    (sized : ∀ r, s.reuse = some r → ∀ n ∈ r.nodes, n.2.size ≠ 0) {next : Nat} {r : Reuse}
    {found : Reusable} (action : s.table.action c.top c.settle.lookahead = .shift next)
    (reuse : s.reuse = some r) (finds : r.find? (s.gotoKind c.top) c.top c.settle.rest = .ok (some found)) :
    s.Traces g list item tokens (takeOver c.settle found) := by
  obtain ⟨record, fits⟩ := Reuse.find?_some finds
  obtain ⟨start, known⟩ := fits.known
  obtain ⟨n, named, goto⟩ := Option.bind_eq_some_iff.1 fits.next
  obtain ⟨m, there, node⟩ := Table.nonterminal_of_node built named
  have visible : g.nonterminals[n]?.bind (·.node?) = some found.node.kind := by rw [there]; exact node
  have top : topState c.settle.flush.stack = c.top := top_flush c.settle
  have begins : s.Begins tokens c.settle.flush.stack [found.node] c := by
    refine traces.begins reached action (fun r' found' reuse' finds' => ?_) ?_
    · obtain rfl := Option.some.inj (reuse'.symm.trans reuse)
      obtain rfl := Option.some.inj (Except.ok.inj (finds'.symm.trans finds))
      have recorded := fits.recorded
      cases shape : found'.node with
      | leaf k text => rw [shape] at recorded; cases recorded
      | node k m cs => simp [Tree.nodesAll, Tree.nodes]
    · simpa [Tree.sizeAll] using sized r reuse _ known
  have made : s.Made tokens c.settle.flush.stack found.node := by
    refine ⟨⟨c, begins⟩, ⟨found.next, by rw [top]; exact fits.next⟩,
      (c.settle.rest.drop found.count).map label, ?_, ?_⟩
    · rw [← fits.leaves, ← List.map_append, List.take_append_drop]
      exact begins.rest
    · rw [fits.recorded, top, Token.followOf_map_label, fits.follow, ← fits.state]
  have apart : ∀ l ∈ [g.start, list, item], n ≠ l := by
    rintro l member rfl
    rw [lists.hidden n member] at visible
    cases visible
  refine traces.push (c.settle.rest.take found.count) (x := .nonterminal n) rfl
    (Table.leads_of_goto built goto).2 ⟨fun _ => ⟨c, begins⟩, fun _ _ _ => ⟨_, rfl, made⟩, ?_, ?_⟩ ?_ ?_
    rfl rfl
  · rintro (is | is)
    · exact absurd (Symbol.nonterminal.inj is) (apart list (by simp))
    · exact absurd (Symbol.nonterminal.inj is) (apart g.start (by simp))
  · intro is
    exact absurd (Symbol.nonterminal.inj is) (apart list (by simp))
  · change c.settle.rest = _ ++ c.settle.flush.rest.drop found.count
    rw [rest_flush, List.take_append_drop]
  · change Tree.leavesAll [found.node] = _
    rw [fits.leaves]
    simp [Tree.leavesAll]

/-- An element of two lists put together is in one of them. -/
theorem exists_split {front back ts us : List Tree} (both : ts ++ us = front ++ u :: back) :
    (∃ behind, ts = front ++ u :: behind ∧ back = behind ++ us) ∨
      ∃ before, us = before ++ u :: back ∧ front = ts ++ before := by
  rcases List.append_eq_append_iff.1 both with ⟨before, is, same⟩ | ⟨behind, is, same⟩
  · exact .inr ⟨before, same, is⟩
  · cases behind with
    | nil => exact .inr ⟨[], same.symm, by simp [is]⟩
    | cons v behind =>
      obtain ⟨rfl, rfl⟩ := List.cons.inj same
      exact .inl ⟨behind, is, rfl⟩

theorem Begins.mono {vs : List Tree} (begins : s.Begins tokens below us c)
    (inside : Tree.nodesAll us ⊆ Tree.nodesAll vs) (size : Tree.sizeAll us ≤ Tree.sizeAll vs) :
    s.Begins tokens below vs c :=
  ⟨begins.reached, begins.stack, begins.action, begins.rest,
    fun r found reuse finds => inside (begins.takes r found reuse finds),
    Nat.ne_of_gt (Nat.lt_of_lt_of_le (Nat.pos_of_ne_zero begins.size) size)⟩

theorem nodesAll_made (r : Reduction) (popped : List Entry) (state : Nat) (k : Kind) :
    Tree.nodesAll (popped.flatMap Entry.trees) ⊆ Tree.nodesAll (made r popped state k) := by
  unfold made
  split
  · exact List.Subset.refl _
  · simp only [Tree.nodesAll, Tree.nodes, List.append_nil]
    exact List.subset_cons_self _ _

namespace Traced

/-- The only symbol of a right-hand side. -/
theorem one {popped : List Entry} (traced : s.Traced g list item tokens stack (x :: path))
    (solid : ∀ e ∈ stack.head?, e.isSymbol = true) (pops : Config.pop 1 stack = (popped, below)) :
    s.Sourced g list item tokens below x (popped.flatMap Entry.trees) := by
  obtain ⟨upper, e, lower, rfl, extras, role, _, _, _, sourced⟩ := traced.exists_symbol
  cases upper with
  | nil =>
    rw [pop_append (by simp) role, Config.pop_zero] at pops
    obtain ⟨rfl, rfl⟩ := Prod.mk.inj pops
    simpa [trees_of_symbol role] using sourced
  | cons f upper =>
    have symbol := solid f rfl
    rw [(extras f List.mem_cons_self).1] at symbol
    cases symbol

/-- The two symbols of a right-hand side, with blanks and comments in between. -/
theorem two {popped : List Entry} {y : Symbol} (traced : s.Traced g list item tokens stack (y :: x :: path))
    (solid : ∀ e ∈ stack.head?, e.isSymbol = true) (pops : Config.pop 2 stack = (popped, below)) :
    ∃ first blanks last lower, popped.flatMap Entry.trees = first ++ blanks ++ last ∧
      (∀ v ∈ blanks, v.isLeaf = true) ∧ forest lower = forest below ++ (first ++ blanks) ∧
        s.Sourced g list item tokens below x first ∧ s.Sourced g list item tokens lower y last ∧
          g.Leads (topState below) x (topState lower) := by
  obtain ⟨upper, f, lower, rfl, extras, role, _, rest, _, last⟩ := traced.exists_symbol
  cases upper with
  | nil =>
    obtain ⟨blanks, e, under, rfl, extras', role', top, _, leads, first⟩ := rest.exists_symbol
    rw [pop_append (by simp) role, pop_append (fun f member => (extras' f member).1) role',
      Config.pop_zero] at pops
    obtain ⟨rfl, rfl⟩ := Prod.mk.inj pops
    refine ⟨e.children, forest blanks, f.children, blanks ++ e :: under, ?_, ?_, ?_, first, last,
      top ▸ leads⟩
    · simp [trees_of_symbol role, trees_of_symbol role', forest]
    · intro v member
      obtain ⟨b, inside, tree⟩ := List.mem_flatMap.1 member
      exact (extras' b (List.mem_reverse.1 inside)).2 v tree
    · simp [trees_of_symbol role']
  | cons b upper =>
    have symbol := solid b rfl
    rw [(extras b List.mem_cons_self).1] at symbol
    cases symbol

end Traced

/-- A list of one item. -/
theorem listed_singleton (made : s.Made tokens below u) : s.Listed g list tokens below [u] := by
  intro front v back split _
  cases front with
  | nil =>
    obtain ⟨rfl, rfl⟩ := List.cons.inj split
    exact ⟨below, by simp, made, fun _ => rfl, fun some => nomatch some⟩
  | cons w front => simp at split

/-- A list grows by an item. -/
theorem Listed.concat {first blanks : List Tree} (listed : s.Listed g list tokens below first)
    (some : ∃ v ∈ first, v.isLeaf = false) (leaves : ∀ v ∈ blanks, v.isLeaf = true)
    (shown : forest lower = forest below ++ (first ++ blanks))
    (leads : g.Leads (topState below) (.nonterminal list) (topState lower))
    (made : s.Made tokens lower u) : s.Listed g list tokens below (first ++ blanks ++ [u]) := by
  intro front v back whole node
  rcases exists_split whole with ⟨behind, split, _⟩ | ⟨before, split, rfl⟩
  · rcases exists_split split with ⟨_, split, _⟩ | ⟨before, rfl, _⟩
    · exact listed front v _ split node
    · rw [leaves v (by simp)] at node
      cases node
  · cases before with
    | nil =>
      obtain ⟨rfl, rfl⟩ := List.cons.inj split
      obtain ⟨w, inside, node'⟩ := some
      refine ⟨lower, by simp [shown], made, fun all => ?_, fun _ => leads⟩
      rw [List.all_eq_true.1 all w (by simp [inside])] at node'
      cases node'
    | cons w before => simp at split

theorem made_hidden {r : Reduction} (hidden : r.node? = none) (popped : List Entry) (state : Nat) (k : Kind) :
    made r popped state k = popped.flatMap Entry.trees := by
  rw [made, hidden]

theorem made_visible {r : Reduction} {popped : List Entry} {state : Nat} {k : Kind} {l : Kind}
    (visible : r.node? = some l) (undamaged : ∀ e ∈ popped, e.damaged = false)
    (size : Tree.sizeAll (made r popped state k) ≠ 0) :
    made r popped state k = [.node l { record := some ⟨state, k⟩ } (popped.flatMap Entry.trees)] := by
  have damaged : popped.any (·.damaged) = false :=
    List.any_eq_false.2 fun e inside => by simp [undamaged e inside]
  rw [sizeAll_made] at size
  rw [made, visible]
  simp [damaged, size]

/-- The node of a reduction was made where its first token was next. -/
theorem Begins.made (named : s.table.Named) {p : Nat} {r : Reduction} {popped : List Entry}
    {behind : List Label} {next : Nat} {l : Kind} (known : s.table.reductions[p]? = some r)
    (visible : r.node? = some l) (undamaged : ∀ e ∈ popped, e.damaged = false)
    (goto : s.table.goto? (topState below) r.lhs = some next)
    (whole : word below ++ (word popped.reverse ++ behind) = tokens.map label)
    (begins : s.Begins tokens below (made r popped (topState below) (followOf behind)) c) :
    ∃ u, Setup.made r popped (topState below) (followOf behind) = [u] ∧ s.Made tokens below u := by
  have is := made_visible visible undamaged begins.size
  refine ⟨_, is, ⟨c, is ▸ begins⟩, ⟨next, ?_⟩, behind, ?_, rfl⟩
  · rw [gotoKind, Tree.kind, named known visible]
    exact goto
  · rw [Tree.leaves, leavesAll_flatMap_trees]
    exact whole

namespace Traced

variable {production : Production} {popped : List Entry}

/-- What a reduction takes off begins where the lowest of its symbols was begun. -/
theorem begins_made {rhs : List Symbol} (traced : s.Traced g list item tokens stack (rhs.reverse ++ path))
    (outside : .nonterminal g.start ∉ rhs) (some : rhs ≠ [])
    (pops : Config.pop rhs.length stack = (popped, below)) (r : Reduction) (k : Kind) :
    ∃ c, s.Begins tokens below (made r popped (topState below) k) c := by
  obtain ⟨n, length⟩ := Nat.exists_eq_add_one_of_ne_zero
    (fun none => some (List.eq_nil_of_length_eq_zero none) : rhs.length ≠ 0)
  have enough : n + 1 ≤ (rhs.reverse ++ path).length := by simp [length]
  obtain ⟨e, more, x, first, role, inside, sourced⟩ := traced.lowest enough
  rw [← length, pops] at first sourced
  dsimp only at first sourced
  subst first
  rw [List.take_left' (by rw [List.length_reverse, length]), List.mem_reverse] at inside
  obtain ⟨c, begins⟩ := sourced.begins fun is => outside (is ▸ inside)
  have own : e.trees = e.children := trees_of_symbol role
  refine ⟨c, begins.mono (List.Subset.trans ?_ (nodesAll_made r (e :: more) (topState below) k)) ?_⟩
  · rw [List.flatMap_cons, Tree.nodesAll_append, own]
    exact List.subset_append_left _ _
  · rw [sizeAll_made, List.flatMap_cons, Tree.sizeAll_append, own]
    exact Nat.le_add_right _ _

variable (lists : g.Lists list item) (member : production ∈ g.productions.toList)
  (traced : s.Traced g list item tokens stack (production.rhs.reverse ++ path))
  (solid : ∀ e ∈ stack.head?, e.isSymbol = true)
  (pops : Config.pop production.rhs.length stack = (popped, below))

include lists member traced solid pops

/-- The first item makes a list, any other one makes a list longer. -/
theorem reduce_list (lhs : production.lhs = list) :
    s.Listed g list tokens below (popped.flatMap Entry.trees) ∧
      ∃ u ∈ popped.flatMap Entry.trees, u.isLeaf = false := by
  rcases lists.ofList production member lhs with rhs | rhs
  · rw [rhs] at traced pops
    obtain ⟨u, trees, made⟩ := (traced.one solid pops).single item rfl (.inl rfl)
    rw [trees]
    exact ⟨listed_singleton made, u, List.mem_singleton_self u, made.isLeaf⟩
  · rw [rhs] at traced pops
    obtain ⟨first, blanks, last, lower, trees, leaves, shown, own, other, leads⟩ := traced.two solid pops
    obtain ⟨u, rfl, made⟩ := other.single item rfl (.inl rfl)
    rw [trees]
    exact ⟨(own.listed (.inl rfl)).concat (own.some rfl) leaves shown leads made, u, by simp, made.isLeaf⟩

theorem reduce_start (lhs : production.lhs = g.start) :
    s.Listed g list tokens below (popped.flatMap Entry.trees) := by
  rcases lists.ofStart production member lhs with rhs | rhs
  · rw [rhs, List.length_nil, Config.pop_zero] at pops
    obtain ⟨rfl, rfl⟩ := Prod.mk.inj pops
    intro front u back split
    simp at split
  · rw [rhs] at traced pops
    exact (traced.one solid pops).listed (.inl rfl)

/-- An item is one node. -/
theorem reduce_item (lhs : production.lhs = item) :
    ∃ u, popped.flatMap Entry.trees = [u] ∧ s.Made tokens below u := by
  obtain ⟨m, l, rhs, visible⟩ := lists.ofItem production member lhs
  rw [rhs] at traced pops
  exact (traced.one solid pops).single m rfl (.inr ⟨l, visible⟩)

end Traced

/-- What is known of the node, or the trees, of a reduction. -/
theorem sourced_made (lists : g.Lists list item) (only : g.OnlyStartVanishes) (named : s.table.Named)
    {p : Nat} {production : Production} {r : Reduction} {popped : List Entry} {next : Nat}
    {behind : List Label} (known : s.table.reductions[p]? = some r)
    (member : production ∈ g.productions.toList) (lhs : r.lhs = production.lhs)
    (node : r.node? = g.nonterminals[production.lhs]?.bind (·.node?))
    (traced : s.Traced g list item tokens stack (production.rhs.reverse ++ path))
    (solid : ∀ e ∈ stack.head?, e.isSymbol = true)
    (pops : Config.pop production.rhs.length stack = (popped, below))
    (undamaged : ∀ e ∈ popped, e.damaged = false)
    (goto : s.table.goto? (topState below) r.lhs = some next)
    (whole : word below ++ (word popped.reverse ++ behind) = tokens.map label) :
    s.Sourced g list item tokens below (.nonterminal r.lhs)
      (made r popped (topState below) (followOf behind)) := by
  have begins (some : production.rhs ≠ []) :=
    traced.begins_made (only.outside production member) some pops r (followOf behind)
  have hidden (inside : r.lhs ∈ [g.start, list, item]) :
      made r popped (topState below) (followOf behind) = popped.flatMap Entry.trees :=
    made_hidden (by rw [node, ← lhs, lists.hidden _ inside]) _ _ _
  refine ⟨fun other => ?_, ?_, ?_, ?_⟩
  · exact begins fun none => other (by rw [lhs, only.empty production member none])
  · rintro n ⟨⟩ (rfl | ⟨l, visible⟩)
    · rw [hidden (by simp)]
      exact traced.reduce_item lists member solid pops lhs.symm
    · have some : production.rhs ≠ [] := by
        intro none
        rw [lhs, only.empty production member none, lists.hidden g.start (by simp)] at visible
        cases visible
      obtain ⟨c, begins⟩ := begins some
      exact begins.made named known (by rw [node, ← lhs]; exact visible) undamaged goto whole
  · rintro (is | is)
    · obtain rfl := Symbol.nonterminal.inj is
      rw [hidden (by simp)]
      exact (traced.reduce_list lists member solid pops lhs.symm).1
    · have start := Symbol.nonterminal.inj is
      rw [hidden (by simp [start])]
      exact traced.reduce_start lists member solid pops (lhs.symm.trans start)
  · intro is
    obtain rfl := Symbol.nonterminal.inj is
    rw [hidden (by simp)]
    exact (traced.reduce_list lists member solid pops lhs.symm).2

/-- Below a symbol on top no blanks are moved aside. -/
theorem trailing_of_solid (solid : ∀ e ∈ stack.head?, e.isSymbol = true) :
    stack.takeWhile (!·.isSymbol) = [] ∧ stack.dropWhile (!·.isSymbol) = stack := by
  cases stack with
  | nil => exact ⟨rfl, rfl⟩
  | cons e lower => simp [solid e rfl]

theorem Traces.followOf_eq (traces : s.Traces g list item tokens c) :
    followOf ((c.settle.pending ++ c.settle.rest).map label) = c.settle.lookahead := by
  rw [List.map_append, Token.followOf_append fun l inside => ?_]
  · have text := isTrivia_lookahead_settle c
    unfold lookahead at text ⊢
    cases rest : c.settle.rest with
    | nil => rfl
    | cons u later =>
      rw [rest] at text
      simp [followOf, label, show u.kind.isTrivia = false from text]
  · obtain ⟨u, blank, rfl⟩ := List.mem_map.1 inside
    exact traces.settle.pending u blank

theorem Traces.reduce (traces : s.Traces g list item tokens c) (lists : g.Lists list item)
    (only : g.OnlyStartVanishes) (named : s.table.Named) (built : s.table.BuiltFrom g)
    (undamaged : ∀ e ∈ c.stack, e.damaged = false) {p : Nat}
    (action : s.table.action c.top c.settle.lookahead = .reduce p)
    (reduced : s.reduce c.settle p c.settle.lookahead = .ok c') : s.Traces g list item tokens c' := by
  have ahead := traces.followOf_eq
  obtain ⟨⟨path, traced⟩, solid, whole, pending⟩ := traces.settle
  obtain ⟨r, trailing, popped, below, next, known, trailingIs, pops, goto, rfl⟩ := reduce_ok reduced
  obtain ⟨production, found, lhs, length, rhs, node⟩ := Table.reduction_eq built known
  obtain ⟨d, holds, complete, _⟩ := Table.holds_of_reduce built action
  obtain ⟨is, read, _⟩ := traced.reaches.read_complete holds complete
  rw [(trailing_of_solid solid).1] at trailingIs
  subst trailingIs
  rw [(trailing_of_solid solid).2] at pops
  have parts := pop_split r.length c.settle.stack
  rw [pops] at parts
  rw [rhs] at is read
  rw [length] at pops
  have front : production.rhs.reverse ++ path.drop d = path := by
    rw [← read, List.reverse_reverse, List.take_append_drop]
  have under := traced.pop (n := production.rhs.length) (by rw [← front]; simp)
  rw [pops] at under
  have member : production ∈ g.productions.toList :=
    Array.mem_toList_iff.2 (Array.mem_of_getElem? found)
  have text : word below ++ (word popped.reverse ++ (c.settle.pending ++ c.settle.rest).map label) =
      tokens.map label := by
    rw [← whole, ← parts, word_append, List.append_assoc]
  have inside : ∀ e ∈ popped, e.damaged = false := by
    intro e member
    refine undamaged e (?_ : e ∈ c.settle.stack)
    rw [← parts]
    simp [member]
  have sourced := sourced_made lists only named known member lhs node (front.symm ▸ traced) solid pops
    inside goto text
  rw [ahead] at sourced
  refine ⟨⟨.nonterminal r.lhs :: path.drop production.rhs.length,
    .symbol under rfl (Table.leads_of_goto built goto).2 sourced⟩, ?_, ?_, pending⟩
  · rintro _ ⟨⟩
    rfl
  · rw [← text]
    simp [leavesAll_made]

theorem Reached.traces (lists : g.Lists list item) (only : g.OnlyStartVanishes) (named : s.table.Named)
    (built : s.table.BuiltFrom g) (texts : ∀ u ∈ tokens, hasText (label u) = true)
    (sized : ∀ r, s.reuse = some r → ∀ n ∈ r.nodes, n.2.size ≠ 0) (reached : s.Reached tokens c)
    (quiet : Quiet c) : s.Traces g list item tokens c := by
  unfold Reached at reached
  induction reached with
  | refl => exact .initial
  | @tail before after reached step ih =>
    obtain ⟨spelled, pretending, unharmed, _⟩ := Reached.unharmed built reached
    obtain ⟨still, proceeds⟩ := proceeds_of_step built spelled pretending step quiet
    have traces := ih still
    cases proceeds with
    | reduce action reduced =>
      exact traces.reduce lists only named built (unharmed still) action reduced
    | shift action none shifted => exact traces.shift built reached texts action none shifted
    | takeOver action reuse finds =>
      exact traces.takeOver lists built reached sized action reuse finds

/-- Where a parse accepts, the nodes under the root are listed. -/
theorem Traces.listed (traces : s.Traces g list item tokens c) (built : s.table.BuiltFrom g)
    {k : Kind} (action : s.table.action c.top k = .accept) :
    s.Listed g list tokens [] (root c.settle).children := by
  obtain ⟨path, traced⟩ := traces.path
  obtain rfl := traced.reaches.eq_of_accept built action
  obtain ⟨upper, e, below, stack, extras, role, _, rest, _, sourced⟩ := traced.exists_symbol
  obtain ⟨bottom, leaves⟩ := rest.blank
  have listed := sourced.listed (.inr rfl)
  have trees : (root c.settle).children =
      forest below ++ e.children ++ (forest upper ++ c.settle.pending.map leaf) := by
    change forest c.settle.flush.stack = _
    rw [stack_flush, forest_append, forest_extras, stack_settle, stack, forest_append, forest_cons,
      trees_of_symbol role, List.append_assoc _ (forest upper)]
  rw [trees]
  intro front u back whole node
  rcases exists_split whole with ⟨behind, inner, _⟩ | ⟨before, split, _⟩
  · rcases exists_split inner with ⟨_, below, _⟩ | ⟨before, split, rfl⟩
    · rw [leaves u (by simp [below])] at node
      cases node
    · obtain ⟨lower, shown, made, counts⟩ := listed before u _ split node
      have same : (forest below ++ before).all Tree.isLeaf = before.all Tree.isLeaf := by
        rw [List.all_append, List.all_eq_true.2 leaves, Bool.true_and]
      rw [bottom] at counts
      exact ⟨lower, shown, made, same ▸ counts.first, same ▸ counts.later⟩
  · have leaf : u ∈ forest upper ++ c.settle.pending.map leaf := by simp [split]
    rcases List.mem_append.1 leaf with inside | inside
    · obtain ⟨f, member, tree⟩ := List.mem_flatMap.1 inside
      rw [(extras f (List.mem_reverse.1 member)).2 u tree] at node
      cases node
    · obtain ⟨v, _, rfl⟩ := List.mem_map.1 inside
      cases node

end Setup
end ShaderTree
