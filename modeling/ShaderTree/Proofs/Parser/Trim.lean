import ShaderTree.Proofs.Parser.Bound
import ShaderTree.Proofs.Tree.Shape

/-! Blanks and comments stay between nodes. What a node takes up starts and ends with a symbol of the
stack, or with text given up, and these start and end with something else than a blank; nothing but the
empty program is a symbol without children, and no node takes that up. -/
namespace ShaderTree

namespace Tree

def isBlank : Tree → Bool
  | leaf k _ => k.isTrivia
  | node .. => false

/-- There are trees, and neither the first nor the last one is blank. -/
structure Trim (ts : List Tree) : Prop where
  first : ∃ t, ts.head? = some t ∧ t.isBlank = false
  last : ∃ t, ts.getLast? = some t ∧ t.isBlank = false

/-- The children of each node in the trees are trim. -/
def TrimIn (ts : List Tree) : Prop := ∀ u ∈ nodesAll ts, Trim u.children

variable {t : Tree} {ts us vs : List Tree}

theorem trim_singleton (solid : t.isBlank = false) : Trim [t] := ⟨⟨t, rfl, solid⟩, ⟨t, rfl, solid⟩⟩

/-- Only the ends matter. -/
theorem Trim.around (front : Trim ts) (back : Trim vs) : Trim (ts ++ us ++ vs) := by
  obtain ⟨t, first, solid⟩ := front.first
  obtain ⟨v, last, solid'⟩ := back.last
  refine ⟨⟨t, ?_, solid⟩, ⟨v, ?_, solid'⟩⟩
  · rw [List.append_assoc, List.head?_append, first, Option.some_or]
  · rw [List.getLast?_append, last, Option.some_or]

@[simp] theorem trimIn_nil : TrimIn [] := fun _ member => nomatch member

theorem trimIn_append : TrimIn (ts ++ us) ↔ TrimIn ts ∧ TrimIn us := by
  simp only [TrimIn, nodesAll_append, List.mem_append, or_imp, forall_and]

theorem trimIn_node {k : Kind} {m : Mark} : TrimIn [node k m ts] ↔ Trim ts ∧ TrimIn ts := by
  simp only [TrimIn, nodesAll, nodes, List.append_nil, List.mem_cons, forall_eq_or_imp, children]

theorem trimIn_leaf (k : Kind) (text : String) : TrimIn [leaf k text] := fun _ member => nomatch member

theorem trimIn_flatMap {α : Type} {f : α → List Tree} {xs : List α} :
    TrimIn (xs.flatMap f) ↔ ∀ x ∈ xs, TrimIn (f x) := by
  induction xs with
  | nil => simp
  | cons x xs ih => rw [List.flatMap_cons, trimIn_append, ih, List.forall_mem_cons]

theorem trimIn_map_leaf (tokens : List Token) : TrimIn (tokens.map Config.leaf) := by
  induction tokens with
  | nil => exact trimIn_nil
  | cons t ts ih => exact trimIn_append.2 ⟨trimIn_leaf t.kind t.text, ih⟩

theorem TrimIn.of_placedNodes {root u : Tree} {offset start : Nat} (trim : TrimIn root.children)
    (marked : root.record? = none) (member : (start, u) ∈ placedNodes offset root)
    (recorded : u.record? ≠ none) : TrimIn [u] := by
  cases root with
  | leaf k text => cases member
  | node k m cs =>
    rcases List.mem_cons.1 member with is | below
    · obtain ⟨_, rfl⟩ := Prod.mk.inj is
      exact absurd marked recorded
    · intro v inside
      rw [nodesAll, nodesAll, List.append_nil] at inside
      exact trim v (nodes_of_placedNodesAll below inside)

/-! Marks do not matter. -/

theorem isBlank_plain (t : Tree) : t.plain.isBlank = t.isBlank := by
  cases t <;> rfl

theorem trim_plainAll : Trim (plainAll ts) ↔ Trim ts := by
  constructor
  · rintro ⟨⟨t, first, solid⟩, ⟨v, last, solid'⟩⟩
    rw [plainAll_eq_map, List.head?_map] at first
    rw [plainAll_eq_map, List.getLast?_map] at last
    obtain ⟨t, first', rfl⟩ := Option.map_eq_some_iff.1 first
    obtain ⟨v, last', rfl⟩ := Option.map_eq_some_iff.1 last
    exact ⟨⟨t, first', isBlank_plain t ▸ solid⟩, ⟨v, last', isBlank_plain v ▸ solid'⟩⟩
  · rintro ⟨⟨t, first, solid⟩, ⟨v, last, solid'⟩⟩
    refine ⟨⟨t.plain, ?_, (isBlank_plain t).trans solid⟩, ⟨v.plain, ?_, (isBlank_plain v).trans solid'⟩⟩
    · rw [plainAll_eq_map, List.head?_map, first, Option.map_some]
    · rw [plainAll_eq_map, List.getLast?_map, last, Option.map_some]

theorem trimIn_plainAll : TrimIn (plainAll ts) ↔ TrimIn ts := by
  have children (u : Tree) : Trim u.plain.children ↔ Trim u.children := by
    rw [children_plain, ← plainAll_eq_map, trim_plainAll]
  simp only [TrimIn, nodesAll_plainAll, List.forall_mem_map, children]

theorem TrimIn.numberAllFrom (next : Nat) (trim : TrimIn ts) : TrimIn (numberAllFrom next ts).1 := by
  rwa [← trimIn_plainAll, plainAll_numberAllFrom, trimIn_plainAll]

end Tree

open ShaderTree.Tree

namespace Config

variable {c c' : Config}

/-- Entries taken off a stack, down to a symbol: the outer ones are that symbol and the top. -/
theorem exists_ends_of_pop {n : Nat} {stack : List Entry}
    (enough : n + 1 ≤ (stack.filter Entry.isSymbol).length) :
    (∃ e, (pop (n + 1) stack).1.head? = some e ∧ e ∈ stack ∧ e.isSymbol = true) ∧
      (pop (n + 1) stack).1.getLast? = stack.head? := by
  induction stack generalizing n with
  | nil => cases enough
  | cons e below ih =>
    simp only [pop, List.getLast?_append, List.getLast?_singleton, Option.some_or, List.head?_cons,
      and_true]
    cases role : e.isSymbol with
    | false =>
      rw [List.filter_cons_of_neg (by simp [role])] at enough
      obtain ⟨⟨f, first, member, symbol⟩, _⟩ := ih enough
      exact ⟨f, by simp [first], .tail _ member, symbol⟩
    | true =>
      rw [List.filter_cons_of_pos role, List.length_cons] at enough
      cases n with
      | zero => exact ⟨e, by simp [pop], .head _, role⟩
      | succ n =>
        obtain ⟨⟨f, first, member, symbol⟩, _⟩ := ih (Nat.le_of_succ_le_succ enough)
        exact ⟨f, by simp [first], .tail _ member, symbol⟩

/-- Entries whose outer ones are trim are trim together. -/
theorem trim_flatMap {entries : List Entry} {e f : Entry} (first : entries.head? = some e)
    (last : entries.getLast? = some f) (trim : Trim e.trees) (trim' : Trim f.trees) :
    Trim (entries.flatMap Entry.trees) := by
  obtain ⟨rest, rfl⟩ := List.head?_eq_some_iff.1 first
  rcases List.eq_nil_or_concat' rest with rfl | ⟨middle, f', rfl⟩
  · simpa using trim
  · rw [← List.cons_append, List.getLast?_concat] at last
    obtain rfl := Option.some.inj last
    rw [List.flatMap_cons, List.flatMap_append, List.flatMap_singleton, ← List.append_assoc]
    exact trim.around trim'

/-- What is taken off a stack is trim, if the symbols and the top are. -/
theorem trim_pop {n : Nat} {stack : List Entry} (symbols : ∀ e ∈ stack, e.isSymbol = true → Trim e.trees)
    (top : ∀ e, stack.head? = some e → Trim e.trees)
    (enough : n + 1 ≤ (stack.filter Entry.isSymbol).length) :
    Trim ((pop (n + 1) stack).1.flatMap Entry.trees) := by
  obtain ⟨⟨e, first, member, symbol⟩, last⟩ := exists_ends_of_pop enough
  obtain ⟨f, rest, rfl⟩ := List.exists_cons_of_ne_nil (List.ne_nil_of_mem member)
  exact trim_flatMap first last (symbols e member symbol) (top f rfl)

theorem length_statesOf (stack : List Entry) :
    (statesOf stack).length = (stack.filter Entry.isSymbol).length + 1 := by
  simp [statesOf]

/-- All symbols are trim, and what is on top too. -/
structure Tidy (c : Config) : Prop where
  nodes : ∀ e ∈ c.stack, TrimIn e.trees
  symbols : ∀ e ∈ c.stack, e.isSymbol = true → Trim e.trees
  top : ∀ e, c.stack.head? = some e → Trim e.trees

theorem trimIn_extras (state : Nat) (tokens : List Token) : ∀ e ∈ extras state tokens, TrimIn e.trees := by
  intro e member
  obtain ⟨t, _, rfl⟩ := List.mem_map.1 (List.mem_reverse.1 member)
  exact trimIn_leaf t.kind t.text

theorem trimIn_flush (nodes : ∀ e ∈ c.stack, TrimIn e.trees) : ∀ e ∈ c.flush.stack, TrimIn e.trees := by
  intro e member
  rw [flush_eq] at member
  rcases List.mem_append.1 member with blank | old
  · exact trimIn_extras _ _ e blank
  · exact nodes e old

theorem tidy_cons {e : Entry} {below : List Entry} (nodes : ∀ e ∈ below, TrimIn e.trees)
    (symbols : ∀ e ∈ below, e.isSymbol = true → Trim e.trees) (stack : c.stack = e :: below)
    (inside : TrimIn e.trees) (own : Trim e.trees) : c.Tidy := by
  refine ⟨?_, ?_, ?_⟩
  · rw [stack]
    exact List.forall_mem_cons.2 ⟨inside, nodes⟩
  · rw [stack]
    exact List.forall_mem_cons.2 ⟨fun _ => own, symbols⟩
  · rw [stack]
    rintro _ ⟨⟩
    exact own

/-- Blanks may be put below what is put on top. -/
theorem Tidy.push (tidy : c.Tidy) {e : Entry} (stack : c'.stack = e :: c.flush.stack)
    (inside : TrimIn e.trees) (own : Trim e.trees) : c'.Tidy := by
  refine tidy_cons (trimIn_flush tidy.nodes) (fun f member symbol => ?_) stack inside own
  rw [flush_eq] at member
  rcases List.mem_append.1 member with blank | old
  · obtain ⟨t, _, rfl⟩ := List.mem_map.1 (List.mem_reverse.1 blank)
    cases symbol
  · exact tidy.symbols f old symbol

theorem tidy_initial (tokens : List Token) : (initial tokens).Tidy :=
  ⟨by simp [initial], by simp [initial], by simp [initial]⟩

/-- The empty program is on the stack, and the table accepts. -/
structure Closed (t : Table) (c : Config) : Prop where
  reading : c.inserting = none
  atEnd : c.settle.lookahead = .eof
  action : t.action c.top .eof = .accept
  nodes : ∀ e ∈ c.stack, TrimIn e.trees

end Config

/-- The nodes that may be taken over are trim. -/
def Reuse.Trim (r : Reuse) : Prop := ∀ n ∈ r.nodes, n.2.record? ≠ none → TrimIn [n.2]

namespace Setup

open Config

variable {g : Grammar} {s : Setup} {c c' : Config}

theorem not_move_of_closed (closed : c.Closed s.table) (move : Move s c c') : False := by
  obtain ⟨reading, atEnd, accept, _⟩ := closed
  cases move with
  | insertReduce inserting => cases reading.symm.trans inserting
  | insertShift inserting => cases reading.symm.trans inserting
  | insertStop inserting => cases reading.symm.trans inserting
  | reduce _ _ action => cases accept.symm.trans (atEnd ▸ action)
  | shift _ _ action => cases accept.symm.trans (atEnd ▸ action)
  | takeOver _ _ action => cases accept.symm.trans (atEnd ▸ action)
  | insert _ _ action => cases accept.symm.trans (atEnd ▸ action)
  | wrap _ _ action => cases accept.symm.trans (atEnd ▸ action)
  | skip _ _ action => cases accept.symm.trans (atEnd ▸ action)

/-- What a reduction takes off the stack is trim, if it takes anything. -/
theorem trim_popped (tidy : c.Tidy) {p : Nat} {r : Reduction} {after : List Nat} {popped below : List Entry}
    (known : s.table.reductions[p]? = some r)
    (reduced : s.table.reduceStates p c.states = some after)
    (split : pop r.length (c.stack.dropWhile (!·.isSymbol)) = (popped, below)) (some : r.length ≠ 0) :
    Trim (popped.flatMap Entry.trees) := by
  obtain ⟨n, length⟩ := Nat.exists_eq_add_one_of_ne_zero some
  have enough : n + 1 ≤ ((c.stack.dropWhile (!·.isSymbol)).filter Entry.isSymbol).length := by
    obtain ⟨r', base, under, _, known', dropped, _, _⟩ := Table.reduceStates_ok reduced
    obtain rfl := Option.some.inj (known'.symm.trans known)
    have inside := congrArg List.length dropped
    have count := length_statesOf (c.stack.dropWhile (!·.isSymbol))
    rw [statesOf_dropWhile] at count
    rw [List.length_drop, List.length_cons, show c.states = statesOf c.stack from rfl, count] at inside
    omega
  have symbols : ∀ e ∈ c.stack.dropWhile (!·.isSymbol), e.isSymbol = true → Trim e.trees :=
    fun e member => tidy.symbols e (List.dropWhile_subset _ member)
  have trim := trim_pop symbols (fun e top => ?_) enough
  · rwa [← length, split] at trim
  · have refused := List.head?_dropWhile_not (!·.isSymbol) c.stack
    rw [top] at refused
    exact symbols e (List.mem_of_head? top) (by simpa using refused)

/-- An empty production is that of the empty program. It is taken at the end of input only, and the table
accepts behind it. -/
theorem accept_of_nothing (only : g.OnlyStartVanishes) (built : s.table.BuiltFrom g) {p : Nat} {k : Kind}
    (spelled : c.Spelled g) (spelled' : c'.Spelled g) (action : s.table.action c.top k = .reduce p)
    (reduced : s.table.reduceStates p c.states = some c'.states) {production : Production}
    (found : g.productions[p]? = some production) (nothing : production.rhs = []) :
    k = .eof ∧ s.table.action c'.top .eof = .accept := by
  obtain ⟨path, spells⟩ := spelled.path
  obtain ⟨below, states⟩ := spelled.states_eq
  rw [states] at spells reduced
  obtain ⟨production', front, rule, whole, spells'⟩ := spells.reduce built action reduced
  obtain rfl := Option.some.inj (rule.1.symm.trans found)
  have lhs := only.empty production' rule.mem nothing
  obtain ⟨_, d, looks, complete⟩ := Table.completes_of_reduce built action
  have dot : d = 0 := by
    have length := (spells.reaches.read_complete looks.holds complete).1
    rw [Grammar.rhs, rule.1] at length
    dsimp only at length
    rw [← length, nothing, List.length_nil]
  subst dot
  have eof : k = .eof := Kind.index_injective
    (Grammar.eof_of_looks only.outside looks (.inr ⟨production', rule.1, lhs⟩))
  have empty : path = [] := spells.reaches.eq_nil_of_startItem
    (Grammar.holds_startItem_of_start only.outside rule lhs looks.holds)
  obtain ⟨below', states'⟩ := spelled'.states_eq
  rw [empty, List.reverse_nil] at whole
  obtain ⟨rfl, _⟩ := List.append_eq_nil_iff.1 whole.symm
  rw [lhs, List.reverse_nil, states'] at spells'
  cases spells' with
  | step before leads =>
    obtain rfl := top_eq_zero before
    exact ⟨eof, Table.action_eof_accept built leads⟩

/-- A reduction of symbols is trim. The one of no symbols makes the empty program, at the end. -/
theorem tidy_reduce (only : g.OnlyStartVanishes)
    (hidden : g.nonterminals[g.start]?.bind (·.node?) = none) (built : s.table.BuiltFrom g)
    (spelled : c.Spelled g) (tidy : c.Tidy) {p : Nat} {k : Kind}
    (action : s.table.action c.top k = .reduce p) (h : s.reduce c p k = .ok c') :
    c'.Tidy ∨ k = .eof ∧ s.table.action c'.top .eof = .accept ∧ ∀ e ∈ c'.stack, TrimIn e.trees := by
  obtain ⟨reduced, spelled'⟩ := spelled_reduce built rfl spelled action h
  obtain ⟨r, trailing, popped, below, next, known, trailingIs, split, _, is⟩ := reduce_ok h
  obtain ⟨production, found, _, length, _, node⟩ := Table.reduction_eq built known
  have old (e : Entry) (member : e ∈ popped ∨ e ∈ below) : e ∈ c.stack := by
    apply (List.dropWhile_suffix (!·.isSymbol)).subset
    apply mem_of_pop (n := r.length)
    rw [split]
    exact member
  have inner : TrimIn (popped.flatMap Entry.trees) :=
    trimIn_flatMap.2 fun e member => tidy.nodes e (old e (.inl member))
  have kept (own : TrimIn (made r popped (topState below) k)) : ∀ e ∈ c'.stack, TrimIn e.trees := by
    intro e member
    rw [is] at member
    rcases List.mem_append.1 member with moved | member
    · obtain ⟨f, there, rfl⟩ := List.mem_map.1 moved
      exact tidy.nodes f (List.takeWhile_subset _ (trailingIs ▸ there))
    · rcases List.mem_cons.1 member with rfl | under
      · exact own
      · exact tidy.nodes e (old e (.inr under))
  by_cases nothing : production.rhs = []
  · obtain ⟨rfl, accept⟩ := accept_of_nothing only built spelled spelled' action reduced found nothing
    have start := only.empty production (Array.mem_toList_iff.2 (Array.mem_of_getElem? found)) nothing
    refine .inr ⟨rfl, accept, kept ?_⟩
    rw [start, hidden] at node
    rw [made, node]
    exact inner
  · have children := trim_popped tidy known reduced split
      fun none => nothing (List.eq_nil_of_length_eq_zero (length.symm.trans none))
    have own : Trim (made r popped (topState below) k) ∧ TrimIn (made r popped (topState below) k) := by
      unfold made
      split
      · exact ⟨children, inner⟩
      · exact ⟨trim_singleton rfl, trimIn_node.2 ⟨children, inner⟩⟩
    refine .inl ⟨kept own.2, ?_, ?_⟩
    · intro f member symbol
      rw [is] at member
      rcases List.mem_append.1 member with moved | member
      · obtain ⟨e, there, rfl⟩ := List.mem_map.1 moved
        have extra := List.mem_takeWhile_imp (trailingIs ▸ there)
        have same : e.isSymbol = true := symbol
        simp [same] at extra
      · rcases List.mem_cons.1 member with rfl | under
        · exact own.1
        · exact tidy.symbols f (old f (.inr under)) symbol
    · intro f top
      rw [is] at top
      cases above : trailing with
      | nil =>
        rw [above] at top
        obtain rfl := Option.some.inj top
        exact own.1
      | cons e rest =>
        rw [above] at top
        obtain rfl := Option.some.inj top
        have front : (c.stack.takeWhile (!·.isSymbol)).head? = some e := by rw [← trailingIs, above]; rfl
        rw [List.head?_takeWhile] at front
        exact tidy.top e (Option.filter_eq_some_iff.1 front).1

theorem tidy_skip (tidy : c.Tidy) (read : c.lookahead.isTrivia = false) (h : s.skip c = .ok c') :
    c'.Tidy := by
  obtain ⟨u, rest, front, rfl⟩ := skip_ok h
  have solid : u.kind.isTrivia = false := by
    rw [lookahead, front] at read
    exact read
  unfold pushSkipped
  split
  · rename_i state damaged offset children below _ stack
    have old : ∀ e ∈ below, e ∈ c.stack := fun e member => by simp [stack, member]
    have own := tidy.nodes ⟨state, .skipped, damaged, offset, children⟩ (by simp [stack])
    obtain ⟨trim, inside⟩ := trimIn_node.1 own
    have grown : Trim (children ++ c.pending.map Config.leaf ++ [Config.leaf u]) :=
      trim.around (trim_singleton solid)
    have inside' : TrimIn (children ++ c.pending.map Config.leaf ++ [Config.leaf u]) :=
      trimIn_append.2 ⟨trimIn_append.2 ⟨inside, trimIn_map_leaf _⟩, trimIn_leaf _ _⟩
    exact tidy_cons (fun e member => tidy.nodes e (old e member))
      (fun e member => tidy.symbols e (old e member)) rfl (trimIn_node.2 ⟨grown, inside'⟩)
      (trim_singleton rfl)
  · exact tidy.push rfl (trimIn_node.2 ⟨trim_singleton solid, trimIn_leaf _ _⟩) (trim_singleton rfl)

theorem tidy_wrap (tidy : c.Tidy) {depth : Nat} (k : Kind) (inside : depth + 1 < c.states.length) :
    (Setup.wrap c (depth + 1) k).Tidy := by
  have count : c.states.length = (c.stack.filter Entry.isSymbol).length + 1 := length_statesOf c.stack
  have trim := trim_pop tidy.symbols tidy.top (n := depth) (by omega)
  have below : TrimIn ((pop (depth + 1) c.stack).1.flatMap Entry.trees) :=
    trimIn_flatMap.2 fun e member => tidy.nodes e (mem_of_pop (.inl member))
  exact tidy_cons (fun e member => tidy.nodes e (mem_of_pop (.inr member)))
    (fun e member => tidy.symbols e (mem_of_pop (.inr member))) rfl (trimIn_node.2 ⟨trim, below⟩)
    (trim_singleton rfl)

theorem Move.tidy (only : g.OnlyStartVanishes)
    (hidden : g.nonterminals[g.start]?.bind (·.node?) = none) (built : s.table.BuiltFrom g)
    (old : ∀ r, s.reuse = some r → r.Trim) (spelled : c.Spelled g) (pretending : s.Pretending c)
    (tidy : c.Tidy) (move : Move s c c') : c'.Tidy ∨ c'.Closed s.table := by
  have settled : c.settle.Tidy := ⟨tidy.nodes, tidy.symbols, tidy.top⟩
  have read := isTrivia_lookahead_settle c
  cases move with
  | insertReduce inserting action reduced =>
    rcases tidy_reduce only hidden built spelled tidy action reduced with tidy' | ⟨rfl, _⟩
    · exact .inl tidy'
    · exact absurd (pretending _ inserting).1 (by decide)
  | @insertShift k _ inserting =>
    have closers : ∀ k ∈ Repair.insertable, k.isTrivia = false := by decide
    have solid := closers k (pretending k inserting).1
    exact .inl (tidy_cons tidy.nodes tidy.symbols rfl
      (trimIn_node.2 ⟨trim_singleton solid, trimIn_leaf _ _⟩) (trim_singleton rfl))
  | insertStop => exact .inl ⟨tidy.nodes, tidy.symbols, tidy.top⟩
  | reduce reading _ action reduced =>
    rcases tidy_reduce only hidden built spelled.settle settled action reduced with
      tidy' | ⟨eof, accept, nodes⟩
    · exact .inl tidy'
    · obtain ⟨rest, inserting, _⟩ := reduce_frame reduced
      refine .inr ⟨inserting.trans reading, ?_, accept, nodes⟩
      rw [settle_eq_of_rest rest, lookahead, rest]
      exact eof
  | shift _ _ _ shifted =>
    obtain ⟨u, rest, front, rfl⟩ := shift_ok shifted
    have solid : u.kind.isTrivia = false := by
      rw [lookahead, front] at read
      exact read
    exact .inl (settled.push rfl (trimIn_leaf _ _) (trim_singleton solid))
  | @takeOver _ _ found _ _ _ reuse finds =>
    obtain ⟨record, fits⟩ := Reuse.find?_some finds
    obtain ⟨start, known⟩ := fits.known
    have recorded : found.node.record? ≠ none := by
      rw [fits.recorded]
      exact Option.some_ne_none _
    have solid : found.node.isBlank = false := by
      cases shape : found.node with
      | leaf k text =>
        rw [shape] at recorded
        exact absurd rfl recorded
      | node => rfl
    exact .inl (settled.push rfl (old _ reuse _ known recorded) (trim_singleton solid))
  | insert => exact .inl ⟨settled.nodes, settled.symbols, settled.top⟩
  | wrap _ _ _ repair => exact .inl (tidy_wrap settled _ (Repair.wrap_cases repair).1)
  | skip _ _ _ _ _ skipped => exact .inl (tidy_skip settled read skipped)

/-- The nodes under the root are trim where a run ends. -/
theorem trimIn_of_run (only : g.OnlyStartVanishes)
    (hidden : g.nonterminals[g.start]?.bind (·.node?) = none) (built : s.table.BuiltFrom g)
    (old : ∀ r, s.reuse = some r → r.Trim) {tokens : List Token} {fuel : Nat}
    (h : s.run fuel (.initial tokens) = .ok c) : TrimIn (Setup.root c).children := by
  obtain ⟨last, moves, final⟩ := run_cases h
  have kept : last.Spelled g ∧ s.Pretending last ∧ (last.Tidy ∨ last.Closed s.table) := by
    clear final
    induction moves with
    | refl => exact ⟨spelled_initial tokens, pretending_of_reading rfl, .inl (tidy_initial tokens)⟩
    | tail _ move ih =>
      obtain ⟨spelled, pretending, tidy | closed⟩ := ih
      · exact ⟨move.spelled_of_built built spelled, move.pretending built spelled pretending,
          move.tidy only hidden built old spelled pretending tidy⟩
      · exact (not_move_of_closed closed move).elim
  have nodes : ∀ e ∈ c.stack, TrimIn e.trees := by
    have same : c.stack = last.stack := by cases final <;> rfl
    rw [same]
    exact kept.2.2.elim (·.nodes) (·.nodes)
  exact trimIn_flatMap.2 fun e member => trimIn_flush nodes e (List.mem_reverse.1 member)

end Setup

/-- The nodes under the root are trim, and the root itself is not one to take over. -/
structure Document.Trim (d : Document) : Prop where
  unrecorded : d.root.record? = none
  inside : TrimIn d.root.children

theorem Reuse.trim_ofDocument {old : Document} (trim : old.Trim) (map : EditMap) :
    (ofDocument old map).Trim := fun _ member recorded =>
  trim.inside.of_placedNodes trim.unrecorded (List.mem_filter.1 member).1 recorded

theorem Document.Trim.numbered {d : Document} (trim : d.Trim) (next : Nat) : (d.numbered next).Trim := by
  obtain ⟨unrecorded, inside⟩ := trim
  cases shape : d.root with
  | leaf k text =>
    rw [shape] at unrecorded inside
    refine ⟨?_, ?_⟩ <;> simp only [Document.numbered, shape, numberFrom]
    · exact unrecorded
    · exact inside
  | node k m cs =>
    rw [shape] at unrecorded inside
    have record : m.record = none := unrecorded
    refine ⟨?_, ?_⟩ <;> simp only [Document.numbered, shape, numberFrom]
    · split <;> exact record
    · split
      · exact inside
      · exact TrimIn.numberAllFrom _ inside

theorem Parser.trim_of_runOn {g : Grammar} {p : Parser} (only : g.OnlyStartVanishes)
    (hidden : g.nonterminals[g.start]?.bind (·.node?) = none)
    (built : Table.build g = .ok p.language.table) {reuse : Option Reuse}
    (old : ∀ r, reuse = some r → r.Trim) {text : String} {tokens : List Token} {d : Document}
    (h : p.runOn text tokens reuse = .ok d) : d.Trim := by
  unfold runOn at h
  dsimp only at h
  cases ran : (p.setup reuse).run ((p.setup reuse).stepBound tokens.length) (.initial tokens) with
  | error f => rw [ran] at h; cases h
  | ok c =>
    rw [ran] at h
    obtain rfl := Except.ok.inj h
    exact ⟨rfl, Setup.trimIn_of_run only hidden (Table.build_ok built) old ran⟩

theorem Parsed.trim {g : Grammar} (only : g.OnlyStartVanishes)
    (hidden : g.nonterminals[g.start]?.bind (·.node?) = none) {text : String} {d : Document}
    (h : Parsed (fun l => Table.build g = .ok l.table) text d) : d.Trim := by
  induction h with
  | parse known parsed => exact Parser.trim_of_runOn only hidden known (by simp) parsed
  | @reparse p text newText old d changes edits known _ _ parsed ih =>
    rcases Parser.runOn_of_reparse parsed with parsed | ⟨map, tokens, _, _, _, _, parsed⟩
    · exact Parser.trim_of_runOn only hidden known (by simp) parsed
    · refine Parser.trim_of_runOn only hidden known ?_ parsed
      rintro r ⟨⟩
      exact Reuse.trim_ofDocument ih map
  | number next _ ih => exact ih.numbered next

end ShaderTree
