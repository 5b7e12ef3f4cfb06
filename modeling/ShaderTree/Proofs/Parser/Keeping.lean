import ShaderTree.Proofs.Parser.Errorfree
import ShaderTree.Proofs.Parser.Records

/-! Every move of a parse keeps what the parse relies on, so the records in every tree can be trusted:
where the table is steady, or where nothing was reported. -/
namespace ShaderTree

open Token (Label label kindOf)

namespace Setup

open Config

variable {g : Grammar} {t : Table} {s : Setup} {c c' : Config}

theorem cell_extras (state : Nat) (tokens : List Token) :
    (extras state tokens).map Entry.cell = Cell.blanks state (tokens.map label) := by
  rw [extras, Cell.blanks, List.map_reverse, List.map_map, List.map_map]
  rfl

theorem isSymbol_extras {state : Nat} {tokens : List Token} :
    ∀ e ∈ extras state tokens, e.isSymbol = false := by
  intro e member
  obtain ⟨u, _, rfl⟩ := List.mem_map.1 (List.mem_reverse.1 member)
  rfl

theorem allRememberedIn_extras (state : Nat) (tokens : List Token) :
    ∀ e ∈ extras state tokens, Tree.AllRememberedIn t e.children := by
  intro e member
  obtain ⟨u, _, rfl⟩ := List.mem_map.1 (List.mem_reverse.1 member)
  simp [leaf]

theorem stack_flush (c : Config) : c.flush.stack = extras c.top c.pending ++ c.stack := by
  rw [flush_eq]

/-- A symbol put on the blanks that were set aside is built with them on what is below. -/
theorem buildsOn_pushed {e : Entry} {k : Kind} (kept : c.Kept t) (reading : c.inserting = none)
    (own : t.Builds c.top k (Tree.leavesAll e.children) [e.cell])
    (grown : ∀ {base : Nat} {ls : List Label} {cells : List Cell},
      t.Builds base c.terminal ls cells → Cell.top base cells = c.top →
        t.Builds base k (ls ++ c.pending.map label ++ Tree.leavesAll e.children)
          (e.cell :: (Cell.blanks c.top (c.pending.map label) ++ cells))) :
    t.BuildsOn k (e :: (extras c.top c.pending ++ c.stack)) := by
  intro upper lower is whole
  cases upper with
  | nil => exact .nil k
  | cons f upper =>
    rw [List.cons_append] at is
    obtain ⟨rfl, parts⟩ := List.cons.inj is
    cases last : upper.getLast? with
    | none =>
      obtain rfl := List.getLast?_eq_none_iff.1 last
      have top : topState lower = c.top := by
        rw [← show _ = lower from parts, ← stack_flush]
        exact top_flush c
      rw [word_cons, word_nil, List.nil_append, top]
      exact own
    | some d =>
      have isSymbol : d.isSymbol = true := whole.ends d (by
        cases upper with
        | nil => cases last
        | cons b upper => rw [List.getLast?_cons_cons]; exact last)
      have inside : d ∈ upper := List.mem_of_getLast? last
      rcases List.append_eq_append_iff.1 parts with ⟨front, rfl, stack⟩ | ⟨front, blank, _⟩
      · have among : d ∈ front := by
          rcases List.mem_append.1 inside with member | member
          · rw [isSymbol_extras d member] at isSymbol
            cases isSymbol
          · exact member
        have undamaged : ∀ e ∈ c.stack.takeWhile (!·.isSymbol), e.damaged = false := by
          intro e member
          have short : c.stack.takeWhile (!·.isSymbol) = front.takeWhile (!·.isSymbol) := by
            rw [stack, List.takeWhile_append, if_neg]
            intro all
            have whole : front.takeWhile (!·.isSymbol) = front :=
              (List.takeWhile_prefix _).eq_of_length all
            have none := List.takeWhile_eq_self_iff.1 whole d among
            rw [isSymbol] at none
            cases none
          rw [short] at member
          exact whole.undamaged e (List.mem_cons_of_mem _
            (List.mem_append_right _ (List.takeWhile_subset _ member)))
        have symbols : symbols c.stack = c.stack := by
          have split := List.takeWhile_append_dropWhile (p := (!·.isSymbol)) (l := c.stack)
          rw [kept.clear undamaged, List.nil_append] at split
          exact split
        have builds := kept.ready reading undamaged
        rw [symbols] at builds
        have before := builds front lower stack ⟨fun e member => whole.undamaged e
          (List.mem_cons_of_mem _ (List.mem_append_right _ member)), fun e isLast => by
            rw [List.getLast?_append_of_ne_nil _ (List.ne_nil_of_mem among)] at last
            obtain rfl := Option.some.inj (last.symm.trans isLast)
            exact isSymbol⟩
        have all := grown before (by rw [top_cells, ← stack]; rfl)
        rw [word_cons, word_append, word_extras, List.map_cons, List.map_append, cell_extras]
        exact all
      · rw [isSymbol_extras d (blank ▸ List.mem_append_left _ inside)] at isSymbol
        cases isSymbol

theorem terminal_of_settled (settled : c.settle = c) (reading : c.inserting = none) :
    c.terminal = c.lookahead := by
  rw [terminal, reading, settled]
  rfl

theorem lookahead_settle (c : Config) : c.settle.lookahead = Reuse.followKind c.rest := by
  have heads (tokens : List Token) : Reuse.followKind tokens =
      ((tokens.dropWhile (·.kind.isTrivia)).head?.map (·.kind)).getD .eof := by
    induction tokens with
    | nil => rfl
    | cons u us ih => cases trivia : u.kind.isTrivia <;> simp_all [Reuse.followKind]
  rw [heads, Config.lookahead, settle]
  dsimp only
  cases c.rest.dropWhile (·.kind.isTrivia) <;> rfl

/-- A symbol is put on the blanks that were set aside. -/
theorem kept_pushed {e : Entry} (kept : c.Kept t) (stand : t.AllStand c.stack)
    (stack : c'.stack = e :: c.flush.stack) (role : e.role = .symbol) (pending : c'.pending = [])
    (builds : t.BuildsOn c'.terminal (e :: (extras c.top c.pending ++ c.stack)))
    (records : Tree.AllRememberedIn t e.children) : c'.Kept t := by
  rw [stack_flush] at stack
  have single : c'.stack = [] ++ e :: (extras c.top c.pending ++ c.stack) := stack
  refine kept_of_symbol single (by simp) (by simp [Entry.isSymbol, role])
    (stand.append isSymbol_extras) builds (fun _ => rfl) ?_ ?_ ?_
  · intro f member skipped
    rw [stack] at member
    rcases List.mem_cons.1 member with rfl | member
    · cases role.symm.trans skipped
    · rcases List.mem_append.1 member with blank | old
      · obtain ⟨v, _, rfl⟩ := List.mem_map.1 (List.mem_reverse.1 blank)
        cases skipped
      · exact kept.skipped f old skipped
  · intro v member
    rw [pending] at member
    cases member
  · intro f member
    rw [stack] at member
    rcases List.mem_cons.1 member with rfl | member
    · exact records
    · rcases List.mem_append.1 member with blank | old
      · exact allRememberedIn_extras _ _ f blank
      · exact kept.records f old

theorem trivia_pending (kept : c.Kept t) : ∀ b ∈ c.pending.map label, b.1.isTrivia = true := by
  intro b member
  obtain ⟨v, inside, rfl⟩ := List.mem_map.1 member
  exact kept.pending v inside

/-- Where the terminal is not reduced on, all of the stack stands. -/
theorem allStand_of_action (kept : c.Kept t) (repeats : Repeats c.stack)
    (other : ∀ p, t.action c.top c.terminal ≠ .reduce p) : t.AllStand c.stack :=
  kept.allStand repeats (Table.rests_of_action other)

theorem kept_shift {next : Nat} (kept : c.Kept t) (repeats : Repeats c.stack) (settled : c.settle = c)
    (reading : c.inserting = none) (action : t.action c.top c.lookahead = .shift next)
    (h : Setup.shift c next = .ok c') : c'.Kept t := by
  have terminal := terminal_of_settled settled reading
  have stand := allStand_of_action kept repeats (by rw [terminal, action]; simp)
  obtain ⟨u, rest, front, rfl⟩ := shift_ok h
  have ahead : c.lookahead = u.kind := by rw [lookahead, front]
  have text : u.kind.isTrivia = false := by
    rw [← ahead, ← settled]
    exact isTrivia_lookahead_settle c
  rw [ahead] at action terminal
  refine kept_pushed kept stand rfl rfl rfl ?_ (by simp [leaf])
  refine buildsOn_pushed kept reading ?_ fun before top => ?_
  · have empty : t.Builds c.top (label u).1 [] [] := .nil _
    have blank : ∀ b ∈ ([] : List Label), b.1.isTrivia = true := by simp
    exact empty.shift _ text blank action
  · rw [terminal] at before
    rw [← top] at action ⊢
    exact .shift _ (l := label u) before text (trivia_pending kept) action

/-- A node that fits is built from its leaves. -/
theorem builds_of_fits {r : Reuse} {found : Reusable} {record : Record} {top : Nat}
    (old : ∀ n ∈ r.nodes, n.2.AllRemembered s.table)
    (fits : r.Fits (s.gotoKind top) top c.rest found record) :
    s.table.Builds top record.follow found.node.leaves [⟨found.next, true, [found.node.plain]⟩] := by
  obtain ⟨start, known⟩ := fits.known
  have itself : found.node ∈ found.node.nodes := by
    have recorded := fits.recorded
    cases node : found.node with
    | leaf k text => rw [node] at recorded; cases recorded
    | node k m cs => exact List.mem_cons_self
  have goto := fits.next
  rw [gotoKind, ← fits.state] at goto
  rw [← fits.state]
  exact old _ known _ itself record found.next fits.recorded goto

/-- The old node stands for the tokens that it would be built from again. -/
theorem kept_takeOver {next : Nat} {r : Reuse} {found : Reusable} (table : s.table = t)
    (kept : c.Kept t) (repeats : Repeats c.stack) (settled : c.settle = c)
    (reading : c.inserting = none) (action : t.action c.top c.lookahead = .shift next)
    (old : ∀ n ∈ r.nodes, n.2.AllRemembered t ∧ n.2.leaves ≠ [])
    (finds : r.find? (s.gotoKind c.top) c.top c.rest = .ok (some found)) :
    (Setup.takeOver c found).Kept t := by
  have terminal := terminal_of_settled settled reading
  have stand := allStand_of_action kept repeats (by rw [terminal, action]; simp)
  obtain ⟨record, fits⟩ := Reuse.find?_some finds
  obtain ⟨start, known⟩ := fits.known
  obtain ⟨remembered, nonempty⟩ := old _ known
  have text : c.lookahead.isTrivia = false := by
    rw [← settled]
    exact isTrivia_lookahead_settle c
  subst table
  have own := builds_of_fits (fun n inside => (old n inside).1) fits
  have first : kindOf record.follow found.node.leaves = c.lookahead := by
    rw [← fits.leaves] at nonempty ⊢
    cases rest : c.rest with
    | nil => rw [rest] at nonempty; simp at nonempty
    | cons u rest =>
      rw [rest] at nonempty
      cases count : found.count with
      | zero => rw [count] at nonempty; simp at nonempty
      | succ n => simp [lookahead, rest, kindOf, label]
  have after : (Setup.takeOver c found).terminal = record.follow := by
    rw [Config.terminal, show (Setup.takeOver c found).inserting = none by
      rw [Setup.takeOver, flush_eq]; exact reading, Option.getD_none, ← fits.follow]
    rw [lookahead_settle, Setup.takeOver, rest_flush]
  refine kept_pushed kept stand rfl rfl rfl ?_ ?_
  · have leaves : Tree.leavesAll [found.node] = found.node.leaves := by simp [Tree.leavesAll]
    rw [after]
    refine buildsOn_pushed kept reading ?_ fun before top => ?_
    · rw [leaves]
      exact own
    · rw [terminal] at before
      rw [← top] at own action ⊢
      rw [leaves]
      rcases before.append text (trivia_pending kept) action own first with ⟨none, _⟩ | ⟨_, grown⟩
      · exact absurd none nonempty
      · exact grown
  · exact (Tree.allRememberedIn_cons _ _).2 ⟨remembered, Tree.allRememberedIn_nil⟩

/-- Given-up text on top. -/
theorem kept_of_damaged {e : Entry} {lower : List Entry} (stack : c'.stack = e :: lower)
    (extra : e.isSymbol = false) (damaged : e.damaged = true) (stand : t.AllStand lower)
    (skipped : ∀ f ∈ lower, f.role = .skipped → f.damaged = true)
    (pending : ∀ u ∈ c'.pending, u.kind.isTrivia = true) (own : Tree.AllRememberedIn t e.children)
    (records : ∀ f ∈ lower, Tree.AllRememberedIn t f.children) : c'.Kept t := by
  have not_clear : ¬ ∀ f ∈ c'.stack.takeWhile (!·.isSymbol), f.damaged = false := by
    intro clear
    rw [stack, List.takeWhile_cons_of_pos (by simp [extra])] at clear
    have none := clear e List.mem_cons_self
    rw [damaged] at none
    cases none
  have same : symbols c'.stack = symbols lower := by
    rw [stack]
    have roles : ∀ f ∈ [e], f.isSymbol = false := by simpa using extra
    exact symbols_append roles
  refine ⟨?_, ?_, fun _ clear => absurd clear not_clear, fun clear => absurd clear not_clear, ?_,
    pending, ?_⟩
  · rw [same]
    exact stand.of_suffix ((List.tail_suffix _).trans (List.dropWhile_suffix _))
  · rw [same]
    exact stand.top c'.terminal
  · intro f member role
    rw [stack] at member
    rcases List.mem_cons.1 member with rfl | member
    · exact damaged
    · exact skipped f member role
  · intro f member
    rw [stack] at member
    rcases List.mem_cons.1 member with rfl | member
    · exact own
    · exact records f member

theorem kept_missing {k : Kind} {next : Nat} (kept : c.Kept t) (stand : t.AllStand c.stack) :
    (endInsertion (pushMissing c k next)).Kept t := by
  have stack : (endInsertion (pushMissing c k next)).stack =
      [] ++ ⟨next, .symbol, true, c.cursor, [.node .missing {} [.leaf k ""]]⟩ :: c.stack := rfl
  refine kept_of_symbol stack (by simp) rfl stand (Table.buildsOn_of_damaged rfl) (fun _ => rfl) ?_
    kept.pending ?_
  · intro f member role
    rcases List.mem_cons.1 member with rfl | member
    · rfl
    · exact kept.skipped f member role
  · intro f member
    rcases List.mem_cons.1 member with rfl | member
    · exact (Tree.allRememberedIn_cons _ _).2 ⟨Tree.allRemembered_of_none rfl (by simp), by simp⟩
    · exact kept.records f member

theorem kept_wrap {d : Nat} {k : Kind} (kept : c.Kept t) (stand : t.AllStand c.stack) :
    (Setup.wrap c d k).Kept t := by
  have suffix := pop_suffix d c.stack
  have popped : ∀ e ∈ (pop d c.stack).1, Tree.AllRememberedIn t e.children :=
    fun e member => kept.records e (mem_of_pop (.inl member))
  refine kept_of_damaged rfl rfl rfl (stand.of_suffix suffix) ?_ kept.pending ?_ ?_
  · exact fun f member => kept.skipped f (suffix.subset member)
  · exact (Tree.allRememberedIn_cons _ _).2
      ⟨Tree.allRemembered_of_none rfl (allRememberedIn_trees popped), Tree.allRememberedIn_nil⟩
  · exact fun f member => kept.records f (suffix.subset member)

theorem allRememberedIn_leaves (tokens : List Token) :
    Tree.AllRememberedIn t (tokens.map leaf) := by
  induction tokens with
  | nil => exact Tree.allRememberedIn_nil
  | cons u us ih => exact (Tree.allRememberedIn_cons _ _).2 ⟨Tree.allRemembered_leaf _ _, ih⟩

theorem pending_pushSkipped (c : Config) (u : Token) : (pushSkipped c u).1.pending = [] := by
  unfold pushSkipped
  split <;> rfl

theorem kept_skip (kept : c.Kept t) (stand : t.AllStand c.stack) (h : s.skip c = .ok c') :
    c'.Kept t := by
  obtain ⟨u, rest, _, rfl⟩ := skip_ok h
  have pending : ∀ v ∈ (pushSkipped c u).1.pending, v.kind.isTrivia = true := by
    rw [pending_pushSkipped]
    exact fun v member => nomatch member
  obtain ⟨e, lower, stack, extra, damaged, lowers, skipped, own, records⟩ : ∃ e lower,
      (pushSkipped c u).1.stack = e :: lower ∧ e.isSymbol = false ∧ e.damaged = true ∧
        t.AllStand lower ∧ (∀ f ∈ lower, f.role = .skipped → f.damaged = true) ∧
          Tree.AllRememberedIn t e.children ∧ ∀ f ∈ lower, Tree.AllRememberedIn t f.children := by
    unfold pushSkipped
    split
    · rename_i state damaged offset children below _ stack
      have inside : (⟨state, .skipped, damaged, offset, children⟩ : Entry) ∈ c.stack := by simp [stack]
      have isDamaged : damaged = true := kept.skipped _ inside rfl
      have left : below <:+ c.stack := ⟨[_], stack.symm⟩
      refine ⟨_, below, rfl, rfl, isDamaged, stand.of_suffix left,
        fun f member => kept.skipped f (left.subset member), ?_,
        fun f member => kept.records f (left.subset member)⟩
      exact (Tree.allRememberedIn_append _ _).2 ⟨(Tree.allRememberedIn_append _ _).2
        ⟨kept.records _ inside, allRememberedIn_leaves _⟩, allRememberedIn_leaves [u]⟩
    · refine ⟨_, c.flush.stack, rfl, rfl, rfl, ?_, ?_, allRememberedIn_leaves [u], ?_⟩
      · rw [stack_flush]
        exact stand.append isSymbol_extras
      · intro f member role
        rw [stack_flush] at member
        rcases List.mem_append.1 member with blank | old
        · obtain ⟨v, _, rfl⟩ := List.mem_map.1 (List.mem_reverse.1 blank)
          cases role
        · exact kept.skipped f old role
      · intro f member
        rw [stack_flush] at member
        rcases List.mem_append.1 member with blank | old
        · exact allRememberedIn_extras _ _ f blank
        · exact kept.records f old
  exact kept_of_damaged stack extra damaged lowers skipped pending own records

/-! Whole parses -/

/-- Nothing was reported, and no token is being pretended. -/
def Quiet (c : Config) : Prop := c.diagnostics = [] ∧ c.inserting = none

/-- Nothing on the stack was repaired as long as nothing was reported. -/
def Unharmed (c : Config) : Prop := Quiet c → ∀ e ∈ c.stack, e.damaged = false

theorem Move.quiet (built : s.table.BuiltFrom g) (spelled : c.Spelled g)
    (pretending : s.Pretending c) (move : Move s c c') (later : Quiet c') : Quiet c := by
  obtain ⟨quiet, reading'⟩ := later
  cases move with
  | insertReduce inserting _ reduced =>
    cases inserting.symm.trans ((reduce_frame reduced).2.1.symm.trans reading')
  | insertShift => cases quiet
  | insertStop inserting stop =>
    obtain ⟨notAccept, notError⟩ := pretending.shifts built spelled inserting
    rcases stop with stop | stop
    · exact absurd stop notAccept
    · exact absurd stop notError
  | reduce reading _ _ reduced =>
    exact ⟨(diagnostics_reduce reduced).symm.trans quiet, reading⟩
  | shift reading _ _ shifted =>
    exact ⟨(shift_frame shifted).2.2.1.symm.trans quiet, reading⟩
  | takeOver reading =>
    rw [Setup.takeOver, flush_eq] at quiet
    exact ⟨quiet, reading⟩
  | insert => cases reading'
  | wrap => cases quiet
  | skip _ _ _ _ _ skipped =>
    obtain ⟨u, rest, _, rfl⟩ := skip_ok skipped
    exact absurd quiet (reportSkipped_ne_nil _ _ _ _)

theorem damaged_flush (unharmed : ∀ e ∈ c.stack, e.damaged = false) :
    ∀ e ∈ c.flush.stack, e.damaged = false := by
  intro e member
  rw [stack_flush] at member
  rcases List.mem_append.1 member with blank | old
  · obtain ⟨v, _, rfl⟩ := List.mem_map.1 (List.mem_reverse.1 blank)
    rfl
  · exact unharmed e old

theorem unharmed_reduce {p : Nat} {k : Kind} (before : ∀ e ∈ c.stack, e.damaged = false)
    (h : s.reduce c p k = .ok c') : ∀ e ∈ c'.stack, e.damaged = false := by
  obtain ⟨r, trailing, popped, below, next, _, trailingIs, pops, _, rfl⟩ := reduce_ok h
  have inside (e : Entry) (member : e ∈ popped ∨ e ∈ below) : e ∈ c.stack := by
    have parts : e ∈ (pop r.length (symbols c.stack)).1 ∨ e ∈ (pop r.length (symbols c.stack)).2 := by
      rw [symbols, pops]
      exact member
    exact List.dropWhile_subset _ (mem_of_pop parts)
  intro e member
  rcases List.mem_append.1 member with above | member
  · obtain ⟨old, there, rfl⟩ := List.mem_map.1 above
    rw [trailingIs] at there
    exact before old (List.takeWhile_subset _ there)
  · rcases List.mem_cons.1 member with rfl | member
    · exact List.any_eq_false.2 fun f member => by simp [before f (inside f (.inl member))]
    · exact before e (inside e (.inr member))

theorem Move.unharmed (built : s.table.BuiltFrom g) (spelled : c.Spelled g)
    (pretending : s.Pretending c) (unharmed : Unharmed c) (move : Move s c c') : Unharmed c' := by
  intro quiet'
  have quiet := move.quiet built spelled pretending quiet'
  have before := unharmed quiet
  have pushed {e : Entry} (own : e.damaged = false) :
      ∀ f ∈ e :: c.settle.flush.stack, f.damaged = false := by
    intro f member
    rcases List.mem_cons.1 member with rfl | member
    · exact own
    · exact damaged_flush (c := c.settle) before f member
  cases move with
  | insertReduce inserting => cases inserting.symm.trans quiet.2
  | insertShift inserting => cases inserting.symm.trans quiet.2
  | insertStop inserting => cases inserting.symm.trans quiet.2
  | reduce _ _ _ reduced => exact unharmed_reduce (c := c.settle) before reduced
  | shift _ _ _ shifted =>
    obtain ⟨u, rest, _, rfl⟩ := shift_ok shifted
    exact pushed rfl
  | takeOver => exact pushed rfl
  | insert => cases quiet'.2
  | wrap => cases quiet'.1
  | skip _ _ _ _ _ skipped =>
    obtain ⟨u, rest, _, rfl⟩ := skip_ok skipped
    exact absurd quiet'.1 (reportSkipped_ne_nil _ _ _ _)

theorem Move.kept (built : s.table.BuiltFrom g) (named : s.table.Named) (spelled : c.Spelled g)
    (pretending : s.Pretending c) (unharmed : Unharmed c) (trusts : s.table.Steady ∨ Quiet c)
    (kept : c.Kept s.table) (old : ∀ r, s.reuse = some r → ∀ n ∈ r.nodes,
      n.2.AllRemembered s.table ∧ n.2.leaves ≠ []) (move : Move s c c') : c'.Kept s.table := by
  have settled := kept.settle
  have builds {c : Config} {p : Nat} {k : Kind} (spelled : c.Spelled g) (kept : c.Kept s.table)
      (terminal : c.terminal = k) (action : s.table.action c.top k = .reduce p)
      (trusts : s.table.Steady ∨ Quiet c) (unharmed : Unharmed c) :
      s.table.BuildsOn k (symbols c.stack) := by
    subst terminal
    rcases trusts with steady | quiet
    · exact kept.buildsOn steady spelled.repeats action
    · exact kept.ready quiet.2 fun e member => unharmed quiet e (List.takeWhile_subset _ member)
  have stand (reading : c.inserting = none)
      (other : ∀ p, s.table.action c.top c.settle.lookahead ≠ .reduce p) :
      s.table.AllStand c.settle.stack := by
    rw [← terminal_of_settled (settle_settle c) reading] at other
    exact allStand_of_action settled spelled.settle.repeats other
  cases move with
  | @insertReduce k _ _ inserting action reduced =>
    have terminal : c.terminal = k := by rw [Config.terminal, inserting, Option.getD_some]
    exact kept_reduce built named spelled kept (builds spelled kept terminal action trusts unharmed)
      terminal action reduced
  | @insertShift k _ inserting action =>
    have terminal : c.terminal = k := by rw [Config.terminal, inserting, Option.getD_some]
    exact kept_missing kept
      (allStand_of_action kept spelled.repeats (by rw [terminal, action]; simp))
  | insertStop inserting stop =>
    obtain ⟨notAccept, notError⟩ := pretending.shifts built spelled inserting
    rcases stop with stop | stop
    · exact absurd stop notAccept
    · exact absurd stop notError
  | reduce reading _ action reduced =>
    have terminal : c.settle.terminal = c.settle.lookahead :=
      terminal_of_settled (settle_settle c) reading
    exact kept_reduce built named spelled.settle settled
      (builds spelled.settle settled terminal action trusts unharmed) terminal action reduced
  | shift reading _ action shifted =>
    exact kept_shift settled spelled.settle.repeats (settle_settle c) reading action shifted
  | takeOver reading _ action reuse finds =>
    exact kept_takeOver rfl settled spelled.settle.repeats (settle_settle c) reading action
      (old _ reuse) finds
  | insert reading _ action =>
    have stand := stand reading (by rw [action]; simp)
    exact ⟨settled.covered, stand.top _, fun reading => (by cases reading),
      settled.clear, settled.skipped, settled.pending, settled.records⟩
  | wrap reading _ action => exact kept_wrap settled (stand reading (by rw [action]; simp))
  | skip reading _ action _ _ skipped =>
    exact kept_skip settled (stand reading (by rw [action]; simp)) skipped

theorem Reached.kept {tokens : List Token} (built : s.table.BuiltFrom g) (named : s.table.Named)
    (old : ∀ r, s.reuse = some r → ∀ n ∈ r.nodes, n.2.AllRemembered s.table ∧ n.2.leaves ≠ [])
    (reached : s.Reached tokens c) (trusts : s.table.Steady ∨ Quiet c) : c.Kept s.table := by
  have moves := reached.moves
  clear reached
  suffices all : c.Spelled g ∧ s.Pretending c ∧ Unharmed c ∧
      (s.table.Steady ∨ Quiet c → c.Kept s.table) from all.2.2.2 trusts
  clear trusts
  induction moves with
  | refl =>
    exact ⟨spelled_initial tokens, pretending_of_reading rfl, fun _ _ member => (nomatch member),
      fun _ => kept_initial tokens⟩
  | tail _ move ih =>
    obtain ⟨spelled, pretending, unharmed, kept⟩ := ih
    refine ⟨move.spelled_of_built built spelled, move.pretending built spelled pretending,
      move.unharmed built spelled pretending unharmed, fun trusts => ?_⟩
    have before := trusts.imp_right (move.quiet built spelled pretending)
    exact move.kept built named spelled pretending unharmed before (kept before) old

end Setup

/-! Documents -/

/-- A built language, with the given table if it has the given identity. -/
def Language.Speaks (identity : Nat) (t : Table) (l : Language) : Prop :=
  l.IsBuilt ∧ (l.identity = identity → l.table = t)

theorem Reuse.remembered_ofDocument {t : Table} {old : Document} (map : EditMap)
    (remembered : old.root.AllRemembered t) :
    ∀ n ∈ (ofDocument old map).nodes, n.2.AllRemembered t ∧ n.2.leaves ≠ [] := by
  intro n member
  refine ⟨?_, hasLeaves_ofDocument old map n member⟩
  have placed := (List.mem_filter.1 member).1
  exact fun u inside => remembered u (Tree.nodes_of_placedNodes placed inside)

namespace Parser

variable {p : Parser} {text newText : String} {tokens : List Token} {reuse : Option Reuse}
  {old d : Document} {t : Table} {identity : Nat}

theorem table_of_runOn (ran : p.runOn text tokens reuse = .ok d) : d.table = p.language.identity := by
  unfold runOn at ran
  dsimp only at ran
  cases last : (p.setup reuse).run ((p.setup reuse).stepBound tokens.length) (.initial tokens) with
  | error f => rw [last] at ran; cases ran
  | ok c =>
    rw [last] at ran
    obtain rfl := Except.ok.inj ran
    rfl

theorem allRemembered_of_runOn (speaks : Language.Speaks identity t p.language) (named : t.Named)
    (old : ∀ r, reuse = some r → d.table = identity → ∀ n ∈ r.nodes,
      n.2.AllRemembered t ∧ n.2.leaves ≠ [])
    (ran : p.runOn text tokens reuse = .ok d) (same : d.table = identity)
    (trusts : t.Steady ∨ d.diagnostics = []) : d.root.AllRemembered t := by
  obtain ⟨⟨g, built⟩, table⟩ := speaks
  obtain rfl := table ((table_of_runOn ran).symm.trans same)
  have parts := Table.build_ok built
  unfold runOn at ran
  dsimp only at ran
  cases ended : (p.setup reuse).run ((p.setup reuse).stepBound tokens.length) (.initial tokens) with
  | error f => rw [ended] at ran; cases ran
  | ok last =>
    rw [ended] at ran
    obtain rfl := Except.ok.inj ran
    obtain ⟨c, reached, stepped⟩ := Setup.exists_last .refl ended
    obtain rfl := Setup.settle_of_last stepped
    have reading : c.inserting = none := by
      rcases stepped with stepped | stepped <;>
        rcases Setup.step_cases stepped with ⟨_, is, _⟩ | ⟨c', is | is, final⟩ <;> cases is
      all_goals cases final <;> assumption
    have kept : c.Kept p.language.table := Setup.Reached.kept (s := p.setup reuse) parts named
      (fun r is => old r is same) reached
      (trusts.imp_right fun quiet => ⟨Setup.report_eq_nil.1 quiet, reading⟩)
    refine Tree.allRemembered_of_none rfl (Setup.allRememberedIn_trees fun e member => ?_)
    rw [List.mem_reverse, Setup.stack_flush] at member
    rcases List.mem_append.1 member with blank | inside
    · exact Setup.allRememberedIn_extras _ _ e blank
    · exact kept.records e inside

theorem allRemembered_of_reparse {changes : List Change} {edits : List Edit}
    (speaks : Language.Speaks identity t p.language) (named : t.Named)
    (tokenized : old.text = text ∧ Relex.IsTokenized old)
    (before : old.table = identity → old.root.AllRemembered t)
    (changed : Change.applyAll text changes = .ok (edits, newText))
    (parsed : p.reparse old edits newText = .ok d) (same : d.table = identity)
    (trusts : t.Steady ∨ d.diagnostics = []) : d.root.AllRemembered t := by
  have fresh (ran : p.runOn newText (Token.readAll newText) none = .ok d) : d.root.AllRemembered t :=
    allRemembered_of_runOn speaks named (fun _ is => by cases is) ran same trusts
  rcases runOn_of_reparse parsed with ran | ⟨map, tokens, _, own, mapped, relexed, ran⟩
  · exact fresh ran
  · obtain rfl := Except.ok.inj (relexed.symm.trans (tokens_of_editMap? tokenized changed mapped))
    refine allRemembered_of_runOn speaks named ?_ ran same trusts
    rintro r ⟨⟩ same
    exact Reuse.remembered_ofDocument map (before (own.trans ((table_of_runOn ran).symm.trans same)))

end Parser

variable {t : Table} {identity : Nat} {text : String} {d : Document}

/-- The records of all trees of a steady table can be trusted. -/
theorem Parsed.allRemembered (named : t.Named) (steady : t.Steady)
    (parsed : Parsed (Language.Speaks identity t) text d) (same : d.table = identity) :
    d.root.AllRemembered t := by
  induction parsed with
  | parse known parsed =>
    exact Parser.allRemembered_of_runOn known named (fun _ is => by cases is) parsed same (.inl steady)
  | reparse known before changed parsed ih =>
    exact Parser.allRemembered_of_reparse known named (before.mono fun _ => And.left).isTokenized ih
      changed parsed same (.inl steady)
  | number next _ ih => exact Tree.allRemembered_numberFrom next _ (ih same)

/-- And those of trees that were made without a report. -/
theorem ParsedQuietly.allRemembered (named : t.Named)
    (parsed : ParsedQuietly (Language.Speaks identity t) text d) (same : d.table = identity) :
    d.root.AllRemembered t := by
  induction parsed with
  | parse known parsed quiet =>
    exact Parser.allRemembered_of_runOn known named (fun _ is => by cases is) parsed same (.inr quiet)
  | reparse known before changed parsed quiet ih =>
    exact Parser.allRemembered_of_reparse known named
      (before.parsed.mono fun _ => And.left).isTokenized ih changed parsed same (.inr quiet)
  | number next _ ih => exact Tree.allRemembered_numberFrom next _ (ih same)

end ShaderTree
