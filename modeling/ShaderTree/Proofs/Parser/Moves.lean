import Mathlib.Logic.Relation
import ShaderTree.Parser.Run

/-! What one step of the parser can do, and what a whole run is made of. Every invariant of a parse
is proved over these moves. -/
namespace ShaderTree

namespace Config

theorem pop_split (n : Nat) (stack : List Entry) :
    (pop n stack).1.reverse ++ (pop n stack).2 = stack := by
  fun_induction pop n stack with
  | case1 => rfl
  | case2 => rfl
  | case3 n e below popped rest eq ih =>
    rw [eq] at ih
    simpa using ih

theorem mem_of_pop {n : Nat} {stack : List Entry} {e : Entry}
    (member : e ∈ (pop n stack).1 ∨ e ∈ (pop n stack).2) : e ∈ stack := by
  rw [← pop_split n stack]
  rcases member with popped | below
  · exact List.mem_append_left _ (List.mem_reverse.2 popped)
  · exact List.mem_append_right _ below

@[simp] theorem top_settle (c : Config) : c.settle.top = c.top := rfl

@[simp] theorem stack_settle (c : Config) : c.settle.stack = c.stack := rfl

theorem pending_append_rest_settle (c : Config) :
    c.settle.pending ++ c.settle.rest = c.pending ++ c.rest := by
  simp [settle, List.takeWhile_append_dropWhile]

theorem isTrivia_lookahead_settle (c : Config) : c.settle.lookahead.isTrivia = false := by
  have first := List.head?_dropWhile_not (fun t : Token => t.kind.isTrivia) c.rest
  unfold lookahead settle
  dsimp only
  cases rest : c.rest.dropWhile (·.kind.isTrivia) with
  | nil => rfl
  | cons t ts =>
    rw [rest] at first
    exact first

/-- Entries for tokens that were set aside, top first, on a stack with the given top. -/
def extras (state : Nat) (tokens : List Token) : List Entry :=
  (tokens.map fun t => ⟨state, .extra, false, t.start, [leaf t]⟩).reverse

theorem foldl_pushTrivia (tokens : List Token) (c : Config) :
    tokens.foldl pushTrivia c =
      { c with
        stack := extras c.top tokens ++ c.stack
        cursor := (tokens.getLast?.map Token.stop).getD c.cursor } := by
  induction tokens generalizing c with
  | nil => rfl
  | cons t ts ih =>
    rw [List.foldl_cons, ih]
    have top : (pushTrivia c t).top = c.top := rfl
    have last : ((ts.getLast?.map Token.stop).getD t.stop) =
        (((t :: ts).getLast?.map Token.stop).getD c.cursor) := by
      cases ts with
      | nil => rfl
      | cons u us => rw [List.getLast?_cons_cons]; cases h : (u :: us).getLast? <;> simp_all
    rw [top]
    simp only [pushTrivia, extras, List.map_cons, List.reverse_cons, List.append_assoc,
      List.singleton_append, ← last]

theorem flush_eq (c : Config) :
    c.flush = { c with
      stack := extras c.top c.pending ++ c.stack
      pending := []
      cursor := (c.pending.getLast?.map Token.stop).getD c.cursor } := by
  rw [flush, foldl_pushTrivia]

theorem top_flush (c : Config) : c.flush.top = c.top := by
  rw [flush_eq]
  change topState (extras c.top c.pending ++ c.stack) = c.top
  cases tokens : extras c.top c.pending with
  | nil => rfl
  | cons e es =>
    have member : e ∈ extras c.top c.pending := by simp [tokens]
    obtain ⟨t, _, rfl⟩ := List.mem_map.1 (List.mem_reverse.1 member)
    rfl

end Config

namespace Setup

variable {s : Setup} {c c' : Config}

/-- A way in which a step can change the state. -/
inductive Move (s : Setup) (c : Config) : Config → Prop
  | insertReduce {k : Kind} {p : Nat} {c' : Config} (inserting : c.inserting = some k)
      (action : s.table.action c.top k = .reduce p) (reduced : s.reduce c p k = .ok c') : Move s c c'
  | insertShift {k : Kind} {next : Nat} (inserting : c.inserting = some k)
      (action : s.table.action c.top k = .shift next) :
      Move s c (endInsertion (pushMissing c k next))
  | insertStop {k : Kind} (inserting : c.inserting = some k)
      (action : s.table.action c.top k = .accept ∨ s.table.action c.top k = .error) :
      Move s c (endInsertion c)
  | reduce {p : Nat} {c' : Config} (reading : c.inserting = none)
      (terminal : c.settle.lookahead.isTerminal = true)
      (action : s.table.action c.top c.settle.lookahead = .reduce p)
      (reduced : s.reduce c.settle p c.settle.lookahead = .ok c') : Move s c c'
  | shift {next : Nat} {c' : Config} (reading : c.inserting = none)
      (terminal : c.settle.lookahead.isTerminal = true)
      (action : s.table.action c.top c.settle.lookahead = .shift next)
      (shifted : Setup.shift c.settle next = .ok c') : Move s c c'
  | takeOver {next : Nat} {r : Reuse} {found : Reusable} (reading : c.inserting = none)
      (terminal : c.settle.lookahead.isTerminal = true)
      (action : s.table.action c.top c.settle.lookahead = .shift next) (reuse : s.reuse = some r)
      (finds : r.find? (s.gotoKind c.top) c.top c.settle.rest = .ok (some found)) :
      Move s c (takeOver c.settle found)
  | insert {k : Kind} (reading : c.inserting = none)
      (terminal : c.settle.lookahead.isTerminal = true)
      (action : s.table.action c.top c.settle.lookahead = .error)
      (repair : s.chooseRepair c.settle c.settle.lookahead = .insert k) :
      Move s c { c.settle with inserting := some k }
  | wrap {d : Nat} (reading : c.inserting = none)
      (terminal : c.settle.lookahead.isTerminal = true)
      (action : s.table.action c.top c.settle.lookahead = .error)
      (repair : s.chooseRepair c.settle c.settle.lookahead = .wrap (d + 1)) :
      Move s c (wrap c.settle (d + 1) c.settle.lookahead)
  | skip {c' : Config} (reading : c.inserting = none)
      (terminal : c.settle.lookahead.isTerminal = true)
      (action : s.table.action c.top c.settle.lookahead = .error)
      (repair : s.chooseRepair c.settle c.settle.lookahead = .skip ∨
        s.chooseRepair c.settle c.settle.lookahead = .wrap 0)
      (inside : c.settle.lookahead ≠ .eof) (skipped : s.skip c.settle = .ok c') : Move s c c'

/-- A way in which a run can end. -/
inductive Final (s : Setup) (c : Config) : Config → Prop
  | accepted (reading : c.inserting = none) (terminal : c.settle.lookahead.isTerminal = true)
      (action : s.table.action c.top c.settle.lookahead = .accept) : Final s c c.settle
  | gaveUp (reading : c.inserting = none) (atEnd : c.settle.lookahead = .eof)
      (action : s.table.action c.top c.settle.lookahead = .error)
      (repair : s.chooseRepair c.settle c.settle.lookahead = .skip ∨
        s.chooseRepair c.settle c.settle.lookahead = .wrap 0) : Final s c c.settle

theorem map_next_eq {x : Except Fault Config} {y : Step} (h : x.map Step.next = .ok y) :
    ∃ c', x = .ok c' ∧ y = .next c' := by
  cases x with
  | error f => cases h
  | ok c' => exact ⟨c', rfl, (Except.ok.inj h).symm⟩

theorem advance_cases {next : Nat} (h : s.advance c next = .ok c') :
    Setup.shift c next = .ok c' ∨ ∃ r found, s.reuse = some r ∧
      r.find? (s.gotoKind c.top) c.top c.rest = .ok (some found) ∧ c' = Setup.takeOver c found := by
  unfold advance at h
  cases reuse : s.reuse with
  | none =>
    rw [reuse] at h
    exact .inl h
  | some r =>
    rw [reuse] at h
    cases finds : r.find? (s.gotoKind c.top) c.top c.rest with
    | error f => simp [finds, bind, Except.bind] at h
    | ok found =>
      cases found with
      | none =>
        simp only [finds, bind, Except.bind] at h
        exact .inl h
      | some found =>
        simp only [finds, bind, Except.bind, pure, Except.pure, Except.ok.injEq] at h
        exact .inr ⟨r, found, rfl, finds, h.symm⟩

theorem insertStep_cases {k : Kind} {y : Step} (inserting : c.inserting = some k)
    (h : s.insertStep c k = .ok y) : ∃ c', y = .next c' ∧ Move s c c' := by
  unfold insertStep at h
  split at h
  · rename_i p action
    obtain ⟨c', reduced, rfl⟩ := map_next_eq h
    exact ⟨c', rfl, .insertReduce inserting action reduced⟩
  · rename_i next action
    exact ⟨_, (Except.ok.inj h).symm, .insertShift inserting action⟩
  · rename_i action
    exact ⟨_, (Except.ok.inj h).symm, .insertStop inserting (.inl action)⟩
  · rename_i action
    exact ⟨_, (Except.ok.inj h).symm, .insertStop inserting (.inr action)⟩

theorem recover_cases {y : Step} (reading : c.inserting = none)
    (terminal : c.settle.lookahead.isTerminal = true)
    (action : s.table.action c.top c.settle.lookahead = .error)
    (h : s.recover c.settle c.settle.lookahead = .ok y) :
    (∃ c', y = .next c' ∧ Move s c c') ∨ (∃ c', y = .gaveUp c' ∧ Final s c c') := by
  unfold recover at h
  split at h
  · rename_i k repair
    exact .inl ⟨_, (Except.ok.inj h).symm, .insert reading terminal action repair⟩
  · rename_i notInsert
    split at h
    · cases h
    · split at h
      · rename_i d isWrap
        exact .inl ⟨_, (Except.ok.inj h).symm, .wrap reading terminal action isWrap⟩
      · rename_i notWrap
        have other : s.chooseRepair c.settle c.settle.lookahead = .skip ∨
            s.chooseRepair c.settle c.settle.lookahead = .wrap 0 := by
          cases is : s.chooseRepair c.settle c.settle.lookahead with
          | insert k => exact absurd is (notInsert k)
          | skip => exact .inl rfl
          | wrap d =>
            cases d with
            | zero => exact .inr rfl
            | succ d => exact absurd is (notWrap d)
        split at h
        · rename_i atEnd
          exact .inr ⟨_, (Except.ok.inj h).symm, .gaveUp reading atEnd action other⟩
        · rename_i inside
          obtain ⟨c', skipped, rfl⟩ := map_next_eq h
          exact .inl ⟨c', rfl, .skip reading terminal action other inside skipped⟩

theorem step_cases {y : Step} (h : s.step c = .ok y) :
    (∃ c', y = .next c' ∧ Move s c c') ∨
      (∃ c', (y = .accepted c' ∨ y = .gaveUp c') ∧ Final s c c') := by
  unfold step at h
  split at h
  · rename_i k inserting
    exact .inl (insertStep_cases inserting h)
  · rename_i reading
    dsimp only at h
    split at h
    · cases h
    · rename_i known
      have terminal : c.settle.lookahead.isTerminal = true := by simpa using known
      split at h
      · rename_i next action
        obtain ⟨c', advanced, rfl⟩ := map_next_eq h
        rcases advance_cases advanced with shifted | ⟨r, found, reuse, finds, rfl⟩
        · exact .inl ⟨c', rfl, .shift reading terminal action shifted⟩
        · exact .inl ⟨_, rfl, .takeOver reading terminal action reuse finds⟩
      · rename_i p action
        obtain ⟨c', reduced, rfl⟩ := map_next_eq h
        exact .inl ⟨c', rfl, .reduce reading terminal action reduced⟩
      · rename_i action
        exact .inr ⟨_, .inl (Except.ok.inj h).symm, .accepted reading terminal action⟩
      · rename_i action
        rcases recover_cases reading terminal action h with next | ⟨c', is, final⟩
        · exact .inl next
        · exact .inr ⟨c', .inr is, final⟩

/-- A run makes moves until it ends. -/
theorem run_cases {fuel : Nat} (h : s.run fuel c = .ok c') :
    ∃ last, Relation.ReflTransGen (Move s) c last ∧ Final s last c' := by
  induction fuel generalizing c with
  | zero => cases h
  | succ fuel ih =>
    unfold run at h
    cases stepped : s.step c with
    | error f => simp [stepped] at h
    | ok y =>
      rw [stepped] at h
      rcases step_cases stepped with ⟨c1, rfl, move⟩ | ⟨c1, rfl | rfl, final⟩
      · obtain ⟨last, moves, final⟩ := ih h
        exact ⟨last, .head move moves, final⟩
      · exact ⟨c, .refl, Except.ok.inj h ▸ final⟩
      · exact ⟨c, .refl, Except.ok.inj h ▸ final⟩

/-! What the parts of a step do -/

theorem shift_ok {next : Nat} (h : Setup.shift c next = .ok c') :
    ∃ t rest, c.rest = t :: rest ∧ c' = { c.flush with
      stack := ⟨next, .symbol, false, t.start, [Config.leaf t]⟩ :: c.flush.stack
      rest := rest
      cursor := t.stop
      inserted := 0
      lastSkip := false } := by
  have same : c.flush.rest = c.rest := by rw [Config.flush_eq]
  unfold Setup.shift at h
  dsimp only at h
  rw [same] at h
  cases rest : c.rest with
  | nil => rw [rest] at h; cases h
  | cons t rest =>
    rw [rest] at h
    exact ⟨t, _, rfl, (Except.ok.inj h).symm⟩

/-- Where the node of a reduction starts. -/
def startOf (c : Config) (popped trailing : List Entry) : Nat :=
  match popped.head?, trailing.getLast? with
  | some e, _ => e.offset
  | none, some e => e.offset
  | none, none => c.cursor

/-- What a reduction puts on the stack: a node, or the children of a hidden nonterminal. -/
def made (r : Reduction) (popped : List Entry) (state : Nat) (lookahead : Kind) : List Tree :=
  match r.node? with
  | none => popped.flatMap Entry.trees
  | some k =>
    let record := if popped.any (·.damaged) || Tree.sizeAll (popped.flatMap Entry.trees) = 0 then none
      else some ⟨state, lookahead⟩
    [Tree.node k { record } (popped.flatMap Entry.trees)]

/-- What a reduction makes of the stack. -/
def reduced (c : Config) (r : Reduction) (next : Nat) (k : Kind) : Config :=
  let trailing := c.stack.takeWhile (!·.isSymbol)
  let (popped, below) := Config.pop r.length (c.stack.dropWhile (!·.isSymbol))
  { c with stack := trailing.map (fun e => { e with state := next }) ++
    ⟨next, .symbol, popped.any (·.damaged), startOf c popped trailing,
      made r popped (Config.topState below) k⟩ :: below }

theorem reduce_eq (s : Setup) (c : Config) (p : Nat) (k : Kind) :
    s.reduce c p k = match s.table.reductions[p]? with
      | none => .error .noGoto
      | some r =>
        match s.table.goto? (Config.topState (Config.pop r.length (c.stack.dropWhile (!·.isSymbol))).2) r.lhs with
        | none => .error .noGoto
        | some next => .ok (reduced c r next k) := by
  unfold reduce
  cases s.table.reductions[p]? with
  | none => rfl
  | some r =>
    dsimp only
    cases s.table.goto? (Config.topState (Config.pop r.length (c.stack.dropWhile (!·.isSymbol))).2) r.lhs <;> rfl

theorem reduce_of_goto {p next : Nat} {k : Kind} {r : Reduction} (known : s.table.reductions[p]? = some r)
    (goto : s.table.goto? (Config.topState (Config.pop r.length (c.stack.dropWhile (!·.isSymbol))).2) r.lhs =
      some next) : s.reduce c p k = .ok (reduced c r next k) := by
  rw [reduce_eq, known]
  simp only [goto]

theorem reduce_ok {p : Nat} {k : Kind} (h : s.reduce c p k = .ok c') :
    ∃ r trailing popped below next, s.table.reductions[p]? = some r ∧
      trailing = c.stack.takeWhile (!·.isSymbol) ∧
      Config.pop r.length (c.stack.dropWhile (!·.isSymbol)) = (popped, below) ∧
      s.table.goto? (Config.topState below) r.lhs = some next ∧
      c' = { c with stack := trailing.map (fun e => { e with state := next }) ++
        ⟨next, .symbol, popped.any (·.damaged), startOf c popped trailing,
          made r popped (Config.topState below) k⟩ :: below } := by
  unfold reduce at h
  cases known : s.table.reductions[p]? with
  | none => simp [known, throw, throwThe, MonadExceptOf.throw] at h
  | some r =>
    cases target : s.table.goto? (Config.topState
        (Config.pop r.length (c.stack.dropWhile (!·.isSymbol))).2) r.lhs with
    | none => simp [known, target, throw, throwThe, MonadExceptOf.throw] at h
    | some next =>
      simp only [known, target, pure, Except.pure, Except.ok.injEq] at h
      exact ⟨r, _, _, _, next, rfl, rfl, rfl, target, h.symm⟩

theorem skip_ok (h : s.skip c = .ok c') :
    ∃ t rest, c.rest = t :: rest ∧ c' = { (pushSkipped c t).1 with
      rest := rest
      cursor := t.stop
      diagnostics := reportSkipped (pushSkipped c t).1 t (pushSkipped c t).2
        (expectedHint s.table c.top)
      lastSkip := true
      inserted := 0 } := by
  unfold skip at h
  cases front : c.rest with
  | nil => simp [front] at h
  | cons t rest =>
    rw [front] at h
    exact ⟨t, rest, rfl, (Except.ok.inj h).symm⟩

end Setup

end ShaderTree
