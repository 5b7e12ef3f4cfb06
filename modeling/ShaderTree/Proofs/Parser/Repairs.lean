import ShaderTree.Proofs.Parser.Faultless
import ShaderTree.Proofs.Parser.Placed

/-! What is reported and what the tree shows of repairs are the same. Each pretended token is a node
without text at the place of its diagnostic, each piece of input that was given up is a node with the
range of its diagnostic, and every run of tokens left out is a node that starts with a diagnostic and
holds those of all its tokens. Reductions and later repairs only put such nodes deeper into the
tree. -/
namespace ShaderTree

open Token (width)

/-- A list that was mapped is put in order with what it was mapped to. -/
theorem exists_perm_of_map {α β : Type} {f : α → β} {xs : List α} {zs : List β}
    (same : (xs.map f).Perm zs) : ∃ ys, xs.Perm ys ∧ ys.map f = zs := by
  induction zs generalizing xs with
  | nil =>
    obtain rfl := List.map_eq_nil_iff.1 same.eq_nil
    exact ⟨[], .refl _, rfl⟩
  | cons z zs ih =>
    obtain ⟨x, member, rfl⟩ := List.mem_map.1 (same.symm.subset (.head _))
    obtain ⟨front, back, rfl⟩ := List.append_of_mem member
    have moved : (front ++ x :: back).Perm (x :: (front ++ back)) := List.perm_middle
    obtain ⟨ys, rest, rfl⟩ := ih (((moved.map f).symm.trans same).cons_inv)
    exact ⟨x :: ys, moved.trans (rest.cons x), rfl⟩

/-- The diagnostic is about a token that was left out. -/
def Diagnostic.LeavesOut (d : Diagnostic) : Prop := d.code = .unexpectedToken ∨ d.code.isLexical = true

/-- Ranges of the diagnostics with a code. -/
def Diagnostic.rangesOf (code : Code) (ds : List Diagnostic) : List ByteRange :=
  (ds.filter (·.code = code)).map (·.range)

namespace Diagnostic

variable {d d' : Diagnostic} {ds : List Diagnostic} {code : Code}

theorem rangesOf_cons_eq (same : d.code = code) :
    rangesOf code (d :: ds) = d.range :: rangesOf code ds := by
  simp [rangesOf, same]

theorem rangesOf_cons_ne (other : d.code ≠ code) : rangesOf code (d :: ds) = rangesOf code ds := by
  simp [rangesOf, other]

theorem LeavesOut.ne_missingToken (leavesOut : d.LeavesOut) : d.code ≠ .missingToken := by
  rcases leavesOut with code | lexical
  · simp [code]
  · rintro code
    simp [code, Code.isLexical] at lexical

theorem LeavesOut.ne_unexpectedInput (leavesOut : d.LeavesOut) : d.code ≠ .unexpectedInput := by
  rcases leavesOut with code | lexical
  · simp [code]
  · rintro code
    simp [code, Code.isLexical] at lexical

theorem leavesOut_cases (d : Diagnostic) :
    d.LeavesOut ∨ d.code = .missingToken ∨ d.code = .unexpectedInput := by
  unfold LeavesOut
  cases d.code <;> simp [Code.isLexical]

end Diagnostic

/-- Every run of tokens left out starts with a diagnostic, and the diagnostics of such tokens lie
inside of runs. -/
structure Diagnostic.FillRuns (ds : List Diagnostic) (runs : List ByteRange) : Prop where
  starts : ∀ r ∈ runs, ∃ d ∈ ds, d.LeavesOut ∧ d.range.start = r.start
  inside : ∀ d ∈ ds, d.LeavesOut → ∃ r ∈ runs, r.contains d.range = true

namespace Diagnostic

variable {d : Diagnostic} {ds rest : List Diagnostic} {runs others : List ByteRange}
  {start stop : Nat}

/-- A diagnostic of another sort goes with no run. -/
theorem FillRuns.cons (fill : FillRuns ds runs) (kept : ¬ d.LeavesOut) : FillRuns (d :: ds) runs := by
  constructor
  · intro r member
    obtain ⟨d', reported, starts⟩ := fill.starts r member
    exact ⟨d', .tail _ reported, starts⟩
  · exact List.forall_mem_cons.2 ⟨fun leavesOut => absurd leavesOut kept, fill.inside⟩

/-- A new run has a diagnostic of its own. -/
theorem FillRuns.opens (fill : FillRuns ds runs) (leavesOut : d.LeavesOut) :
    FillRuns (d :: ds) (d.range :: runs) := by
  constructor
  · refine List.forall_mem_cons.2 ⟨⟨d, .head _, leavesOut, rfl⟩, fun r member => ?_⟩
    obtain ⟨d', reported, starts⟩ := fill.starts r member
    exact ⟨d', .tail _ reported, starts⟩
  · refine List.forall_mem_cons.2 ⟨fun _ => ⟨_, .head _, by simp [ByteRange.contains]⟩, ?_⟩
    intro d' reported leavesOut'
    obtain ⟨r, member, inside⟩ := fill.inside d' reported leavesOut'
    exact ⟨r, .tail _ member, inside⟩

/-- One more token was left out: the first diagnostic is new, or one about such a token that now
reaches further. It lies between `start` and `stop`. -/
structure Adds (start stop : Nat) (ds : List Diagnostic) (d : Diagnostic) (rest : List Diagnostic) :
    Prop where
  leavesOut : d.LeavesOut
  starts : start ≤ d.range.start
  ordered : d.range.start ≤ d.range.stop
  stops : d.range.stop ≤ stop
  others : rest = ds ∨ ∃ last, ds = last :: rest ∧ last.LeavesOut ∧ last.range.start = d.range.start

theorem Adds.subset (adds : Adds start stop ds d rest) : rest ⊆ ds := by
  rcases adds.others with rfl | ⟨last, rfl, _⟩
  · exact List.Subset.refl _
  · exact List.subset_cons_self _ _

theorem Adds.rangesOf_eq (adds : Adds start stop ds d rest) {code : Code}
    (kept : ∀ d : Diagnostic, d.LeavesOut → d.code ≠ code) :
    rangesOf code (d :: rest) = rangesOf code ds := by
  rw [rangesOf_cons_ne (kept d adds.leavesOut)]
  rcases adds.others with rfl | ⟨last, rfl, leavesOut, _⟩
  · rfl
  · rw [rangesOf_cons_ne (kept last leavesOut)]

/-- The run of the token reaches further as well. -/
theorem Adds.fillRuns (adds : Adds start stop ds d rest) {before : Nat} (further : before ≤ stop)
    (fill : FillRuns ds (⟨start, before⟩ :: others)) :
    FillRuns (d :: rest) (⟨start, stop⟩ :: others) := by
  have starts (r : ByteRange) (member : r ∈ ⟨start, before⟩ :: others) :
      ∃ d' ∈ d :: rest, d'.LeavesOut ∧ d'.range.start = r.start := by
    obtain ⟨d', reported, leavesOut, same⟩ := fill.starts r member
    rcases adds.others with rfl | ⟨last, rfl, _, moved⟩
    · exact ⟨d', .tail _ reported, leavesOut, same⟩
    · rcases List.mem_cons.1 reported with rfl | other
      · exact ⟨d, .head _, adds.leavesOut, moved.symm.trans same⟩
      · exact ⟨d', .tail _ other, leavesOut, same⟩
  constructor
  · refine List.forall_mem_cons.2 ⟨starts ⟨start, before⟩ (.head _), fun r member => ?_⟩
    exact starts r (.tail _ member)
  · have own : (⟨start, stop⟩ : ByteRange).contains d.range = true := by
      simp [ByteRange.contains, adds.starts, adds.stops]
    refine List.forall_mem_cons.2 ⟨fun _ => ⟨_, .head _, own⟩, fun d' reported leavesOut => ?_⟩
    obtain ⟨r, member, inside⟩ := fill.inside d' (adds.subset reported) leavesOut
    rcases List.mem_cons.1 member with rfl | other
    · refine ⟨⟨start, stop⟩, .head _, ?_⟩
      simp only [ByteRange.contains, Bool.and_eq_true, decide_eq_true_eq] at inside ⊢
      exact ⟨inside.1, inside.2.trans further⟩
    · exact ⟨r, .tail _ other, inside⟩

end Diagnostic

namespace Config

open ShaderTree.Tree

/-- The last run of tokens left out, to which the next such token is added. -/
structure OpenRun (c : Config) (runs : List ByteRange) (e : Entry) (below : List Entry)
    (others : List ByteRange) (d : Diagnostic) (older : List Diagnostic) : Prop where
  stack : c.stack = e :: below
  role : e.role = .skipped
  runs : runs = ⟨e.offset, c.cursor⟩ :: others
  diagnostics : c.diagnostics = d :: older
  leavesOut : d.LeavesOut
  inside : e.offset ≤ d.range.start ∧ d.range.stop ≤ c.cursor

/-- What was reported so far and what the trees on the stack show of it. -/
structure Accounted (c : Config) : Prop where
  missing : (rangesOfAll .missing 0 (forest c.stack)).Perm
    (Diagnostic.rangesOf .missingToken c.diagnostics)
  errors : ∃ runs, (rangesOfAll .error 0 (forest c.stack)).Perm
      (Diagnostic.rangesOf .unexpectedInput c.diagnostics ++ runs) ∧
    Diagnostic.FillRuns c.diagnostics runs ∧
    (c.lastSkip = true → ∃ e below others d older, c.OpenRun runs e below others d older)
  ranges : ∀ d ∈ c.diagnostics, d.range.start ≤ d.range.stop ∧ d.range.stop ≤ c.cursor ∧
    (d.code = .missingToken → d.range.isEmpty = true)

variable {c c' : Config} {stop : Nat} {k : Kind}

/-- Trees without repairs that are added at the end change nothing. -/
theorem rangesOfAll_add (fault : k.isError = true) {ts us : List Tree} (faultless : FaultlessIn us)
    (offset : Nat) : rangesOfAll k offset (ts ++ us) = rangesOfAll k offset ts := by
  rw [rangesOfAll_append, faultless.rangesOfAll fault, List.append_nil]

/-- Setting blanks aside and putting them on the stack changes nothing either. -/
theorem rangesOfAll_flush (fault : k.isError = true) (placed : c.Placed stop) :
    rangesOfAll k 0 (forest c.flush.stack) = rangesOfAll k 0 (forest c.stack) := by
  rw [placed.flush.2.2, rangesOfAll_add fault (faultlessIn_map_leaf _)]

/-- What an entry shows lies behind what is shown below it. -/
theorem rangesOfAll_forest_cons (k : Kind) (e : Entry) (below : List Entry) :
    rangesOfAll k 0 (forest (e :: below)) =
      rangesOfAll k 0 (forest below) ++ rangesOfAll k (extent below) e.trees := by
  rw [forest_cons, rangesOfAll_append, Nat.zero_add, extent]

theorem accounted_initial (tokens : List Token) : (initial tokens).Accounted := by
  refine ⟨.nil, ⟨[], .nil, ⟨by simp, by simp [initial]⟩, by simp [initial]⟩, by simp [initial]⟩

/-- Moves that change nothing of what is shown and report nothing. -/
theorem Accounted.of_same (accounted : c.Accounted)
    (same : ∀ k, k.isError = true →
      rangesOfAll k 0 (forest c'.stack) = rangesOfAll k 0 (forest c.stack))
    (diagnostics : c'.diagnostics = c.diagnostics) (cursor : c.cursor ≤ c'.cursor)
    (last : c'.lastSkip = true → c.lastSkip = true ∧ c'.cursor = c.cursor ∧
      ∀ e, c.stack.head? = some e → e.role = .skipped →
        ∃ e', c'.stack.head? = some e' ∧ e'.role = .skipped ∧ e'.offset = e.offset) :
    c'.Accounted := by
  obtain ⟨runs, shown, fill, top⟩ := accounted.errors
  refine ⟨?_, ⟨runs, ?_, ?_, ?_⟩, ?_⟩
  · rw [same _ rfl, diagnostics]
    exact accounted.missing
  · rw [same _ rfl, diagnostics]
    exact shown
  · rwa [diagnostics]
  · intro skipped
    obtain ⟨before, still, keeps⟩ := last skipped
    obtain ⟨e, below, others, d, older, run⟩ := top before
    obtain ⟨e', first, role', offset'⟩ := keeps e (by rw [run.stack]; rfl) run.role
    obtain ⟨below', stack'⟩ := List.head?_eq_some_iff.1 first
    refine ⟨e', below', others, d, older, stack', role', ?_, diagnostics.trans run.diagnostics,
      run.leavesOut, ?_⟩
    · rw [offset', still]
      exact run.runs
    · rw [offset', still]
      exact run.inside
  · rw [diagnostics]
    intro d member
    obtain ⟨ordered, inside, empty⟩ := accounted.ranges d member
    exact ⟨ordered, inside.trans cursor, empty⟩

theorem Accounted.settle (accounted : c.Accounted) : c.settle.Accounted :=
  accounted.of_same (fun _ _ => rfl) rfl le_rfl fun skipped =>
    ⟨skipped, rfl, fun e first role => ⟨e, first, role, rfl⟩⟩

end Config

namespace Setup

open Config ShaderTree.Tree

variable {s : Setup} {c c' : Config} {stop : Nat} {k : Kind}

/-- A reduction moves what its symbols show into its node. -/
theorem rangesOfAll_made (fault : k.isError = true) {r : Reduction}
    (spares : ∀ l, r.node? = some l → l.isError = false) (popped : List Entry) (state offset : Nat)
    (lookahead : Kind) : rangesOfAll k offset (made r popped state lookahead) =
      rangesOfAll k offset (popped.flatMap Entry.trees) := by
  unfold made
  split
  · rfl
  · rename_i l node
    have other : l ≠ k := by
      rintro rfl
      cases fault.symm.trans (spares l node)
    rw [rangesOfAll_singleton, rangesOf_node_ne other]

theorem rangesOfAll_reduce (fault : k.isError = true) (spares : s.table.SparesRepairs) {p : Nat}
    {lookahead : Kind} (h : s.reduce c p lookahead = .ok c') :
    rangesOfAll k 0 (forest c'.stack) = rangesOfAll k 0 (forest c.stack) := by
  obtain ⟨r, trailing, popped, below, next, known, trailingIs, split, _, rfl⟩ := reduce_ok h
  have inner : rangesOfAll k (extent below) (made r popped (topState below) lookahead) =
      rangesOfAll k (extent below) (forest popped.reverse) := by
    rw [rangesOfAll_made fault (spares p r known), forest_reverse]
  have size : sizeAll (made r popped (topState below) lookahead) =
      sizeAll (forest popped.reverse) := by
    rw [sizeAll_made, forest_reverse]
  have symbol : Entry.trees ⟨next, .symbol, popped.any (·.damaged), startOf c popped trailing,
      made r popped (topState below) lookahead⟩ = made r popped (topState below) lookahead := rfl
  rw [stack_of_reduce trailingIs split]
  simp only [forest_append, forest_cons, forest_map_state, symbol, rangesOfAll_append, Nat.zero_add,
    sizeAll_append, size]
  rw [← extent, inner]

theorem accounted_reduce (spares : s.table.SparesRepairs) (accounted : c.Accounted) {p : Nat}
    (h : s.reduce c p k = .ok c') : c'.Accounted := by
  have same (l : Kind) (fault : l.isError = true) := rangesOfAll_reduce fault spares h
  obtain ⟨r, trailing, popped, below, next, _, trailingIs, _, _, rfl⟩ := reduce_ok h
  refine accounted.of_same same rfl le_rfl fun skipped => ⟨skipped, rfl, fun e first role => ?_⟩
  obtain ⟨rest, stack⟩ := List.head?_eq_some_iff.1 first
  have top : trailing = e :: rest.takeWhile (!·.isSymbol) := by
    rw [trailingIs, stack, List.takeWhile_cons_of_pos (by simp [Entry.isSymbol, role])]
  exact ⟨{ e with state := next }, by simp [top], role, rfl⟩

/-- A token or an old node goes to the stack as it is. -/
theorem accounted_push (placed : c.Placed stop) (accounted : c.Accounted) {e : Entry}
    (stack : c'.stack = e :: c.flush.stack) (faultless : FaultlessIn e.trees)
    (diagnostics : c'.diagnostics = c.diagnostics) (cursor : c.cursor ≤ c'.cursor)
    (closed : c'.lastSkip = false) : c'.Accounted := by
  refine accounted.of_same (fun l fault => ?_) diagnostics cursor ?_
  · rw [stack, forest_cons, rangesOfAll_add fault faultless, rangesOfAll_flush fault placed]
  · simp [closed]

theorem accounted_shift (placed : c.Placed stop) (accounted : c.Accounted) {next : Nat}
    (h : Setup.shift c next = .ok c') : c'.Accounted := by
  have after := placed_shift placed h
  obtain ⟨t, rest, front, rfl⟩ := shift_ok h
  refine accounted_push placed accounted rfl (faultlessIn_map_leaf [t]) ?_ ?_ rfl
  · rw [flush_eq]
  · obtain ⟨flushed, grown, _⟩ := placed.flush
    have first := flushed.tokens
    rw [pending_flush, List.nil_append, rest_flush, front] at first
    change c.cursor ≤ t.start + _
    rw [first.1, grown]
    omega

theorem accounted_takeOver (placed : c.Placed stop) (accounted : c.Accounted) {found : Reusable}
    (faultless : found.node.Faultless) : (Setup.takeOver c found).Accounted := by
  refine accounted_push placed accounted rfl (faultlessIn_cons.2 ⟨faultless, faultlessIn_nil⟩) ?_ ?_ rfl
  · change c.flush.diagnostics = c.diagnostics
    rw [flush_eq]
  · change c.cursor ≤ c.flush.cursor + _
    rw [placed.flush.2.1]
    omega

theorem accounted_pushMissing (placed : c.Placed stop) (accounted : c.Accounted) (k : Kind)
    (next : Nat) : (endInsertion (pushMissing c k next)).Accounted := by
  obtain ⟨runs, shown, fill, _⟩ := accounted.errors
  have code : (missingDiagnostic c k).code = .missingToken := by
    unfold missingDiagnostic
    split <;> rfl
  have range : (missingDiagnostic c k).range = ⟨c.cursor, c.cursor⟩ := by
    unfold missingDiagnostic
    split <;> rfl
  have kept : ¬ (missingDiagnostic c k).LeavesOut := fun leavesOut => leavesOut.ne_missingToken code
  refine ⟨?_, ⟨runs, ?_, fill.cons kept, fun skipped => by cases skipped⟩, ?_⟩
  · change (rangesOfAll .missing 0 (forest (_ :: c.stack))).Perm
      (Diagnostic.rangesOf .missingToken (missingDiagnostic c k :: c.diagnostics))
    rw [rangesOfAll_forest_cons, Diagnostic.rangesOf_cons_eq code, range, placed.cursor]
    exact (List.perm_append_singleton _ _).trans (accounted.missing.cons _)
  · change (rangesOfAll .error 0 (forest (_ :: c.stack))).Perm
      (Diagnostic.rangesOf .unexpectedInput (missingDiagnostic c k :: c.diagnostics) ++ runs)
    have none : rangesOfAll .error (extent c.stack) [node .missing {} [.leaf k ""]] = [] := rfl
    rw [rangesOfAll_forest_cons, Diagnostic.rangesOf_cons_ne (by simp [code])]
    exact (List.append_nil _).symm ▸ shown
  · refine List.forall_mem_cons.2 ⟨?_, accounted.ranges⟩
    rw [range]
    exact ⟨le_rfl, le_rfl, fun _ => by simp [ByteRange.isEmpty]⟩

/-- The state behind entries that are given up. -/
def givenUp (c : Config) (popped below : List Entry) : Config :=
  { c with
    stack := ⟨topState below, .extra, true, extent below,
      [node .error {} (popped.flatMap Entry.trees)]⟩ :: below
    lastSkip := false }

def givenUpDiagnostic (c : Config) (popped below : List Entry) (lookahead : Kind) : Diagnostic :=
  { code := .unexpectedInput
    message := "unexpected input before " ++ lookahead.describe
    range := ⟨extent below, c.cursor⟩
    enclosure := (givenUp c popped below).enclosure }

/-- What giving up entries puts in their place, and what it reports. -/
theorem wrap_eq (placed : c.Placed stop) {depth : Nat} {popped below : List Entry}
    (split : Config.pop depth c.stack = (popped, below)) (lookahead : Kind) :
    Setup.wrap c depth lookahead = { givenUp c popped below with
      diagnostics := givenUpDiagnostic c popped below lookahead :: c.diagnostics } := by
  have start := start_of_wrap placed depth
  rw [split] at start
  cases popped with
  | nil =>
    change c.cursor = extent below at start
    simp only [Setup.wrap, givenUpDiagnostic, givenUp, split, start]
  | cons e es =>
    change e.offset = extent below at start
    simp only [Setup.wrap, givenUpDiagnostic, givenUp, split, start]

theorem accounted_wrap (placed : c.Placed stop) (accounted : c.Accounted) (depth : Nat)
    (lookahead : Kind) : (Setup.wrap c depth lookahead).Accounted := by
  obtain ⟨runs, shown, fill, _⟩ := accounted.errors
  have whole := pop_split depth c.stack
  cases split : Config.pop depth c.stack with
  | mk popped below =>
    have code : (givenUpDiagnostic c popped below lookahead).code = .unexpectedInput := rfl
    have kept : ¬ (givenUpDiagnostic c popped below lookahead).LeavesOut :=
      fun leavesOut => leavesOut.ne_unexpectedInput code
    rw [split] at whole
    have stop : c.cursor = extent below + sizeAll (popped.flatMap Entry.trees) := by
      rw [placed.cursor, ← whole, extent_append, extent, extent, forest_reverse]
    have before (k : Kind) : rangesOfAll k 0 (forest c.stack) = rangesOfAll k 0 (forest below) ++
        rangesOfAll k (extent below) (popped.flatMap Entry.trees) := by
      rw [← whole, forest_append, forest_reverse, rangesOfAll_append, Nat.zero_add, extent]
    have missing := accounted.missing
    rw [before] at missing shown
    rw [wrap_eq placed split lookahead]
    refine ⟨?_, ⟨runs, ?_, fill.cons kept, fun skipped => by cases skipped⟩, ?_⟩
    · have hides : rangesOfAll .missing (extent below)
          (Entry.trees ⟨topState below, .extra, true, extent below,
            [node .error {} (popped.flatMap Entry.trees)]⟩) =
          rangesOfAll .missing (extent below) (popped.flatMap Entry.trees) :=
        (rangesOfAll_singleton _ _ _).trans (rangesOf_node_ne (by decide) _)
      rw [givenUp, rangesOfAll_forest_cons, Diagnostic.rangesOf_cons_ne (by simp [code]), hides]
      exact missing
    · have shows : rangesOfAll .error (extent below)
          (Entry.trees ⟨topState below, .extra, true, extent below,
            [node .error {} (popped.flatMap Entry.trees)]⟩) =
          ⟨extent below, c.cursor⟩ ::
            rangesOfAll .error (extent below) (popped.flatMap Entry.trees) := by
        rw [stop]
        exact (rangesOfAll_singleton _ _ _).trans (rangesOf_node _ _ _ _)
      rw [givenUp, rangesOfAll_forest_cons, Diagnostic.rangesOf_cons_eq code, shows]
      exact List.perm_middle.trans (shown.cons _)
    · refine List.forall_mem_cons.2 ⟨?_, accounted.ranges⟩
      refine ⟨?_, le_rfl, fun code => by cases code⟩
      change extent below ≤ c.cursor
      rw [stop]
      exact Nat.le_add_right _ _

/-- A token that is left out is reported by itself, or the report of the token before it is made to
reach over it. -/
theorem reportSkipped_cases (c : Config) (t : Token) (widen : Bool) (hint : Option String) :
    (∃ d : Diagnostic, d.LeavesOut ∧ d.range = t.range ∧
      reportSkipped c t widen hint = d :: c.diagnostics) ∨
    (widen = true ∧ ∃ last older, c.diagnostics = last :: older ∧ last.code = .unexpectedToken ∧
      reportSkipped c t widen hint = { last with range := last.range.cover t.range } :: older) := by
  unfold reportSkipped
  split
  · rename_i d own
    refine .inl ⟨_, ?_, ?_, rfl⟩
    · have lexical : d.code.isLexical = true := by
        unfold Token.diagnostic? at own
        split_ifs at own <;> cases own <;> rfl
      exact .inr lexical
    · unfold Token.diagnostic? at own
      split_ifs at own <;> cases own <;> rfl
  · split
    · rename_i last older reported
      split
      · rename_i widened
        rw [Bool.and_eq_true, decide_eq_true_eq] at widened
        exact .inr ⟨widened.1, last, older, reported, widened.2, rfl⟩
      · exact .inl ⟨_, .inl rfl, rfl, by rw [reported]⟩
    · rename_i none
      exact .inl ⟨_, .inl rfl, rfl, by rw [none]⟩

theorem reportSkipped_adds {older : List Diagnostic} {last : Diagnostic} {start : Nat}
    (reported : c.diagnostics = last :: older) (leavesOut : last.LeavesOut)
    (starts : start ≤ last.range.start) (ordered : last.range.start ≤ last.range.stop) {t : Token}
    (behind : last.range.stop ≤ t.start) (widen : Bool) (hint : Option String) :
    ∃ d rest, reportSkipped c t widen hint = d :: rest ∧
      Diagnostic.Adds start t.stop c.diagnostics d rest := by
  have further : t.start ≤ t.stop := Nat.le_add_right _ _
  rcases reportSkipped_cases c t widen hint with
    ⟨d, fresh, range, report⟩ | ⟨_, last', older', reported', code, report⟩
  · refine ⟨d, _, report, fresh, ?_, ?_, ?_, .inl rfl⟩ <;> rw [range]
    · exact starts.trans (ordered.trans behind)
    · exact further
    · exact le_rfl
  · obtain ⟨rfl, rfl⟩ := List.cons.inj (reported.symm.trans reported')
    have first : min last.range.start t.start = last.range.start := min_eq_left (by omega)
    have stops : max last.range.stop t.stop = t.stop := max_eq_right (by omega)
    refine ⟨_, _, report, leavesOut, ?_, ?_, stops.le, .inr ⟨last, reported, leavesOut, first.symm⟩⟩
    · exact starts.trans first.ge
    · exact first.le.trans (ordered.trans ((behind.trans further).trans stops.ge))

/-- One of several runs may be replaced by another one on both sides. -/
theorem perm_replace {α : Type} {as bs cs ds : List α} {x : α} (y : α)
    (same : (as ++ x :: bs).Perm (cs ++ x :: ds)) : (as ++ y :: bs).Perm (cs ++ y :: ds) := by
  have others : (as ++ bs).Perm (cs ++ ds) :=
    (List.perm_middle.symm.trans (same.trans List.perm_middle)).cons_inv
  exact List.perm_middle.trans ((others.cons y).trans List.perm_middle.symm)

/-- What the tokens left out last show: their own node, and what is below. -/
theorem rangesOfAll_skipped (placed : c.Placed stop) {e : Entry} {below : List Entry}
    (stack : c.stack = e :: below) (role : e.role = .skipped) :
    rangesOfAll .missing 0 (forest c.stack) =
        rangesOfAll .missing 0 (forest below) ++ rangesOfAll .missing (extent below) e.children ∧
      rangesOfAll .error 0 (forest c.stack) = rangesOfAll .error 0 (forest below) ++
        ⟨e.offset, c.cursor⟩ :: rangesOfAll .error (extent below) e.children := by
  have offset : e.offset = extent below := (stack ▸ placed.offsets).1
  have cursor := placed.cursor
  rw [stack, extent_cons] at cursor
  have trees : e.trees = [node .error {} e.children] := by simp [Entry.trees, role]
  constructor
  · rw [stack, rangesOfAll_forest_cons, trees, rangesOfAll_singleton, rangesOf_node_ne (by decide)]
  · rw [stack, rangesOfAll_forest_cons, trees, rangesOfAll_singleton, rangesOf_node, offset, cursor]

/-- A token that is left out behind others is added to their run. -/
theorem accounted_merge (placed : c.Placed stop) (placed' : c'.Placed stop)
    (accounted : c.Accounted) {e : Entry} {below : List Entry} (stack : c.stack = e :: below)
    (role : e.role = .skipped) (skipping : c.lastSkip = true) (more : List Token)
    (stack' : c'.stack = { e with children := e.children ++ more.map Config.leaf } :: below)
    {t : Token} (behind : c.cursor ≤ t.start) (cursor' : c'.cursor = t.stop) {c₁ : Config}
    (kept : c₁.diagnostics = c.diagnostics) {widen : Bool} {hint : Option String}
    (diagnostics' : c'.diagnostics = reportSkipped c₁ t widen hint) : c'.Accounted := by
  obtain ⟨runs, shown, fill, top⟩ := accounted.errors
  obtain ⟨e', below', others, last, older, run⟩ := top skipping
  obtain ⟨rfl, rfl⟩ := List.cons.inj (stack.symm.trans run.stack)
  obtain rfl := run.runs
  obtain ⟨ordered, within, _⟩ := accounted.ranges last (by simp [run.diagnostics])
  obtain ⟨d, rest, report, adds⟩ := reportSkipped_adds (kept.trans run.diagnostics) run.leavesOut
    run.inside.1 ordered (within.trans behind) widen hint
  have reported : c'.diagnostics = d :: rest := diagnostics'.trans report
  have further : c.cursor ≤ c'.cursor := by
    rw [cursor']
    exact behind.trans (Nat.le_add_right _ _)
  rw [← cursor', kept] at adds
  obtain ⟨missing, errors⟩ := rangesOfAll_skipped placed stack role
  obtain ⟨missing', errors'⟩ := rangesOfAll_skipped placed' stack' role
  rw [rangesOfAll_add rfl (faultlessIn_map_leaf more)] at missing' errors'
  refine ⟨?_, ⟨⟨e.offset, c'.cursor⟩ :: others, ?_, ?_, fun _ => ?_⟩, ?_⟩
  · rw [missing', ← missing, reported,
      adds.rangesOf_eq fun d leavesOut => leavesOut.ne_missingToken]
    exact accounted.missing
  · rw [errors', reported, adds.rangesOf_eq fun d leavesOut => leavesOut.ne_unexpectedInput]
    rw [errors] at shown
    exact perm_replace _ shown
  · rw [reported]
    exact adds.fillRuns further fill
  · exact ⟨_, below, others, d, rest, stack', role, rfl, reported, adds.leavesOut, adds.starts,
      adds.stops⟩
  · rw [reported]
    refine List.forall_mem_cons.2 ⟨⟨adds.ordered, adds.stops, fun code => ?_⟩, fun d' member => ?_⟩
    · exact absurd code adds.leavesOut.ne_missingToken
    · obtain ⟨ordered', inside, empty⟩ := accounted.ranges d' (adds.subset member)
      exact ⟨ordered', inside.trans further, empty⟩

/-- Any other token that is left out starts a run. -/
theorem accounted_open (placed : c.Placed stop) (placed' : c'.Placed stop)
    (accounted : c.Accounted) {e : Entry} (stack' : c'.stack = e :: c.flush.stack)
    (role : e.role = .skipped) {t : Token} (children : e.children = [Config.leaf t])
    (offset : e.offset = t.start) (behind : c.cursor ≤ t.start) (cursor' : c'.cursor = t.stop)
    {c₁ : Config} (kept : c₁.diagnostics = c.diagnostics) {hint : Option String}
    (diagnostics' : c'.diagnostics = reportSkipped c₁ t false hint) : c'.Accounted := by
  obtain ⟨runs, shown, fill, _⟩ := accounted.errors
  obtain ⟨missing', errors'⟩ := rangesOfAll_skipped placed' stack' role
  rcases reportSkipped_cases c₁ t false hint with ⟨d, leavesOut, range, report⟩ | ⟨widened, _⟩
  · have reported : c'.diagnostics = d :: c.diagnostics := by rw [diagnostics', report, kept]
    have own : (⟨e.offset, c'.cursor⟩ : ByteRange) = d.range := by rw [offset, cursor', range]; rfl
    rw [children, rangesOfAll_flush rfl placed] at missing' errors'
    rw [own] at errors'
    have further : t.start ≤ t.stop := Nat.le_add_right _ _
    refine ⟨?_, ⟨d.range :: runs, ?_, ?_, fun _ => ?_⟩, ?_⟩
    · rw [missing', reported, Diagnostic.rangesOf_cons_ne leavesOut.ne_missingToken]
      exact (List.append_nil _).symm ▸ accounted.missing
    · rw [errors', reported, Diagnostic.rangesOf_cons_ne leavesOut.ne_unexpectedInput]
      exact ((List.perm_append_singleton _ _).trans (shown.cons _)).trans List.perm_middle.symm
    · rw [reported]
      exact fill.opens leavesOut
    · refine ⟨e, _, runs, d, c.diagnostics, stack', role, by rw [own], reported, leavesOut, ?_⟩
      rw [range, offset, cursor']
      exact ⟨le_rfl, le_rfl⟩
    · rw [reported]
      refine List.forall_mem_cons.2 ⟨?_, fun d' member => ?_⟩
      · rw [range, cursor']
        exact ⟨further, le_rfl, fun code => absurd code leavesOut.ne_missingToken⟩
      · obtain ⟨ordered', inside, empty⟩ := accounted.ranges d' member
        exact ⟨ordered', by omega, empty⟩
  · cases widened

/-- The next token lies behind the text on the stack. -/
theorem cursor_le_start (placed : c.Placed stop) {t : Token} {rest : List Token}
    (front : c.rest = t :: rest) : c.cursor ≤ t.start := by
  have tokens := placed.tokens
  rw [front] at tokens
  obtain ⟨_, first, _⟩ := Token.abreast_append.1 tokens
  omega

theorem accounted_skip (placed : c.Placed stop) (accounted : c.Accounted)
    (h : s.skip c = .ok c') : c'.Accounted := by
  have placed' := placed_skip placed h
  obtain ⟨t, rest, front, rfl⟩ := skip_ok h
  have behind := cursor_le_start placed front
  revert placed'
  unfold pushSkipped
  split
  · rename_i state damaged offset children below skipping stack
    intro placed'
    exact accounted_merge placed placed' accounted stack rfl skipping (c.pending ++ [t]) (by simp)
      behind rfl (by rfl) rfl
  · intro placed'
    exact accounted_open placed placed' accounted rfl rfl rfl rfl behind rfl (by rw [flush_eq]) rfl

theorem Move.accounted (spares : s.table.SparesRepairs) (old : ∀ r, s.reuse = some r → r.Sound)
    (placed : c.Placed stop) (accounted : c.Accounted) (move : Move s c c') : c'.Accounted := by
  have still := placed.settle
  have settled := accounted.settle
  cases move with
  | insertReduce _ _ reduced => exact accounted_reduce spares accounted reduced
  | insertShift => exact accounted_pushMissing placed accounted _ _
  | insertStop => exact accounted.of_same (fun _ _ => rfl) rfl le_rfl fun skipped => by cases skipped
  | reduce _ _ _ reduced => exact accounted_reduce spares settled reduced
  | shift _ _ _ shifted => exact accounted_shift still settled shifted
  | takeOver _ _ _ reuse finds =>
    obtain ⟨record, fits⟩ := Reuse.find?_some finds
    obtain ⟨start, known⟩ := fits.known
    exact accounted_takeOver still settled ((old _ reuse _ known).faultless fits.recorded)
  | insert =>
    exact settled.of_same (fun _ _ => rfl) rfl le_rfl fun skipped =>
      ⟨skipped, rfl, fun e first role => ⟨e, first, role, rfl⟩⟩
  | wrap => exact accounted_wrap still settled _ _
  | skip _ _ _ _ _ skipped => exact accounted_skip still settled skipped

theorem moves_accounted (spares : s.table.SparesRepairs) (old : ∀ r, s.reuse = some r → r.Sound)
    (placed : c.Placed stop) (accounted : c.Accounted)
    (moves : Relation.ReflTransGen (Move s) c c') : c'.Accounted := by
  induction moves with
  | refl => exact accounted
  | tail before move ih => exact move.accounted spares old (moves_placed placed before) ih

end Setup

end ShaderTree
