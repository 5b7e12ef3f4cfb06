import ShaderTree.Proofs.Table.Drive
import ShaderTree.Table.Compatible

/-! What the check of a table is worth to whoever drives it. The stacks of a parse follow the
transitions of its rows, so the walk back over all predecessors passes through every stack that can
stand below a reduction: there is enough to take off, and a goto where it ends. -/
namespace ShaderTree.Table

variable {t : Table} {state next lhs : Nat} {k : Kind}

/-- A transition of a table, by a shift or a goto. -/
def Goes (t : Table) (state next : Nat) : Prop :=
  ∃ row, t.rows[state]? = some row ∧ next ∈ successors row

/-- A stack of states, top first, each of them reached from the one below it. -/
inductive Trail (t : Table) : List Nat → Prop
  | start : Trail t [0]
  | step {state next : Nat} {below : List Nat} (before : Trail t (state :: below))
      (goes : t.Goes state next) : Trail t (next :: state :: below)

theorem Trail.drop {states : List Nat} {n : Nat} (trail : t.Trail states) (inside : n < states.length) :
    t.Trail (states.drop n) := by
  induction trail generalizing n with
  | start =>
    obtain rfl : n = 0 := by simpa using inside
    exact .start
  | step before goes ih =>
    cases n with
    | zero => exact .step before goes
    | succ n => exact ih (Nat.lt_of_succ_lt_succ inside)

theorem goto?_eq_entry (goto : t.goto? state lhs = some next) :
    ∃ row, t.rows[state]? = some row ∧ row.gotos[lhs]? = some (some next) := by
  unfold Table.goto? at goto
  split at goto
  · rename_i row found
    exact ⟨row, found, Option.join_eq_some_iff.1 goto⟩
  · cases goto

theorem goes_of_shift (action : t.action state k = .shift next) : t.Goes state next := by
  obtain ⟨row, found, entry⟩ := action_eq (by simp) action
  refine ⟨row, found, List.mem_append_left _ (List.mem_filterMap.2 ⟨.shift next, ?_, rfl⟩)⟩
  exact Array.mem_toList_iff.2 (Array.mem_of_getElem? entry)

theorem goes_of_goto (goto : t.goto? state lhs = some next) : t.Goes state next := by
  obtain ⟨row, found, entry⟩ := goto?_eq_entry goto
  refine ⟨row, found, List.mem_append_right _ (List.mem_filterMap.2 ⟨some next, ?_, rfl⟩)⟩
  exact Array.mem_toList_iff.2 (Array.mem_of_getElem? entry)

/-! What a well-formed table has in its arrays -/

/-- All numbers in a table are inside of it, and every walk back from a reduction lands. -/
structure WellFormed (t : Table) : Prop where
  start : 0 < t.stateCount
  rows : ∀ row ∈ t.rows.toList, t.fitsRow row = true
  lhs : ∀ r ∈ t.reductions.toList, r.lhs < t.nonterminalCount
  land : t.reductionsLand = true

theorem wellFormed_of_compatible (compatible : t.checkCompatible = .ok ()) : t.WellFormed := by
  have formed : t.isWellFormed = true := by
    unfold checkCompatible at compatible
    cases kinds : checkKinds t.version t.kindCount with
    | error e => rw [kinds] at compatible; cases compatible
    | ok u =>
      rw [kinds] at compatible
      cases formed : t.isWellFormed with
      | true => rfl
      | false => simp [formed, bind, Except.bind, throw, throwThe, MonadExceptOf.throw] at compatible
  unfold isWellFormed at formed
  simp only [Bool.and_eq_true, decide_eq_true_eq] at formed
  obtain ⟨⟨⟨start, rows⟩, lhs⟩, land⟩ := formed
  refine ⟨start, ?_, ?_, land⟩
  · intro row member
    exact Array.all_eq_true_iff_forall_mem.1 rows row (Array.mem_toList_iff.1 member)
  · intro r member
    exact of_decide_eq_true
      (Array.all_eq_true_iff_forall_mem.1 lhs r (Array.mem_toList_iff.1 member))

namespace WellFormed

variable (formed : t.WellFormed)

include formed

theorem fitsRow {row : Row} (found : t.rows[state]? = some row) :
    row.actions.size = Kind.terminalCount ∧ row.gotos.size = t.nonterminalCount ∧
      (∀ a ∈ row.actions, t.fitsAction a = true) ∧
        ∀ target ∈ row.gotos, target.all (· < t.stateCount) = true := by
  have fits := formed.rows row (Array.mem_toList_iff.2 (Array.mem_of_getElem? found))
  unfold Table.fitsRow at fits
  simp only [Bool.and_eq_true, beq_iff_eq] at fits
  obtain ⟨⟨⟨actions, gotos⟩, inRange⟩, targets⟩ := fits
  exact ⟨actions, gotos, Array.all_eq_true_iff_forall_mem.1 inRange,
    Array.all_eq_true_iff_forall_mem.1 targets⟩

theorem goes_lt (goes : t.Goes state next) : next < t.stateCount := by
  obtain ⟨row, found, member⟩ := goes
  obtain ⟨_, _, actions, gotos⟩ := formed.fitsRow found
  rcases List.mem_append.1 member with shifted | gone
  · obtain ⟨a, inside, is⟩ := List.mem_filterMap.1 shifted
    have fits := actions a (Array.mem_toList_iff.1 inside)
    split at is
    · obtain rfl := Option.some.inj is
      exact of_decide_eq_true fits
    · cases is
  · obtain ⟨target, inside, is⟩ := List.mem_filterMap.1 gone
    have fits := gotos target (Array.mem_toList_iff.1 inside)
    obtain rfl : target = some next := is
    exact of_decide_eq_true fits

theorem trail_lt {states : List Nat} (trail : t.Trail states) :
    ∀ state ∈ states, state < t.stateCount := by
  induction trail with
  | start =>
    intro state member
    obtain rfl := List.mem_singleton.1 member
    exact formed.start
  | step before goes ih =>
    intro state member
    rcases List.mem_cons.1 member with rfl | member
    · exact formed.goes_lt goes
    · exact ih state member

/-- There is nothing to do on what is no terminal. -/
theorem isTerminal_of_action {a : Action} (action : t.action state k = a) (acts : a ≠ .error) :
    k.isTerminal = true := by
  obtain ⟨row, found, entry⟩ := action_eq acts action
  have bound := (Array.getElem?_eq_some_iff.1 entry).1
  rw [(formed.fitsRow found).1] at bound
  exact decide_eq_true bound

/-- A production that is reduced is there, and its nonterminal has a column. -/
theorem exists_reduction {p : Nat} (action : t.action state k = .reduce p) :
    ∃ r, t.reductions[p]? = some r ∧ r.lhs < t.nonterminalCount := by
  obtain ⟨row, found, entry⟩ := action_eq (by simp) action
  have fits := (formed.fitsRow found).2.2.1 _ (Array.mem_of_getElem? entry)
  have bound : p < t.reductions.size := of_decide_eq_true fits
  exact ⟨_, Array.getElem?_eq_getElem bound, formed.lhs _ (Array.getElem_mem_toList bound)⟩

end WellFormed

/-! The walk back -/

/-- Sets of predecessors that hold a state for a target. -/
def Lists (sets : Array IndexSet) (state next : Nat) : Prop :=
  (sets[next]?.getD .empty).mem state = true

theorem lists_modify {sets : Array IndexSet} {state next source target : Nat}
    (lists : Lists sets state next) : Lists (sets.modify target (·.insert source)) state next := by
  unfold Lists at lists ⊢
  rw [Array.getElem?_modify]
  split
  · cases found : sets[next]? with
    | none => simp [found] at lists
    | some s =>
      rw [found, Option.getD_some] at lists
      simp [lists]
  · exact lists

theorem lists_modify_self {sets : Array IndexSet} (inside : next < sets.size) :
    Lists (sets.modify next (·.insert state)) state next := by
  unfold Lists
  rw [Array.getElem?_modify, if_pos rfl, Array.getElem?_eq_getElem inside]
  simp

/-- Entering all successors of a state keeps what is listed and lists the state for each of them. -/
theorem lists_foldl_modify {sets : Array IndexSet} {source : Nat} {targets : List Nat} :
    (targets.foldl (fun sets next => sets.modify next (·.insert source)) sets).size = sets.size ∧
      (∀ state next, Lists sets state next →
        Lists (targets.foldl (fun sets next => sets.modify next (·.insert source)) sets) state next) ∧
        ∀ next ∈ targets, next < sets.size →
          Lists (targets.foldl (fun sets next => sets.modify next (·.insert source)) sets) source next := by
  induction targets generalizing sets with
  | nil => exact ⟨rfl, fun _ _ lists => lists, by simp⟩
  | cons target targets ih =>
    obtain ⟨size, keeps, enters⟩ := @ih (sets.modify target (·.insert source))
    rw [Array.size_modify] at size enters
    refine ⟨size, fun state next lists => keeps state next (lists_modify lists), ?_⟩
    intro next member inside
    rcases List.mem_cons.1 member with rfl | member
    · exact keeps source next (lists_modify_self inside)
    · exact enters next member inside

/-- Every transition is listed under its target. -/
theorem lists_predecessors (goes : t.Goes state next) (inside : next < t.stateCount) :
    Lists t.predecessors state next := by
  obtain ⟨row, found, member⟩ := goes
  have known : state < t.stateCount := (Array.getElem?_eq_some_iff.1 found).1
  unfold predecessors
  generalize empty : Array.replicate t.stateCount IndexSet.empty = sets
  have size : sets.size = t.stateCount := by rw [← empty, Array.size_replicate]
  obtain ⟨before, behind, split⟩ := List.append_of_mem (List.mem_range.2 known)
  rw [split, List.foldl_append, List.foldl_cons]
  refine foldl_induction (P := (Lists · state next)) ?_ fun sets other _ lists => ?_
  · generalize earlier : before.foldl _ sets = sets'
    have size' : sets'.size = t.stateCount := by
      rw [← earlier]
      refine foldl_induction (P := fun sets : Array IndexSet => sets.size = t.stateCount) size ?_
      intro sets other _ same
      split
      · exact same
      · exact lists_foldl_modify.1.trans same
    rw [found]
    exact lists_foldl_modify.2.2 next member (size' ▸ inside)
  · split
    · exact lists
    · exact lists_foldl_modify.2.1 state next lists

theorem mem_stepBack {s : IndexSet} {back : Array IndexSet} (lists : Lists back state next)
    (inside : next < t.stateCount) (on : s.mem next = true) : (t.stepBack back s).mem state = true := by
  unfold stepBack
  obtain ⟨before, behind, split⟩ := List.append_of_mem ((s.mem_below _ _).2 ⟨inside, on⟩)
  rw [split, List.foldl_append, List.foldl_cons]
  refine foldl_induction (P := fun u : IndexSet => u.mem state = true) ?_ fun u other _ old => ?_
  · rw [IndexSet.mem_union, Bool.or_eq_true]
    exact .inr lists
  · rw [IndexSet.mem_union, old, Bool.true_or]

/-- A walk back that lands does so along every stack: it does not come to its end, and there is a
goto below what is taken off. -/
theorem Trail.lands {top n : Nat} {below : List Nat} {s : IndexSet} (formed : t.WellFormed)
    (trail : t.Trail (top :: below)) (on : s.mem top = true)
    (lands : t.landsOnGoto t.predecessors lhs n s = true) :
    ∃ base under next, (top :: below).drop n = base :: under ∧ t.goto? base lhs = some next := by
  induction n generalizing top below s with
  | zero =>
    have bound := formed.trail_lt trail top (.head _)
    have goto := List.all_eq_true.1 lands top ((s.mem_below _ _).2 ⟨bound, on⟩)
    obtain ⟨next, is⟩ := Option.isSome_iff_exists.1 goto
    exact ⟨top, below, next, rfl, is⟩
  | succ n ih =>
    unfold landsOnGoto at lands
    rw [Bool.and_eq_true, Bool.not_eq_true'] at lands
    cases trail with
    | start => rw [on] at lands; cases lands.1
    | step before goes =>
      have bound := formed.goes_lt goes
      exact ih before (mem_stepBack (lists_predecessors goes bound) bound on) lands.2

/-- A reduction that a compatible table asks for has what it takes: symbols enough on the stack and
a goto in the state below them. -/
theorem Trail.reduces {top p : Nat} {below : List Nat} (formed : t.WellFormed)
    (trail : t.Trail (top :: below)) (action : t.action top k = .reduce p) :
    ∃ r base under next, t.reductions[p]? = some r ∧ r.lhs < t.nonterminalCount ∧
      (top :: below).drop r.length = base :: under ∧ t.goto? base r.lhs = some next := by
  obtain ⟨r, known, bound⟩ := formed.exists_reduction action
  obtain ⟨row, found, entry⟩ := action_eq (by simp) action
  have land := List.all_eq_true.1 formed.land top
    (List.mem_range.2 (formed.trail_lt trail top (.head _)))
  have listed : p ∈ reduced row := List.mem_eraseDups.2 (List.mem_filterMap.2
    ⟨.reduce p, Array.mem_toList_iff.2 (Array.mem_of_getElem? entry), rfl⟩)
  rw [found, Option.map_some, Option.getD_some] at land
  have lands := List.all_eq_true.1 land p listed
  rw [known] at lands
  obtain ⟨base, under, next, dropped, goto⟩ := trail.lands formed (by simp) lands
  exact ⟨r, base, under, next, known, bound, dropped, goto⟩

end ShaderTree.Table
