import Mathlib.Data.Option.Basic
import ShaderTree.Table.Build

/-! Where the entries of a built table come from: shifts and gotos from the transitions of their
state, reductions and acceptance from complete items on their lookaheads. -/
namespace ShaderTree

theorem Kind.index_injective {a b : Kind} (same : a.index = b.index) : a = b := by
  rw [← Kind.ofNat_ctorIdx a, ← Kind.ofNat_ctorIdx b]
  exact congrArg Kind.ofNat same

/-- What holds at the start and is kept by each item of a list holds after all of them. -/
theorem foldlM_ok_induction {α β ε : Type} {P : β → Prop} {f : β → α → Except ε β} {xs : List α}
    {b b' : β} (start : P b) (step : ∀ b a b', a ∈ xs → P b → f b a = .ok b' → P b')
    (h : xs.foldlM f b = .ok b') : P b' := by
  induction xs generalizing b with
  | nil =>
    obtain rfl := Except.ok.inj h
    exact start
  | cons x xs ih =>
    rw [List.foldlM_cons] at h
    cases first : f b x with
    | error e => rw [first] at h; cases h
    | ok b1 =>
      rw [first] at h
      exact ih (step b x b1 (by simp) start first)
        (fun b a b' member => step b a b' (by simp [member])) h

theorem foldl_induction {α β : Type} {P : β → Prop} {f : β → α → β} {xs : List α} {b : β}
    (start : P b) (step : ∀ b a, a ∈ xs → P b → P (f b a)) : P (xs.foldl f b) := by
  induction xs generalizing b with
  | nil => exact start
  | cons x xs ih =>
    exact ih (step b x (by simp) start) fun b a member => step b a (by simp [member])

/-- Where the steps of a fold only ever add something and all together add nothing, none of them
does. -/
theorem foldl_fixed {α β : Type} {P : β → Prop} {le : β → β → Prop} {f : β → α → β}
    (refl : ∀ b, le b b) (trans : ∀ {a b c}, le a b → le b c → le a c)
    (antisymm : ∀ {a b}, P a → P b → le a b → le b a → a = b)
    (grows : ∀ b x, le b (f b x)) {xs : List α} {b : β} (start : P b)
    (keeps : ∀ b x, x ∈ xs → P b → P (f b x)) (fixed : xs.foldl f b = b) :
    ∀ x ∈ xs, f b x = b := by
  induction xs with
  | nil => simp
  | cons x xs ih =>
    rw [List.foldl_cons] at fixed
    have same : f b x = b := by
      refine (antisymm start (keeps b x (.head _) start) (grows b x) ?_).symm
      have later : le (f b x) (xs.foldl f (f b x)) :=
        foldl_induction (refl _) fun b y _ next => trans next (grows b y)
      rwa [fixed] at later
    intro y member
    rcases List.mem_cons.mp member with rfl | member
    · exact same
    · rw [same] at fixed
      exact ih (fun b z inside => keeps b z (.tail _ inside)) fixed y member

theorem getElem?_of_mapM {α β ε : Type} {f : α → Except ε β} {xs : List α} {ys : List β}
    (h : xs.mapM f = .ok ys) (i : Nat) :
    (xs[i]? = none ∧ ys[i]? = none) ∨ ∃ x y, xs[i]? = some x ∧ ys[i]? = some y ∧ f x = .ok y := by
  induction xs generalizing ys i with
  | nil =>
    obtain rfl := Except.ok.inj h
    exact .inl ⟨rfl, rfl⟩
  | cons x xs ih =>
    rw [List.mapM_cons] at h
    cases first : f x with
    | error e => rw [first] at h; cases h
    | ok y =>
      cases others : xs.mapM f with
      | error e => rw [first, others] at h; cases h
      | ok zs =>
        rw [first, others] at h
        obtain rfl := Except.ok.inj h
        cases i with
        | zero => exact .inr ⟨x, y, rfl, rfl, first⟩
        | succ i => exact ih others i

theorem length_of_mapM {α β ε : Type} {f : α → Except ε β} {xs : List α} {ys : List β}
    (h : xs.mapM f = .ok ys) : ys.length = xs.length := by
  apply Nat.le_antisymm
  · rcases getElem?_of_mapM h xs.length with ⟨_, none⟩ | ⟨x, _, is, _⟩
    · exact List.getElem?_eq_none_iff.1 none
    · simp at is
  · rcases getElem?_of_mapM h ys.length with ⟨none, _⟩ | ⟨_, y, _, is, _⟩
    · exact List.getElem?_eq_none_iff.1 none
    · simp at is

namespace Grammar

/-- The dot is behind the whole right-hand side. -/
def IsComplete (g : Grammar) (i : Item) : Prop := (g.rhs i.production).length ≤ i.dot

/-- The action of a complete item. -/
def actionOf (g : Grammar) (i : Item) : Action :=
  if i.production = g.startRule then .accept else .reduce i.production

theorem shiftOrReduce?_cases {g : Grammar} {k : Kind} {shift a : Action} {p : Nat}
    (h : g.shiftOrReduce? k shift p = some a) : a = .reduce p ∨ a = shift ∨ a = .error := by
  unfold shiftOrReduce? at h
  cases production : g.productionPrecedence? p with
  | none => simp [production] at h
  | some l =>
    cases token : g.tokenPrecedence? k with
    | none => simp [production, token] at h
    | some t =>
      simp only [production, token, Option.bind_eq_bind, Option.bind_some, Option.pure_def] at h
      split at h
      · exact .inl (Option.some.inj h).symm
      · split at h
        · exact .inr (.inl (Option.some.inj h).symm)
        · split at h
          · exact .inl (Option.some.inj h).symm
          · exact .inr (.inl (Option.some.inj h).symm)
          · exact .inr (.inr (Option.some.inj h).symm)

theorem reduceOrReduce?_cases {g : Grammar} {old new : Nat} {a : Action}
    (h : g.reduceOrReduce? old new = some a) : a = .reduce old ∨ a = .reduce new := by
  unfold reduceOrReduce? at h
  cases first : g.productionPrecedence? old with
  | none => simp [first] at h
  | some l =>
    cases second : g.productionPrecedence? new with
    | none => simp [first, second] at h
    | some m =>
      simp only [first, second, Option.bind_eq_bind, Option.bind_some, Option.pure_def,
        Option.bind_eq_some_iff, Option.some.injEq] at h
      obtain ⟨_, _, rfl⟩ := h
      split
      · exact .inr rfl
      · exact .inl rfl

/-- Of two actions one is taken, or neither. -/
theorem resolve_cases {g : Grammar} {state : Nat} {k : Kind} {current candidate a : Action}
    (h : g.resolve state k current candidate = .ok a) :
    a = current ∨ a = candidate ∨ a = .error := by
  unfold resolve at h
  dsimp only at h
  split at h
  · exact .inr (.inl (Except.ok.inj h).symm)
  · rename_i next p
    cases chosen : g.shiftOrReduce? k (.shift next) p with
    | none => simp [chosen] at h
    | some b =>
      rw [chosen] at h
      obtain rfl := Except.ok.inj h
      rcases shiftOrReduce?_cases chosen with is | is | is
      · exact .inr (.inl is)
      · exact .inl is
      · exact .inr (.inr is)
  · rename_i old new
    cases chosen : g.reduceOrReduce? old new with
    | none => simp [chosen] at h
    | some b =>
      rw [chosen] at h
      obtain rfl := Except.ok.inj h
      rcases reduceOrReduce?_cases chosen with is | is
      · exact .inl is
      · exact .inr (.inl is)
  · cases h

end Grammar

namespace Table

/-- A reason for the action that a row has in a column. -/
def Justified (g : Grammar) (transitions : List (Symbol × Nat)) (items : List (Item × IndexSet))
    (column : Nat) : Action → Prop
  | .error => True
  | .shift next => ∃ k : Kind, k.index = column ∧ (.terminal k, next) ∈ transitions
  | a => ∃ entry ∈ items, g.IsComplete entry.1 ∧ entry.2.mem column = true ∧ a = g.actionOf entry.1

def RowJustified (g : Grammar) (transitions : List (Symbol × Nat))
    (items : List (Item × IndexSet)) (row : Array Action) : Prop :=
  ∀ column a, row[column]? = some a → Justified g transitions items column a

theorem justified_actionOf {g : Grammar} {transitions : List (Symbol × Nat)}
    {items : List (Item × IndexSet)} {entry : Item × IndexSet} {column : Nat}
    (member : entry ∈ items) (complete : g.IsComplete entry.1)
    (lookahead : entry.2.mem column = true) :
    Justified g transitions items column (g.actionOf entry.1) := by
  have reason : ∃ e ∈ items, g.IsComplete e.1 ∧ e.2.mem column = true ∧
      g.actionOf entry.1 = g.actionOf e.1 := ⟨entry, member, complete, lookahead, rfl⟩
  cases action : g.actionOf entry.1 with
  | error => exact trivial
  | shift next =>
    unfold Grammar.actionOf at action
    split at action <;> cases action
  | reduce p => rwa [action] at reason
  | accept => rwa [action] at reason

theorem justified_getD {g : Grammar} {transitions : List (Symbol × Nat)}
    {items : List (Item × IndexSet)} {row : Array Action}
    (justified : RowJustified g transitions items row) (column : Nat) :
    Justified g transitions items column (row[column]?.getD .error) := by
  cases entry : row[column]? with
  | none => exact trivial
  | some a => exact justified column a entry

theorem rowJustified_set {g : Grammar} {transitions : List (Symbol × Nat)}
    {items : List (Item × IndexSet)} {row : Array Action}
    (justified : RowJustified g transitions items row) {column : Nat} {a : Action}
    (reason : Justified g transitions items column a) :
    RowJustified g transitions items (row.setIfInBounds column a) := by
  intro i b entry
  rw [Array.getElem?_setIfInBounds] at entry
  split at entry
  · rename_i same
    subst same
    split at entry
    · obtain rfl := Option.some.inj entry
      exact reason
    · cases entry
  · exact justified i b entry

theorem shiftRow_justified {g : Grammar} {transitions : List (Symbol × Nat)}
    {items : List (Item × IndexSet)} : RowJustified g transitions items (shiftRow transitions) := by
  unfold shiftRow
  apply foldl_induction
  · intro column a entry
    rw [Array.getElem?_replicate] at entry
    split at entry
    · obtain rfl := Option.some.inj entry
      exact trivial
    · cases entry
  · rintro row ⟨x, target⟩ member justified
    cases x with
    | terminal k => exact rowJustified_set justified ⟨k, rfl, member⟩
    | nonterminal n => exact justified

theorem enterItem_justified {g : Grammar} {state : Nat} {transitions : List (Symbol × Nat)}
    {items : List (Item × IndexSet)} {row row' : Array Action} {entry : Item × IndexSet}
    (member : entry ∈ items) (justified : RowJustified g transitions items row)
    (h : enterItem g state row entry = .ok row') : RowJustified g transitions items row' := by
  unfold enterItem at h
  split at h
  · obtain rfl := Except.ok.inj h
    exact justified
  · rename_i notInside
    have complete : g.IsComplete entry.1 := Nat.not_lt.1 notInside
    refine foldlM_ok_induction justified ?_ h
    intro row k row' inside justified entered
    have lookahead := (List.mem_filter.1 inside).2
    unfold enter at entered
    cases resolved : g.resolve state k (row[k.index]?.getD .error)
        (if entry.1.production = g.startRule then .accept else .reduce entry.1.production) with
    | error e => rw [resolved] at entered; cases entered
    | ok a =>
      rw [resolved] at entered
      obtain rfl := Except.ok.inj entered
      apply rowJustified_set justified
      rcases Grammar.resolve_cases resolved with rfl | rfl | rfl
      · exact justified_getD justified k.index
      · exact justified_actionOf member complete lookahead
      · exact trivial

/-- A row with the transitions and the items that it was built from. -/
theorem buildRow_justified {a : Analysis} {known : Analysis.Lookaheads} {state : Nat} {row : Row}
    (h : buildRow a known state = .ok row) :
    RowJustified a.grammar ((a.automaton.states[state]?.map (·.transitions)).getD [])
      (a.itemsWith known state) row.actions := by
  unfold buildRow at h
  dsimp only at h
  generalize transitionsIs : (a.automaton.states[state]?.map (·.transitions)).getD [] = transitions
    at h ⊢
  cases entered : (a.itemsWith known state).foldlM (enterItem a.grammar state)
      (shiftRow transitions) with
  | error e => rw [entered] at h; cases h
  | ok actions =>
    rw [entered] at h
    obtain rfl := Except.ok.inj h
    refine foldlM_ok_induction shiftRow_justified ?_ entered
    intro row entry row' member justified step
    exact enterItem_justified member justified step

end Table

end ShaderTree
