import ShaderTree.Proofs.Parser.Spelled
import ShaderTree.Proofs.Tree.Shape

/-! How a table builds a piece of the stack: from a state, reading some tokens and with a terminal
behind them, by shifts and reductions alone. What is built this way does not depend on what is below
it, so it can be built again wherever the same state is on top. -/
namespace ShaderTree

open Token (Label label)

/-- What an entry without repairs is to the rest of a parse: its state, whether it is a symbol, and
what it adds to the tree, without marks. -/
structure Cell where
  state : Nat
  isSymbol : Bool
  trees : List Tree

namespace Cell

/-- State on top of some cells on a state. -/
def top (base : Nat) : List Cell → Nat
  | [] => base
  | c :: _ => c.state

/-- Takes cells off until `n` symbols are gone, bottom first; `none` if there are not enough. -/
def pop : Nat → List Cell → Option (List Cell × List Cell)
  | 0, cells => some ([], cells)
  | _ + 1, [] => none
  | n + 1, c :: below =>
    (pop (if c.isSymbol then n else n + 1) below).map fun (popped, rest) => (popped ++ [c], rest)

/-- Cells of blanks and comments, top first. -/
def blanks (state : Nat) (labels : List Label) : List Cell :=
  (labels.map fun l => ⟨state, false, [.leaf l.1 l.2]⟩).reverse

end Cell

/-- What a reduction makes of the trees of its symbols. -/
def Reduction.trees (r : Reduction) (below : List Tree) : List Tree :=
  match r.node? with
  | none => below
  | some k => [.node k {} below]

/-- From the state `base` with nothing above it, shifts of the labelled tokens and reductions lead to
these cells, top first. The last reductions, behind the last token, are made on `follow`. -/
inductive Table.Builds (t : Table) (base : Nat) : Kind → List Label → List Cell → Prop
  | nil (follow : Kind) : Builds t base follow [] []
  | shift (follow : Kind) {l : Label} {ls blanks : List Label} {cells : List Cell} {next : Nat}
      (before : Builds t base l.1 ls cells) (text : l.1.isTrivia = false)
      (between : ∀ b ∈ blanks, b.1.isTrivia = true)
      (action : t.action (Cell.top base cells) l.1 = .shift next) :
      Builds t base follow (ls ++ blanks ++ [l])
        (⟨next, true, [.leaf l.1 l.2]⟩ :: (Cell.blanks (Cell.top base cells) blanks ++ cells))
  | reduce {follow : Kind} {ls : List Label} {cells popped below : List Cell} {p next : Nat}
      {r : Reduction} (before : Builds t base follow ls cells)
      (action : t.action (Cell.top base cells) follow = .reduce p)
      (known : t.reductions[p]? = some r) (pops : Cell.pop r.length cells = some (popped, below))
      (goto : t.goto? (Cell.top base below) r.lhs = some next) :
      Builds t base follow ls (⟨next, true, r.trees (popped.flatMap (·.trees))⟩ :: below)

/-- On the terminal the state takes nothing off the stack. -/
def Table.Rests (t : Table) (state : Nat) (k : Kind) : Prop :=
  ∀ p r, t.action state k = .reduce p → t.reductions[p]? = some r → r.length = 0

/-- What is built with one terminal behind it, and then left at that, is built with each terminal that is
reduced on behind it: the reductions that led there do not hang on the terminal. -/
def Table.Steady (t : Table) : Prop :=
  ∀ {base : Nat} {k l : Kind} {ls : List Label} {cells : List Cell} {p : Nat},
    t.Builds base k ls cells → t.Rests (Cell.top base cells) k →
      t.action (Cell.top base cells) l = .reduce p → t.Builds base l ls cells

theorem Table.rests_of_action {t : Table} {state : Nat} {k : Kind}
    (other : ∀ p, t.action state k ≠ .reduce p) : t.Rests state k :=
  fun p _ action => absurd action (other p)

/-- A table is steady if a terminal that is reduced on where a reduction leads is reduced on in front
of this reduction too. -/
theorem Table.steady_of_landings {t : Table} (landings : ∀ {state p base next q : Nat} {k l : Kind}
    {r : Reduction}, t.action state k = .reduce p → t.reductions[p]? = some r →
      t.goto? base r.lhs = some next → t.action next l = .reduce q → t.action state l = .reduce p) :
    t.Steady := by
  intro base k l ls cells q builds rests action
  clear rests
  induction builds generalizing q with
  | nil => exact .nil l
  | shift _ before text between shifts => exact .shift l before text between shifts
  | reduce _ reduces known pops goto ih =>
    have earlier := landings reduces known goto action
    exact .reduce (ih earlier) earlier known pops goto

/-- Whether a row makes the reduction `p` on each terminal that another one reduces on. -/
def Row.reducesAhead (row : Row) (p : Nat) (landing : Row) : Bool :=
  (List.range landing.actions.size).all fun k =>
    match landing.actions[k]? with
    | some (.reduce _) => row.actions[k]? = some (.reduce p)
    | _ => true

/-- Rows that a reduction can lead to. -/
def Table.landings (t : Table) (p : Nat) : List Row :=
  t.reductions[p]?.toList.flatMap fun r =>
    t.rows.toList.filterMap fun base => base.gotos[r.lhs]?.join.bind (t.rows[·]?)

/-- A test for steadiness. -/
def Table.landsSteadily (t : Table) : Bool :=
  t.rows.toList.all fun row => row.actions.toList.all fun
    | .reduce p => (t.landings p).all (row.reducesAhead p)
    | _ => true

theorem Table.mem_landings {t : Table} {p base next : Nat} {r : Reduction} {row : Row}
    (known : t.reductions[p]? = some r) (goto : t.goto? base r.lhs = some next)
    (found : t.rows[next]? = some row) : row ∈ t.landings p := by
  unfold goto? at goto
  cases lower : t.rows[base]? with
  | none => rw [lower] at goto; cases goto
  | some under =>
    rw [lower] at goto
    dsimp only at goto
    rw [landings, known]
    simp only [Option.toList_some, List.flatMap_cons, List.flatMap_nil, List.append_nil]
    refine List.mem_filterMap.2 ⟨under, Array.mem_toList_iff.2 (Array.mem_of_getElem? lower), ?_⟩
    rw [goto, Option.bind_some, found]

theorem Table.steady_of_landsSteadily {t : Table} (lands : t.landsSteadily = true) : t.Steady := by
  refine steady_of_landings fun {state p base next q k l r} reduces known goto reduces' => ?_
  obtain ⟨row, found, entry⟩ := action_eq (by simp) reduces
  obtain ⟨landing, found', entry'⟩ := action_eq (by simp) reduces'
  have own := List.all_eq_true.1 lands row (Array.mem_toList_iff.2 (Array.mem_of_getElem? found))
  have reduction := List.all_eq_true.1 own _ (Array.mem_toList_iff.2 (Array.mem_of_getElem? entry))
  have ahead := List.all_eq_true.1 reduction landing (mem_landings known goto found')
  have test := List.all_eq_true.1 ahead l.index
    (List.mem_range.2 (Array.getElem?_eq_some_iff.1 entry').1)
  rw [entry'] at test
  have same : row.actions[l.index]? = some (.reduce p) := of_decide_eq_true test
  rw [action, found]
  dsimp only
  rw [same, Option.getD_some]

namespace Cell

variable {n : Nat} {cells popped below : List Cell}

@[simp] theorem pop_zero (cells : List Cell) : pop 0 cells = some ([], cells) := by
  cases cells <;> rfl

theorem pop_split (pops : pop n cells = some (popped, below)) : cells = popped.reverse ++ below := by
  induction cells generalizing n popped below with
  | nil =>
    cases n with
    | zero =>
      obtain ⟨rfl, rfl⟩ := Prod.mk.inj (Option.some.inj pops)
      rfl
    | succ n => cases pops
  | cons c cells ih =>
    cases n with
    | zero =>
      obtain ⟨rfl, rfl⟩ := Prod.mk.inj (Option.some.inj pops)
      rfl
    | succ n =>
      rw [pop, Option.map_eq_some_iff] at pops
      obtain ⟨⟨inner, rest⟩, pops, is⟩ := pops
      obtain ⟨rfl, rfl⟩ := Prod.mk.inj is
      rw [ih pops, List.reverse_append, List.append_assoc]
      rfl

/-- What is taken off is the same on top of other cells. -/
theorem pop_trim (pops : pop n cells = some (popped, below)) (other : List Cell) :
    pop n (popped.reverse ++ other) = some (popped, other) := by
  induction cells generalizing n popped below with
  | nil =>
    cases n with
    | zero =>
      obtain ⟨rfl, rfl⟩ := Prod.mk.inj (Option.some.inj pops)
      simp
    | succ n => cases pops
  | cons c cells ih =>
    cases n with
    | zero =>
      obtain ⟨rfl, rfl⟩ := Prod.mk.inj (Option.some.inj pops)
      simp
    | succ n =>
      rw [pop, Option.map_eq_some_iff] at pops
      obtain ⟨⟨inner, rest⟩, pops, is⟩ := pops
      obtain ⟨rfl, rfl⟩ := Prod.mk.inj is
      rw [List.reverse_append, List.reverse_singleton, List.singleton_append, List.cons_append, pop,
        ih pops]
      rfl

/-- Cells further down do not matter to those that are taken off. -/
theorem pop_append (pops : pop n cells = some (popped, below)) (lower : List Cell) :
    pop n (cells ++ lower) = some (popped, below ++ lower) := by
  rw [pop_split pops, List.append_assoc]
  exact pop_trim pops _

end Cell

namespace Cell

variable {base : Nat}

theorem top_append (base : Nat) (upper lower : List Cell) :
    top base (upper ++ lower) = top (top base lower) upper := by
  cases upper <;> rfl

/-- Blanks repeat the state below them. -/
theorem top_blanks (state : Nat) (labels : List Label) : top state (blanks state labels) = state := by
  unfold blanks
  cases is : (labels.map fun l => (⟨state, false, [.leaf l.1 l.2]⟩ : Cell)).reverse with
  | nil => rfl
  | cons c cells =>
    obtain ⟨l, _, rfl⟩ := List.mem_map.1 (List.mem_reverse.1 (is ▸ List.mem_cons_self))
    rfl

theorem top_blanks_append (base : Nat) (labels : List Label) (cells : List Cell) :
    top base (blanks (top base cells) labels ++ cells) = top base cells := by
  rw [top_append, top_blanks]

end Cell

/-- The terminal that the first action on a piece of the stack is made for. -/
def Token.kindOf (follow : Kind) : List Label → Kind
  | [] => follow
  | l :: _ => l.1

namespace Table.Builds

open Token (kindOf)

variable {t : Table} {base : Nat} {k h : Kind} {ls ls' blanks : List Label}
  {cells cells' : List Cell}

theorem kindOf_append {l : Label} {front : List Label} (is : kindOf k (front ++ blanks ++ [l]) = h)
    (between : ∀ b ∈ blanks, b.1.isTrivia = true) (text : h.isTrivia = false) :
    kindOf l.1 front = h ∧ (front = [] → blanks = []) := by
  cases front with
  | cons f front => exact ⟨is, fun none => nomatch none⟩
  | nil =>
    cases blanks with
    | nil => exact ⟨is, fun _ => rfl⟩
    | cons b blanks =>
      obtain rfl : b.1 = h := is
      rw [between b (by simp)] at text
      cases text

/-- What starts with a shift can be built on top of what was built before that shift. -/
theorem append {next : Nat} (lower : t.Builds base h ls cells) (text : h.isTrivia = false)
    (between : ∀ b ∈ blanks, b.1.isTrivia = true)
    (action : t.action (Cell.top base cells) h = .shift next)
    (upper : t.Builds (Cell.top base cells) k ls' cells') (first : kindOf k ls' = h) :
    (ls' = [] ∧ cells' = []) ∨ ls' ≠ [] ∧ t.Builds base k (ls ++ blanks ++ ls')
      (cells' ++ (Cell.blanks (Cell.top base cells) blanks ++ cells)) := by
  induction upper with
  | nil => exact .inl ⟨rfl, rfl⟩
  | @shift follow l front gap upper target before text' between' action' ih =>
    refine .inr ⟨by simp, ?_⟩
    obtain ⟨first, none⟩ := kindOf_append first between' text
    rcases ih first with ⟨rfl, rfl⟩ | ⟨_, built⟩
    · obtain rfl := none rfl
      obtain rfl : l.1 = h := first
      exact .shift follow lower text between action'
    · have shifts : t.action (Cell.top base (upper ++
          (Cell.blanks (Cell.top base cells) blanks ++ cells))) l.1 = .shift target := by
        rw [Cell.top_append, Cell.top_blanks_append]
        exact action'
      have both := built.shift follow text' between' shifts
      rw [Cell.top_append, Cell.top_blanks_append] at both
      simpa only [List.append_assoc, List.cons_append] using both
  | reduce before action' known pops goto ih =>
    rcases ih first with ⟨rfl, rfl⟩ | ⟨some, built⟩
    · obtain rfl : _ = h := first
      exact nomatch action.symm.trans action'
    · refine .inr ⟨some, ?_⟩
      have both := built.reduce (by rw [Cell.top_append, Cell.top_blanks_append]; exact action')
        known (Cell.pop_append pops _)
        (by rw [Cell.top_append, Cell.top_blanks_append]; exact goto)
      exact both

end Table.Builds

namespace Entry

def cell (e : Entry) : Cell := ⟨e.state, e.isSymbol, Tree.plainAll e.trees⟩

end Entry

namespace Config

@[simp] theorem pop_zero (stack : List Entry) : pop 0 stack = ([], stack) := by
  cases stack <;> rfl

/-- What is left below some symbols is below the topmost one. -/
theorem pop_succ_suffix (n : Nat) (stack : List Entry) :
    (pop (n + 1) stack).2 <:+ (stack.dropWhile (!·.isSymbol)).tail := by
  induction stack with
  | nil => exact List.suffix_refl _
  | cons e below ih =>
    cases role : e.isSymbol with
    | true =>
      rw [pop, List.dropWhile_cons_of_neg (by simp [role]), role]
      exact pop_suffix n below
    | false =>
      rw [pop, List.dropWhile_cons_of_pos (by simp [role]), role]
      exact ih

/-- Entries are taken off as their cells are. -/
theorem pop_cells {n : Nat} {stack : List Entry} {cells popped below : List Cell}
    (lower : List Entry) (is : stack.map Entry.cell = cells)
    (pops : Cell.pop n cells = some (popped, below)) :
    ∃ taken left, pop n (stack ++ lower) = (taken, left ++ lower) ∧
      stack = taken.reverse ++ left ∧ taken.map Entry.cell = popped ∧
      left.map Entry.cell = below := by
  induction stack generalizing n cells popped below with
  | nil =>
    obtain rfl := is
    cases n with
    | zero =>
      obtain ⟨rfl, rfl⟩ := Prod.mk.inj (Option.some.inj pops)
      exact ⟨[], [], by simp, rfl, rfl, rfl⟩
    | succ n => cases pops
  | cons e stack ih =>
    obtain rfl := is
    cases n with
    | zero =>
      obtain ⟨rfl, rfl⟩ := Prod.mk.inj (Option.some.inj pops)
      exact ⟨[], e :: stack, rfl, rfl, rfl, rfl⟩
    | succ n =>
      rw [List.map_cons, Cell.pop, Option.map_eq_some_iff] at pops
      obtain ⟨⟨inner, rest⟩, pops, is⟩ := pops
      obtain ⟨rfl, rfl⟩ := Prod.mk.inj is
      obtain ⟨taken, left, popped, split, rfl, rfl⟩ := ih rfl pops
      refine ⟨taken ++ [e], left, ?_, ?_, by simp, rfl⟩
      · rw [List.cons_append, pop, show e.isSymbol = e.cell.isSymbol from rfl, popped]
      · rw [split, List.reverse_append, List.append_assoc]
        rfl

/-- Where there are symbols enough, their cells can be taken off. -/
theorem exists_pop_cells {n : Nat} {stack : List Entry}
    (enough : n ≤ (stack.filter Entry.isSymbol).length) :
    Cell.pop n (stack.map Entry.cell) =
      some ((pop n stack).1.map Entry.cell, (pop n stack).2.map Entry.cell) := by
  fun_induction pop n stack with
  | case1 => simp
  | case2 => simp at enough
  | case3 n e below popped rest eq ih =>
    have more : (if e.isSymbol then n else n + 1) ≤ (below.filter Entry.isSymbol).length := by
      cases role : e.isSymbol <;> simp [role] at enough ⊢ <;> omega
    rw [eq] at ih
    rw [List.map_cons, Cell.pop, show e.cell.isSymbol = e.isSymbol from rfl, ih more]
    simp

/-- The last of the symbols that are taken off comes first. -/
theorem isSymbol_head_pop {n : Nat} {stack : List Entry}
    (enough : n ≤ (stack.filter Entry.isSymbol).length) :
    ∀ e ∈ (pop n stack).1.head?, e.isSymbol = true := by
  fun_induction pop n stack with
  | case1 => simp
  | case2 => simp
  | case3 n e below popped rest eq ih =>
    have more : (if e.isSymbol then n else n + 1) ≤ (below.filter Entry.isSymbol).length := by
      cases role : e.isSymbol <;> simp [role] at enough ⊢ <;> omega
    rw [eq] at ih
    intro f first
    cases inner : popped with
    | cons d popped =>
      rw [inner, List.cons_append, List.head?_cons] at first
      exact ih more f (by rw [inner]; exact first)
    | nil =>
      obtain rfl : e = f := by simpa [inner] using first
      cases role : e.isSymbol with
      | true => rfl
      | false =>
        rw [role] at eq more
        cases below with
        | nil => simp at more
        | cons d below =>
          rw [if_neg Bool.false_ne_true, pop, inner] at eq
          exact absurd (congrArg Prod.fst eq) (by simp)

theorem top_cells (upper lower : List Entry) :
    Cell.top (topState lower) (upper.map Entry.cell) = topState (upper ++ lower) := by
  cases upper <;> rfl

end Config

end ShaderTree
