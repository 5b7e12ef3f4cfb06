import ShaderTree.Proofs.Parser.Rebuild

/-! A built piece of the stack by the productions that it was read with. Where `Table.Builds` follows the
shifts and reductions in the order in which they are made, a reading has each symbol with the symbols that
it was reduced from, each on the state that it was read on and with the terminal that stood behind it. -/
namespace ShaderTree

open Token (Label)

/-- The terminal in front of some tokens, `follow` if they are all blank. -/
def Token.ahead (follow : Kind) (ls : List Label) : Kind :=
  ((ls.find? (!·.1.isTrivia)).map (·.1)).getD follow

/-- The trees of some cells, the lowest first. -/
def Cell.forest (cells : List Cell) : List Tree := cells.reverse.flatMap (·.trees)

/-- On the state `base` the table reads these symbols, the last one first, from the labelled tokens:
terminals are shifted, and a nonterminal is reduced from a reading of its production on the terminal
behind that, which starts with a symbol and not with blanks. -/
inductive Table.Reads (t : Table) (g : Grammar) :
    Nat → Kind → List Symbol → List Label → List Cell → Prop
  | nil (base : Nat) (follow : Kind) : Reads t g base follow [] [] []
  | token {base next : Nat} (follow : Kind) {l : Label} {ls blanks : List Label} {xs : List Symbol}
      {cells : List Cell} (front : Reads t g base l.1 xs ls cells) (text : l.1.isTrivia = false)
      (between : ∀ b ∈ blanks, b.1.isTrivia = true)
      (action : t.action (Cell.top base cells) l.1 = .shift next) :
      Reads t g base follow (.terminal l.1 :: xs) (ls ++ blanks ++ [l])
        (⟨next, true, [.leaf l.1 l.2]⟩ :: (Cell.blanks (Cell.top base cells) blanks ++ cells))
  | rule {base next p : Nat} {follow : Kind} {ls blanks ls' : List Label} {xs : List Symbol}
      {cells cells' : List Cell} {production : Production} {r : Reduction}
      (front : Reads t g base (Token.ahead follow ls') xs ls cells)
      (inside : Reads t g (Cell.top base cells) follow production.rhs.reverse ls' cells')
      (tight : ∀ c ∈ cells'.getLast?, c.isSymbol = true)
      (between : ∀ b ∈ blanks, b.1.isTrivia = true) (rule : g.IsRule p production)
      (known : t.reductions[p]? = some r)
      (action : t.action (Cell.top (Cell.top base cells) cells') follow = .reduce p)
      (goto : t.goto? (Cell.top base cells) production.lhs = some next) :
      Reads t g base follow (.nonterminal production.lhs :: xs) (ls ++ blanks ++ ls')
        (⟨next, true, r.trees (Cell.forest cells')⟩ ::
          (Cell.blanks (Cell.top base cells) blanks ++ cells))

namespace Token

variable {follow : Kind} {ls ls' blanks : List Label}

theorem ahead_append (follow : Kind) (ls ls' : List Label) :
    ahead follow (ls ++ ls') = ahead (ahead follow ls') ls := by
  simp only [ahead, List.find?_append]
  cases ls.find? (!·.1.isTrivia) <;> rfl

theorem ahead_blanks (between : ∀ b ∈ blanks, b.1.isTrivia = true) : ahead follow blanks = follow := by
  have none : blanks.find? (!·.1.isTrivia) = none :=
    List.find?_eq_none.2 fun b member => by simp [between b member]
  rw [ahead, none]
  rfl

theorem ahead_token {l : Label} (text : l.1.isTrivia = false) : ahead follow [l] = l.1 := by
  simp [ahead, text]

end Token

namespace Cell

variable {n state : Nat} {labels : List Label} {c : Cell} {cells popped below : List Cell}

/-- Blanks are taken off with the symbols below them. -/
theorem pop_blanks (pops : pop (n + 1) (blanks state labels ++ cells) = some (popped, below)) :
    ∃ inner, popped = inner ++ (blanks state labels).reverse ∧
      pop (n + 1) cells = some (inner, below) := by
  unfold blanks at pops ⊢
  rw [List.reverse_reverse]
  induction labels generalizing cells with
  | nil => exact ⟨popped, by simp, pops⟩
  | cons l labels ih =>
    rw [List.map_cons, List.reverse_cons, List.append_assoc] at pops
    obtain ⟨inner, rfl, upper⟩ := ih pops
    rw [List.singleton_append, pop, Option.map_eq_some_iff] at upper
    obtain ⟨⟨middle, rest⟩, lower, is⟩ := upper
    obtain ⟨rfl, rfl⟩ := Prod.mk.inj is
    exact ⟨middle, by simp, lower⟩

theorem isSymbol_of_mem_blanks : ∀ c ∈ blanks state labels, c.isSymbol = false := by
  intro c member
  obtain ⟨l, _, rfl⟩ := List.mem_map.1 (List.mem_reverse.1 member)
  rfl

theorem ne_nil_of_pop (pops : pop (n + 1) cells = some (popped, below)) : popped ≠ [] := by
  cases cells with
  | nil => cases pops
  | cons c cells =>
    rw [pop, Option.map_eq_some_iff] at pops
    obtain ⟨⟨inner, rest⟩, _, is⟩ := pops
    obtain ⟨rfl, rfl⟩ := Prod.mk.inj is
    simp

/-- What is taken off starts with a symbol. -/
theorem isSymbol_head_pop (pops : pop n cells = some (popped, below)) :
    ∀ c ∈ popped.head?, c.isSymbol = true := by
  induction cells generalizing n popped below with
  | nil =>
    cases n with
    | zero =>
      obtain ⟨rfl, rfl⟩ := Prod.mk.inj (Option.some.inj pops)
      simp
    | succ n => cases pops
  | cons c cells ih =>
    cases n with
    | zero =>
      obtain ⟨rfl, rfl⟩ := Prod.mk.inj (Option.some.inj pops)
      simp
    | succ n =>
      rw [pop, Option.map_eq_some_iff] at pops
      obtain ⟨⟨inner, rest⟩, others, is⟩ := pops
      obtain ⟨rfl, rfl⟩ := Prod.mk.inj is
      have first := ih others
      cases inner with
      | cons d inner => exact first
      | nil =>
        cases role : c.isSymbol with
        | true => simp [role]
        | false =>
          rw [role, if_neg Bool.false_ne_true] at others
          exact absurd rfl (ne_nil_of_pop others)

theorem exists_pop (enough : n ≤ (cells.filter (·.isSymbol)).length) :
    ∃ popped below, pop n cells = some (popped, below) := by
  induction cells generalizing n with
  | nil =>
    obtain rfl := Nat.le_zero.1 enough
    exact ⟨_, _, pop_zero _⟩
  | cons c cells ih =>
    cases n with
    | zero => exact ⟨_, _, pop_zero _⟩
    | succ n =>
      have more : (if c.isSymbol then n else n + 1) ≤ (cells.filter (·.isSymbol)).length := by
        cases role : c.isSymbol <;> simp [role] at enough ⊢ <;> omega
      obtain ⟨popped, below, pops⟩ := ih more
      exact ⟨_, _, by rw [pop, pops]; rfl⟩

theorem forest_cons (c : Cell) (cells : List Cell) : forest (c :: cells) = forest cells ++ c.trees := by
  simp [forest]

theorem forest_append (high low : List Cell) : forest (high ++ low) = forest low ++ forest high := by
  simp [forest]

theorem forest_blanks (state : Nat) (labels : List Label) :
    forest (blanks state labels) = labels.map fun l => .leaf l.1 l.2 := by
  rw [forest, blanks, List.reverse_reverse, List.flatMap_map]
  exact List.map_eq_flatMap.symm

/-- A symbol on blanks is taken off alone, or with the blanks and more symbols. -/
theorem pop_symbol (role : c.isSymbol = true)
    (pops : pop (n + 1) (c :: (blanks state labels ++ cells)) = some (popped, below)) :
    (n = 0 ∧ popped = [c] ∧ below = blanks state labels ++ cells) ∨
      ∃ m inner, n = m + 1 ∧ popped = inner ++ (blanks state labels).reverse ++ [c] ∧
        pop (m + 1) cells = some (inner, below) := by
  rw [pop, if_pos role, Option.map_eq_some_iff] at pops
  obtain ⟨⟨middle, rest⟩, others, is⟩ := pops
  obtain ⟨rfl, rfl⟩ := Prod.mk.inj is
  cases n with
  | zero =>
    rw [pop_zero] at others
    obtain ⟨rfl, rfl⟩ := Prod.mk.inj (Option.some.inj others)
    exact .inl ⟨rfl, rfl, rfl⟩
  | succ m =>
    obtain ⟨inner, rfl, left⟩ := pop_blanks others
    exact .inr ⟨m, inner, rfl, rfl, left⟩

end Cell

namespace Table.Reads

variable {t : Table} {g : Grammar} {base : Nat} {follow : Kind} {xs path : List Symbol}
  {ls : List Label} {cells : List Cell}

theorem single_token {next : Nat} (follow : Kind) {l : Label} (text : l.1.isTrivia = false)
    (action : t.action base l.1 = .shift next) :
    t.Reads g base follow [.terminal l.1] [l] [⟨next, true, [.leaf l.1 l.2]⟩] := by
  have between : ∀ b ∈ ([] : List Label), b.1.isTrivia = true := by simp
  exact (Reads.nil base l.1).token follow text between action

theorem single_rule {next p : Nat} {production : Production} {r : Reduction}
    (inside : t.Reads g base follow production.rhs.reverse ls cells)
    (tight : ∀ c ∈ cells.getLast?, c.isSymbol = true) (rule : g.IsRule p production)
    (known : t.reductions[p]? = some r) (action : t.action (Cell.top base cells) follow = .reduce p)
    (goto : t.goto? base production.lhs = some next) :
    t.Reads g base follow [.nonterminal production.lhs] ls
      [⟨next, true, r.trees (Cell.forest cells)⟩] := by
  have between : ∀ b ∈ ([] : List Label), b.1.isTrivia = true := by simp
  exact (Reads.nil base _).rule inside tight between rule known action goto

/-- The symbols lead to the state on top. -/
theorem reaches (built : t.BuiltFrom g) (reads : t.Reads g base follow xs ls cells)
    (reaches : g.Reaches path base) : g.Reaches (xs ++ path) (Cell.top base cells) := by
  induction reads with
  | nil => exact reaches
  | token _ _ _ _ action ih => exact (ih reaches).step (leads_of_shift built action)
  | rule _ _ _ _ _ _ _ goto ih => exact (ih reaches).step (leads_of_goto built goto).2

/-- A reading is cut where symbols are taken off: what is left of it has behind it the first terminal
of what is taken. -/
theorem exists_pop {n : Nat} {popped below : List Cell} (reads : t.Reads g base follow xs ls cells)
    (pops : Cell.pop n cells = some (popped, below)) :
    ∃ upper lower front gap back cells', xs = upper ++ lower ∧ upper.length = n ∧
      ls = front ++ gap ++ back ∧ below = Cell.blanks (Cell.top base cells') gap ++ cells' ∧
      (∀ b ∈ gap, b.1.isTrivia = true) ∧
      t.Reads g base (Token.ahead follow back) lower front cells' ∧
      t.Reads g (Cell.top base cells') follow upper back popped.reverse := by
  cases n with
  | zero =>
    rw [Cell.pop_zero] at pops
    obtain ⟨rfl, rfl⟩ := Prod.mk.inj (Option.some.inj pops)
    exact ⟨[], xs, ls, [], [], cells, rfl, rfl, by simp, rfl, by simp, reads, .nil _ _⟩
  | succ n =>
    induction reads generalizing n popped with
    | nil => cases pops
    | @token base next follow l ls blanks xs cells before text between action ih =>
      rcases Cell.pop_symbol rfl pops with ⟨rfl, rfl, rfl⟩ | ⟨m, inner, rfl, rfl, more⟩
      · refine ⟨[.terminal l.1], xs, ls, blanks, [l], cells, rfl, rfl, rfl, rfl, between, ?_, ?_⟩
        · rw [Token.ahead_token text]
          exact before
        · exact single_token follow text action
      · obtain ⟨upper, lower, front, gap, back, cells', rfl, length, rfl, rfl, gaps, left, taken⟩ :=
          ih m more
        have whole := Cell.pop_split more
        have top : Cell.top (Cell.top base cells') inner.reverse = Cell.top base cells := by
          rw [whole, Cell.top_append, Cell.top_blanks_append]
        refine ⟨.terminal l.1 :: upper, lower, front, gap, back ++ blanks ++ [l], cells', rfl,
          by rw [List.length_cons, length], by simp, rfl, gaps, ?_, ?_⟩
        · rw [Token.ahead_append, Token.ahead_append, Token.ahead_token text, Token.ahead_blanks between]
          exact left
        · have shifted := taken.token follow text between (by rw [top]; exact action)
          simpa [top] using shifted
    | @rule base next p follow ls blanks ls' xs cells cells' production r before inside tight between
        rule known action goto ih =>
      rcases Cell.pop_symbol rfl pops with ⟨rfl, rfl, rfl⟩ | ⟨m, inner, rfl, rfl, more⟩
      · refine ⟨[.nonterminal production.lhs], xs, ls, blanks, ls', cells, rfl, rfl, rfl, rfl, between,
          before, single_rule inside tight rule known action goto⟩
      · obtain ⟨upper, lower, front, gap, back, cells'', rfl, length, rfl, rfl, gaps, left, taken⟩ :=
          ih m more
        have whole := Cell.pop_split more
        have top : Cell.top (Cell.top base cells'') inner.reverse = Cell.top base cells := by
          rw [whole, Cell.top_append, Cell.top_blanks_append]
        refine ⟨.nonterminal production.lhs :: upper, lower, front, gap, back ++ blanks ++ ls', cells'',
          rfl, by rw [List.length_cons, length], by simp, rfl, gaps, ?_, ?_⟩
        · rw [Token.ahead_append, Token.ahead_append, Token.ahead_blanks between]
          exact left
        · have reduced := taken.rule (by rw [top]; exact inside) tight between rule known
            (by rw [top]; exact action) (by rw [top]; exact goto)
          simpa [top] using reduced

theorem length_symbols (reads : t.Reads g base follow xs ls cells) :
    (cells.filter (·.isSymbol)).length = xs.length := by
  have none (state : Nat) (blanks : List Label) : (Cell.blanks state blanks).filter (·.isSymbol) = [] :=
    List.filter_eq_nil_iff.2 fun c member => by simp [Cell.isSymbol_of_mem_blanks c member]
  induction reads with
  | nil => rfl
  | token _ _ _ _ _ ih => simp [none, ih]
  | rule _ _ _ _ _ _ _ _ ih => simp [none, ih]

/-- A reading is cut between two symbols. -/
theorem exists_cut {upper lower : List Symbol}
    (reads : t.Reads g base follow (upper ++ lower) ls cells) :
    ∃ front gap back high low, ls = front ++ gap ++ back ∧
      cells = high ++ (Cell.blanks (Cell.top base low) gap ++ low) ∧
      (∀ b ∈ gap, b.1.isTrivia = true) ∧
      t.Reads g base (Token.ahead follow back) lower front low ∧
      t.Reads g (Cell.top base low) follow upper back high := by
  have enough : upper.length ≤ (cells.filter (·.isSymbol)).length := by
    rw [reads.length_symbols]
    simp
  obtain ⟨popped, below, pops⟩ := Cell.exists_pop enough
  obtain ⟨upper', lower', front, gap, back, low, same, length, rfl, rfl, gaps, left, taken⟩ :=
    reads.exists_pop pops
  obtain ⟨rfl, rfl⟩ := List.append_inj same length.symm
  exact ⟨front, gap, back, popped.reverse, low, rfl, Cell.pop_split pops, gaps, left, taken⟩

/-- A symbol read alone is one cell on blanks. -/
theorem exists_single {x : Symbol} (reads : t.Reads g base follow [x] ls cells) :
    ∃ c blanks, cells = c :: Cell.blanks base blanks ∧ c.isSymbol = true ∧
      ∀ b ∈ blanks, b.1.isTrivia = true := by
  cases reads with
  | token _ before _ between =>
    cases before
    exact ⟨_, _, by rw [List.append_nil]; rfl, rfl, between⟩
  | rule before _ _ between =>
    cases before
    exact ⟨_, _, by rw [List.append_nil]; rfl, rfl, between⟩

theorem eq_singleton {x : Symbol} {cell : Cell} {below : List Cell}
    (reads : t.Reads g base follow [x] ls (cell :: below))
    (tight : ∀ c ∈ (cell :: below).getLast?, c.isSymbol = true) : below = [] := by
  obtain ⟨c, blanks, is, _⟩ := reads.exists_single
  obtain ⟨rfl, rfl⟩ := List.cons.inj is
  cases last : (Cell.blanks base blanks).getLast? with
  | none => exact List.getLast?_eq_none_iff.1 last
  | some d =>
    have symbol := tight d (by rw [List.getLast?_cons, last]; rfl)
    rw [Cell.isSymbol_of_mem_blanks d (List.mem_of_getLast? last)] at symbol
    cases symbol

/-- Whatever is built is read, from a state that the automaton has. -/
theorem exists_of_builds (built : t.BuiltFrom g) (reaches : g.Reaches path base)
    (builds : t.Builds base follow ls cells) : ∃ xs, t.Reads g base follow xs ls cells := by
  induction builds with
  | nil follow => exact ⟨[], .nil base follow⟩
  | shift follow before text between action ih =>
    obtain ⟨xs, front⟩ := ih
    exact ⟨_, front.token follow text between action⟩
  | @reduce follow ls cells popped below p next r before action known pops goto ih =>
    obtain ⟨xs, reads⟩ := ih
    have after := reads.reaches built reaches
    obtain ⟨d, holds, complete, _⟩ := holds_of_reduce built action
    obtain ⟨length, read, _⟩ := after.read_complete holds complete
    obtain ⟨production, found, lhs, size, rhs, _⟩ := reduction_eq built known
    obtain ⟨upper, lower, front, gap, back, cells', rfl, taken, rfl, rfl, gaps, left, inside⟩ :=
      reads.exists_pop pops
    have whole : upper = production.rhs.reverse := by
      rw [← length, rhs, ← size, ← taken, List.append_assoc, List.take_left] at read
      rw [← read, List.reverse_reverse]
    have top : Cell.top (Cell.top base cells') popped.reverse = Cell.top base cells := by
      rw [Cell.pop_split pops, Cell.top_append, Cell.top_blanks_append]
    rw [Cell.top_blanks_append, lhs] at goto
    obtain ⟨bound, _⟩ := leads_of_goto built goto
    have tight : ∀ c ∈ popped.reverse.getLast?, c.isSymbol = true := by
      rw [List.getLast?_reverse]
      exact Cell.isSymbol_head_pop pops
    have reduced := left.rule (whole ▸ inside) tight gaps ⟨found, bound⟩ known (by rw [top]; exact action)
      goto
    rw [Cell.forest, List.reverse_reverse] at reduced
    exact ⟨_, reduced⟩

end Table.Reads

end ShaderTree
