import ShaderTree.Proofs.Parser.Progress
import ShaderTree.Proofs.Parser.Rebuild
import ShaderTree.Proofs.Parser.Safety

/-! What the record of a node stands for: in its state, and with its terminal behind the leaves, the
table builds the node from the leaves. A parse that reports nothing records only what can be built like
this again. With a steady table every parse does, although repairs may have changed the next terminal
between the reductions. -/
namespace ShaderTree

open Token (Label label kindOf)

namespace Tree

/-- The table builds the node as its record says. -/
def Remembered (t : Table) (u : Tree) : Prop :=
  ∀ r next, u.record? = some r → (t.nonterminalOf? u.kind).bind (t.goto? r.state) = some next →
    t.Builds r.state r.follow u.leaves [⟨next, true, [u.plain]⟩]

def AllRemembered (t : Table) (u : Tree) : Prop := ∀ v ∈ u.nodes, v.Remembered t

def AllRememberedIn (t : Table) (us : List Tree) : Prop := ∀ v ∈ nodesAll us, v.Remembered t

variable {t : Table}

@[simp] theorem allRememberedIn_nil : AllRememberedIn t [] := by simp [AllRememberedIn, nodesAll]

@[simp] theorem allRememberedIn_cons (u : Tree) (us : List Tree) :
    AllRememberedIn t (u :: us) ↔ u.AllRemembered t ∧ AllRememberedIn t us := by
  simp only [AllRememberedIn, AllRemembered, nodesAll, List.mem_append, or_imp, forall_and]

@[simp] theorem allRememberedIn_append (us vs : List Tree) :
    AllRememberedIn t (us ++ vs) ↔ AllRememberedIn t us ∧ AllRememberedIn t vs := by
  simp only [AllRememberedIn, nodesAll_append, List.mem_append, or_imp, forall_and]

@[simp] theorem allRemembered_leaf (k : Kind) (text : String) : (leaf k text).AllRemembered t := by
  simp [AllRemembered, nodes]

theorem allRemembered_node {k : Kind} {m : Mark} {cs : List Tree} :
    (node k m cs).AllRemembered t ↔ (node k m cs).Remembered t ∧ AllRememberedIn t cs := by
  simp only [AllRemembered, AllRememberedIn, nodes, List.forall_mem_cons]

/-- A node without a record. -/
theorem allRemembered_of_none {k : Kind} {m : Mark} {cs : List Tree} (none : m.record = none)
    (below : AllRememberedIn t cs) : (node k m cs).AllRemembered t := by
  refine allRemembered_node.2 ⟨?_, below⟩
  intro r next recorded
  rw [record?, mark?, Option.bind_some, none] at recorded
  cases recorded

mutual

theorem allRemembered_numberFrom (next : Nat) (u : Tree) (h : u.AllRemembered t) :
    (numberFrom next u).1.AllRemembered t := by
  cases u with
  | leaf k text => exact h
  | node k m cs =>
    obtain ⟨own, below⟩ := allRemembered_node.1 h
    rw [numberFrom]
    split
    · rename_i serial is
      refine allRemembered_node.2 ⟨fun r target recorded goto => ?_, below⟩
      exact own r target recorded goto
    · refine allRemembered_node.2 ⟨fun r target recorded goto => ?_,
        allRememberedIn_numberAllFrom _ _ below⟩
      have before := own r target recorded goto
      rw [leaves, plain] at before ⊢
      rw [leavesAll_numberAllFrom, plainAll_numberAllFrom]
      exact before

theorem allRememberedIn_numberAllFrom (next : Nat) (us : List Tree) (h : AllRememberedIn t us) :
    AllRememberedIn t (numberAllFrom next us).1 := by
  cases us with
  | nil => exact h
  | cons u us =>
    obtain ⟨first, others⟩ := (allRememberedIn_cons u us).1 h
    rw [numberAllFrom]
    dsimp only
    exact (allRememberedIn_cons _ _).2 ⟨allRemembered_numberFrom next u first,
      allRememberedIn_numberAllFrom _ _ others⟩

end

end Tree

/-- Each kind of node belongs to one nonterminal. -/
def Table.Named (t : Table) : Prop :=
  ∀ {p : Nat} {r : Reduction} {k : Kind}, t.reductions[p]? = some r → r.node? = some k →
    t.nonterminalOf? k = some r.lhs

instance (t : Table) : Decidable t.Named :=
  decidable_of_iff (∀ r ∈ t.reductions.toList, ∀ k ∈ r.node?, t.nonterminalOf? k = some r.lhs)
    ⟨fun named _ _ _ known => named _ (Array.mem_toList_iff.2 (Array.mem_of_getElem? known)) _,
      fun named _ member k => by
        obtain ⟨p, known⟩ := Array.mem_iff_getElem?.1 (Array.mem_toList_iff.1 member)
        exact named known⟩

/-- The upper entries of a stack, as far down as there are no repairs and they end with a symbol. -/
structure Config.Whole (upper : List Entry) : Prop where
  undamaged : ∀ e ∈ upper, e.damaged = false
  ends : ∀ e ∈ upper.getLast?, e.isSymbol = true

namespace Table

open Config

/-- Whatever is whole at the top of the stack is built with the terminal behind it. -/
def BuildsOn (t : Table) (k : Kind) (stack : List Entry) : Prop :=
  ∀ upper lower, stack = upper ++ lower → Whole upper →
    t.Builds (topState lower) k (word upper) (upper.map Entry.cell)

/-- Whatever is whole at the top was built with a terminal that it was left on. -/
def Stands (t : Table) (stack : List Entry) : Prop :=
  ∃ k, t.BuildsOn k stack ∧ t.Rests (topState stack) k

/-- Each symbol stands on what is below it. -/
def AllStand (t : Table) : List Entry → Prop
  | [] => True
  | e :: below => (e.isSymbol = true → t.Stands (e :: below)) ∧ AllStand t below

variable {t : Table} {k : Kind} {stack upper lower : List Entry}

theorem Stands.buildsOn (stands : t.Stands stack) (steady : t.Steady) {l : Kind} {p : Nat}
    (action : t.action (topState stack) l = .reduce p) : t.BuildsOn l stack := by
  obtain ⟨k, builds, rests⟩ := stands
  intro upper lower is whole
  subst is
  rw [← top_cells] at action rests
  exact steady (builds upper lower rfl whole) rests action

theorem AllStand.of_suffix (stand : t.AllStand stack) (suffix : lower <:+ stack) : t.AllStand lower := by
  induction stack with
  | nil =>
    obtain rfl := List.suffix_nil.1 suffix
    exact stand
  | cons e stack ih =>
    rcases List.suffix_cons_iff.1 suffix with rfl | suffix
    · exact stand
    · exact ih stand.2 suffix

theorem AllStand.append (stand : t.AllStand lower) (roles : ∀ e ∈ upper, e.isSymbol = false) :
    t.AllStand (upper ++ lower) := by
  induction upper with
  | nil => exact stand
  | cons e upper ih =>
    refine ⟨fun role => ?_, ih fun f member => roles f (List.mem_cons_of_mem _ member)⟩
    rw [roles e List.mem_cons_self] at role
    cases role

/-- A damaged symbol keeps everything below it from being whole. -/
theorem buildsOn_of_damaged {e : Entry} (damaged : e.damaged = true) : t.BuildsOn k (e :: stack) := by
  intro upper lower is whole
  cases upper with
  | nil => exact .nil k
  | cons f upper =>
    obtain ⟨rfl, _⟩ := List.cons.inj is
    rw [whole.undamaged e (by simp)] at damaged
    cases damaged

theorem buildsOn_nil : t.BuildsOn k [] := by
  intro upper lower is whole
  obtain ⟨rfl, rfl⟩ := List.append_eq_nil_iff.1 is.symm
  exact .nil k

end Table

namespace Config

/-- The stack without the entries on top that are no symbols. -/
def symbols (stack : List Entry) : List Entry := stack.dropWhile (!·.isSymbol)

theorem symbols_append {upper lower : List Entry} (roles : ∀ e ∈ upper, e.isSymbol = false) :
    symbols (upper ++ lower) = symbols lower := by
  induction upper with
  | nil => rfl
  | cons e upper ih =>
    rw [List.cons_append, symbols, List.dropWhile_cons_of_pos (by simp [roles e List.mem_cons_self])]
    exact ih fun f member => roles f (List.mem_cons_of_mem _ member)

theorem symbols_symbol {e : Entry} {stack : List Entry} (role : e.isSymbol = true) :
    symbols (e :: stack) = e :: stack := by
  rw [symbols, List.dropWhile_cons_of_neg (by simp [role])]

theorem Repeats.topState_symbols {stack : List Entry} (repeats : Repeats stack) :
    topState (symbols stack) = topState stack := by
  induction stack with
  | nil => rfl
  | cons e stack ih =>
    cases role : e.isSymbol with
    | true => rw [symbols_symbol role]
    | false =>
      rw [symbols, List.dropWhile_cons_of_pos (by simp [role])]
      exact (ih repeats.2).trans (repeats.1 role).symm

end Config

/-- The topmost symbol stands, if there is one. -/
theorem Table.AllStand.top {t : Table} {stack : List Entry} (stand : t.AllStand stack) (k : Kind) :
    t.BuildsOn k (Config.symbols stack) ∨ t.Stands (Config.symbols stack) := by
  have left : t.AllStand (Config.symbols stack) := stand.of_suffix (List.dropWhile_suffix _)
  cases is : Config.symbols stack with
  | nil => exact .inl buildsOn_nil
  | cons e lower =>
    have role := List.head?_dropWhile_not (!·.isSymbol) stack
    rw [← Config.symbols, is] at role
    rw [is] at left
    exact .inr (left.1 (by simpa using role))

/-- What a parse can rely on: that its symbols were built, with the next terminal behind them where no
repair stands in between, and else with one that they were left on, and that all records can be
trusted. -/
structure Config.Kept (t : Table) (c : Config) : Prop where
  covered : t.AllStand (symbols c.stack).tail
  top : t.BuildsOn c.terminal (symbols c.stack) ∨ t.Stands (symbols c.stack)
  ready : c.inserting = none → (∀ e ∈ c.stack.takeWhile (!·.isSymbol), e.damaged = false) →
    t.BuildsOn c.terminal (symbols c.stack)
  clear : (∀ e ∈ c.stack.takeWhile (!·.isSymbol), e.damaged = false) →
    c.stack.takeWhile (!·.isSymbol) = []
  skipped : ∀ e ∈ c.stack, e.role = .skipped → e.damaged = true
  pending : ∀ u ∈ c.pending, u.kind.isTrivia = true
  records : ∀ e ∈ c.stack, Tree.AllRememberedIn t e.children

namespace Config

variable {g : Grammar} {t : Table} {c c' : Config}

theorem terminal_eq (rest : c'.rest = c.rest) (inserting : c'.inserting = c.inserting) :
    c'.terminal = c.terminal := by
  simp only [terminal, settle, lookahead, rest, inserting]

theorem terminal_settle (c : Config) : c.settle.terminal = c.terminal := by
  rw [terminal, settle_settle]
  rfl

theorem Kept.settle (kept : c.Kept t) : c.settle.Kept t where
  covered := kept.covered
  top := by
    rw [terminal_settle]
    exact kept.top
  ready := by
    rw [terminal_settle]
    exact kept.ready
  clear := kept.clear
  skipped := kept.skipped
  pending := by
    intro u member
    rcases List.mem_append.1 member with before | more
    · exact kept.pending u before
    · simpa using List.mem_takeWhile_imp more
  records := kept.records

theorem kept_initial (tokens : List Token) : (initial tokens).Kept t where
  covered := trivial
  top := .inl Table.buildsOn_nil
  ready := fun _ _ => Table.buildsOn_nil
  clear := fun _ => rfl
  skipped := fun _ member => nomatch member
  pending := fun _ member => nomatch member
  records := fun _ member => nomatch member

/-- With a steady table, what is on top was built with the next terminal if it is reduced on. -/
theorem Kept.buildsOn (kept : c.Kept t) (steady : t.Steady) (repeats : Repeats c.stack) {p : Nat}
    (action : t.action c.top c.terminal = .reduce p) : t.BuildsOn c.terminal (symbols c.stack) := by
  rcases kept.top with builds | stands
  · exact builds
  · exact stands.buildsOn steady (by rw [repeats.topState_symbols]; exact action)

/-- Where the next terminal takes nothing off the stack, all of it stands. -/
theorem Kept.allStand (kept : c.Kept t) (repeats : Repeats c.stack)
    (rests : t.Rests c.top c.terminal) : t.AllStand c.stack := by
  have stands : t.Stands (symbols c.stack) := by
    rcases kept.top with builds | stands
    · exact ⟨_, builds, by rw [repeats.topState_symbols]; exact rests⟩
    · exact stands
  have symbols : t.AllStand (symbols c.stack) := by
    cases is : Config.symbols c.stack with
    | nil => trivial
    | cons e lower =>
      have below := kept.covered
      rw [is] at stands below
      exact ⟨fun _ => stands, below⟩
  rw [← List.takeWhile_append_dropWhile (p := (!·.isSymbol)) (l := c.stack)]
  exact symbols.append fun e member => by simpa using List.mem_takeWhile_imp member

/-- What a reduction leaves on the stack stands. -/
theorem Kept.allStand_below (kept : c.Kept t) (repeats : Repeats c.stack) {p : Nat} {r : Reduction}
    (action : t.action c.top c.terminal = .reduce p) (known : t.reductions[p]? = some r) :
    t.AllStand (pop r.length (symbols c.stack)).2 := by
  cases length : r.length with
  | zero =>
    have rests : t.Rests c.top c.terminal := by
      intro q r' action' known'
      obtain rfl := Action.reduce.inj (action.symm.trans action')
      obtain rfl := Option.some.inj (known.symm.trans known')
      exact length
    rw [pop_zero]
    exact (kept.allStand repeats rests).of_suffix (List.dropWhile_suffix _)
  | succ n =>
    have suffix := pop_succ_suffix n (symbols c.stack)
    rw [symbols, List.dropWhile_idempotent] at suffix
    exact kept.covered.of_suffix suffix

end Config

namespace Setup

open Config

variable {g : Grammar} {s : Setup} {c c' : Config}

theorem plainAll_made (r : Reduction) (popped : List Entry) (state : Nat) (k : Kind) :
    Tree.plainAll (made r popped state k) =
      r.trees ((popped.map Entry.cell).flatMap (·.trees)) := by
  have below : (popped.map Entry.cell).flatMap (·.trees) =
      Tree.plainAll (popped.flatMap Entry.trees) := by
    rw [Tree.plainAll_flatMap, List.flatMap_map]
    rfl
  rw [below]
  unfold made Reduction.trees
  cases r.node? with
  | none => rfl
  | some l => rfl

theorem allRememberedIn_trees {t : Table} {entries : List Entry}
    (records : ∀ e ∈ entries, Tree.AllRememberedIn t e.children) :
    Tree.AllRememberedIn t (entries.flatMap Entry.trees) := by
  induction entries with
  | nil => exact Tree.allRememberedIn_nil
  | cons e entries ih =>
    rw [List.flatMap_cons, Tree.allRememberedIn_append]
    refine ⟨?_, ih fun f member => records f (List.mem_cons_of_mem _ member)⟩
    have own := records e List.mem_cons_self
    unfold Entry.trees
    split
    · exact (Tree.allRememberedIn_cons _ _).2
        ⟨Tree.allRemembered_of_none rfl own, Tree.allRememberedIn_nil⟩
    · exact own

/-- A symbol made by a reduction is built on the terminal that the reduction was made on. -/
theorem buildsOn_reduced {t : Table} {k : Kind} {p next : Nat} {r : Reduction}
    {stack popped below : List Entry} (start : Nat) (builds : t.BuildsOn k stack)
    (action : t.action (topState stack) k = .reduce p) (known : t.reductions[p]? = some r)
    (enough : r.length ≤ (stack.filter Entry.isSymbol).length)
    (pops : pop r.length stack = (popped, below))
    (goto : t.goto? (topState below) r.lhs = some next) :
    t.BuildsOn k (⟨next, .symbol, popped.any (·.damaged), start,
      made r popped (topState below) k⟩ :: below) := by
  have split : stack = popped.reverse ++ below := by
    have parts := pop_split r.length stack
    rw [pops] at parts
    exact parts.symm
  have cells := exists_pop_cells enough
  have head := isSymbol_head_pop enough
  rw [pops] at cells head
  intro upper lower is whole
  cases upper with
  | nil => exact .nil k
  | cons e upper =>
    rw [List.cons_append] at is
    obtain ⟨rfl, rfl⟩ := List.cons.inj is
    have sound : Whole (popped.reverse ++ upper) := by
      refine ⟨fun f member => ?_, fun f last => ?_⟩
      · rcases List.mem_append.1 member with inside | above
        · have none := whole.undamaged _ List.mem_cons_self
          exact Bool.eq_false_iff.2 fun damaged =>
            Bool.false_ne_true (none.symm.trans (List.any_eq_true.2 ⟨f, List.mem_reverse.1 inside, damaged⟩))
        · exact whole.undamaged f (List.mem_cons_of_mem _ above)
      · cases upper with
        | nil =>
          rw [List.append_nil, List.getLast?_reverse] at last
          exact head f last
        | cons d upper =>
          rw [List.getLast?_append_of_ne_nil _ (List.cons_ne_nil d upper)] at last
          exact whole.ends f (by rw [List.getLast?_cons_cons]; exact last)
    have before := builds (popped.reverse ++ upper) lower
      (by rw [split, List.append_assoc]) sound
    have taken : Cell.pop r.length ((popped.reverse ++ upper).map Entry.cell) =
        some (popped.map Entry.cell, upper.map Entry.cell) := by
      rw [List.map_append, List.map_reverse]
      exact Cell.pop_trim cells _
    have asks : t.action (Cell.top (topState lower) ((popped.reverse ++ upper).map Entry.cell)) k =
        .reduce p := by
      rw [top_cells, List.append_assoc, ← split]
      exact action
    have goes : t.goto? (Cell.top (topState lower) (upper.map Entry.cell)) r.lhs = some next := by
      rw [top_cells]
      exact goto
    have made := before.reduce asks known taken goes
    rw [word_append, ← leavesAll_made r popped (topState (upper ++ lower)) k] at made
    rw [word_cons, List.map_cons, Entry.cell, Entry.trees]
    dsimp only
    rw [plainAll_made]
    exact made

/-- The node of a reduction can be built as it records. -/
theorem allRememberedIn_made {t : Table} (named : t.Named) {k : Kind} {p next start : Nat}
    {r : Reduction} {popped below : List Entry} (known : t.reductions[p]? = some r)
    (goto : t.goto? (topState below) r.lhs = some next)
    (builds : t.BuildsOn k (⟨next, .symbol, popped.any (·.damaged), start,
      made r popped (topState below) k⟩ :: below))
    (children : Tree.AllRememberedIn t (popped.flatMap Entry.trees)) :
    Tree.AllRememberedIn t (made r popped (topState below) k) := by
  unfold made at builds ⊢
  cases node : r.node? with
  | none => exact children
  | some l =>
    rw [node] at builds
    dsimp only at builds ⊢
    refine (Tree.allRememberedIn_cons _ _).2
      ⟨Tree.allRemembered_node.2 ⟨?_, children⟩, Tree.allRememberedIn_nil⟩
    intro record target recorded reached
    rw [Tree.record?, Tree.mark?, Option.bind_some] at recorded
    dsimp only at recorded
    split at recorded
    · cases recorded
    · rename_i none
      obtain rfl := Option.some.inj recorded
      have same : next = target := by
        rw [Tree.kind, named known node, Option.bind_some, goto] at reached
        exact Option.some.inj reached
      rw [Bool.or_eq_true, not_or, Bool.not_eq_true] at none
      have own := builds [_] below rfl ⟨by simpa using none.1, by simp [Entry.isSymbol]⟩
      rw [word_cons, word_nil, List.nil_append, Tree.leavesAll, Tree.leavesAll, List.append_nil] at own
      rw [← same]
      exact own

theorem kept_of_symbol {t : Table} {e : Entry} {upper lower : List Entry}
    (stack : c.stack = upper ++ e :: lower) (roles : ∀ f ∈ upper, f.isSymbol = false)
    (role : e.isSymbol = true) (below : t.AllStand lower) (top : t.BuildsOn c.terminal (e :: lower))
    (clear : (∀ f ∈ upper, f.damaged = false) → upper = [])
    (skipped : ∀ f ∈ c.stack, f.role = .skipped → f.damaged = true)
    (pending : ∀ u ∈ c.pending, u.kind.isTrivia = true)
    (records : ∀ f ∈ c.stack, Tree.AllRememberedIn t f.children) : c.Kept t := by
  have whole : symbols c.stack = e :: lower := by
    rw [stack, symbols_append roles, symbols_symbol role]
  have trailing : c.stack.takeWhile (!·.isSymbol) = upper := by
    rw [stack, List.takeWhile_append_of_pos fun f member => by simp [roles f member],
      List.takeWhile_cons_of_neg (by simp [role]), List.append_nil]
  rw [← whole] at top
  refine ⟨by rw [whole]; exact below, .inl top, fun _ _ => top, ?_, skipped, pending, records⟩
  rw [trailing]
  exact clear

theorem kept_reduce {p : Nat} {k : Kind} (built : s.table.BuiltFrom g) (named : s.table.Named)
    (spelled : c.Spelled g) (kept : c.Kept s.table) (builds : s.table.BuildsOn k (symbols c.stack))
    (terminal : c.terminal = k) (action : s.table.action c.top k = .reduce p)
    (h : s.reduce c p k = .ok c') : c'.Kept s.table := by
  subst terminal
  obtain ⟨rest, inserting, _⟩ := reduce_frame h
  have same := terminal_eq rest inserting
  obtain ⟨after, _⟩ := spelled_reduce built rfl spelled action h
  obtain ⟨r, trailing, popped, below, next, known, trailingIs, pops, goto, is⟩ := reduce_ok h
  have enough : r.length ≤ ((symbols c.stack).filter Entry.isSymbol).length := by
    obtain ⟨r', base, under, _, known', dropped, _⟩ := Table.reduceStates_ok after
    obtain rfl := Option.some.inj (known.symm.trans known')
    have length : r.length < (statesOf (symbols c.stack)).length := by
      rw [symbols, statesOf_dropWhile]
      by_contra few
      have none : c.states.drop r.length = [] := List.drop_eq_nil_of_le (Nat.not_lt.1 few)
      rw [none] at dropped
      cases dropped
    simpa [statesOf, Nat.lt_succ_iff] using length
  have topped : s.table.action (topState (symbols c.stack)) c.terminal = .reduce p := by
    rw [spelled.repeats.topState_symbols]
    exact action
  have grown := buildsOn_reduced (startOf c popped trailing) builds topped known enough pops goto
  have stand : s.table.AllStand below := by
    have left := kept.allStand_below spelled.repeats action known
    rwa [symbols, pops] at left
  have suffix : below <:+ c.stack := by
    have left := pop_suffix r.length (symbols c.stack)
    rw [symbols, pops] at left
    exact left.trans (List.dropWhile_suffix _)
  have roles : ∀ e ∈ trailing.map (fun e => { e with state := next }), e.isSymbol = false := by
    intro e member
    obtain ⟨old, there, rfl⟩ := List.mem_map.1 member
    rw [trailingIs] at there
    have role : old.isSymbol = false := by simpa using List.mem_takeWhile_imp there
    exact role
  have above : ∀ e ∈ trailing, e ∈ c.stack := fun e member =>
    List.takeWhile_subset _ (trailingIs ▸ member)
  have inside : ∀ e ∈ popped, e ∈ c.stack := fun e member => by
    have taken : e ∈ (pop r.length (symbols c.stack)).1 := by
      rw [symbols, pops]
      exact member
    exact List.dropWhile_subset _ (mem_of_pop (.inl taken))
  have children : Tree.AllRememberedIn s.table (popped.flatMap Entry.trees) :=
    allRememberedIn_trees fun e member => kept.records e (inside e member)
  subst is
  refine kept_of_symbol rfl roles rfl stand (by rw [same]; exact grown) ?_ ?_ kept.pending ?_
  · intro undamaged
    have none := kept.clear fun e member =>
      undamaged { e with state := next } (List.mem_map.2 ⟨e, trailingIs ▸ member, rfl⟩)
    rw [trailingIs, none]
    rfl
  · intro e member role
    rcases List.mem_append.1 member with inside | inside
    · obtain ⟨old, there, rfl⟩ := List.mem_map.1 inside
      exact kept.skipped old (above old there) role
    · rcases List.mem_cons.1 inside with rfl | inside
      · cases role
      · exact kept.skipped e (suffix.subset inside) role
  · intro e member
    rcases List.mem_append.1 member with inside | inside
    · obtain ⟨old, there, rfl⟩ := List.mem_map.1 inside
      exact kept.records old (above old there)
    · rcases List.mem_cons.1 inside with rfl | inside
      · exact allRememberedIn_made named known goto grown children
      · exact kept.records e (suffix.subset inside)

end Setup

end ShaderTree
