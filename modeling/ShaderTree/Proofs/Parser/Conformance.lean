import ShaderTree.Proofs.Metal.Table
import ShaderTree.Proofs.Parser.History
import ShaderTree.Proofs.Parser.Progress
import ShaderTree.Proofs.Parser.Viable

/-! Every tree conforms to its grammar: a node shows what one of its productions allows, and the
root what the start symbol does, however many repairs there were. -/
namespace ShaderTree

open ShaderTree.Tree (outlines outline AllConformIn AllConform)

namespace Reuse

/-- The old nodes conform. -/
def Conforms (r : Reuse) (g : Grammar) : Prop := ∀ n ∈ r.nodes, n.2.AllConform g

theorem conforms_ofDocument {g : Grammar} {old : Document} {map : EditMap}
    (conforms : old.root.AllConform g) : (ofDocument old map).Conforms g := by
  intro n member
  have placed := (List.mem_filter.1 member).1
  exact fun u inside => conforms u (Tree.nodes_of_placedNodes placed inside)

end Reuse

theorem Repair.depth_ne_zero {t : Table} {states : List Nat} {k : Kind} {d : Nat}
    (h : depth? t states k = some d) : d ≠ 0 := by
  rintro rfl
  have member := List.mem_of_find?_eq_some h
  obtain ⟨i, bound, is⟩ := List.mem_iff_getElem.1 member
  rw [List.getElem_drop, List.getElem_range] at is
  omega

/-- At the end of input, no repair is left only where nothing can be given up. -/
theorem Repair.length_of_choose {t : Table} {states : List Nat} {upcoming : List Kind}
    {canInsert : Bool} (h : choose t states .eof upcoming canInsert = .skip ∨
      choose t states .eof upcoming canInsert = .wrap 0) : states.length ≤ 1 := by
  unfold choose at h
  dsimp only at h
  cases inserted : (if canInsert && Kind.eof ≠ .error then closer? t states .eof else none) with
  | some k =>
    rw [inserted] at h
    rcases h with h | h <;> cases h
  | none =>
    rw [inserted] at h
    cases depth : depth? t states .eof with
    | some d =>
      have moved := depth_ne_zero depth
      simp only [depth, ne_eq, not_true_eq_false, decide_false, Bool.false_and,
        Bool.false_eq_true, if_false, reduceCtorEq, false_or, wrap.injEq] at h
      exact absurd h moved
    | none =>
      simp only [depth, ne_eq, not_true_eq_false, decide_false, Bool.false_and,
        Bool.false_eq_true, if_false, if_true, reduceCtorEq, false_or, wrap.injEq] at h
      omega

namespace Setup

open Config

variable {g : Grammar} {s : Setup} {c c' : Config}

theorem expands_made {p : Nat} {r : Reduction} {production : Production} {popped : List Entry}
    (state : Nat) (k : Kind) (names : g.NamesNodes) (found : g.productions[p]? = some production)
    (known : ∃ n, g.nonterminals[production.lhs]? = some n)
    (node : r.node? = g.nonterminals[production.lhs]?.bind (·.node?))
    (below : AllConformIn g (popped.flatMap Entry.trees))
    (expands : g.Expands production.rhs (outlines (popped.flatMap Entry.trees))) :
    g.Expands [.nonterminal production.lhs] (outlines (made r popped state k)) ∧
      AllConformIn g (made r popped state k) := by
  obtain ⟨n, known⟩ := known
  have member : production ∈ g.productions := Array.mem_of_getElem? found
  rw [known, Option.bind_some] at node
  unfold made
  rw [node]
  cases is : n.node? with
  | none =>
    refine ⟨?_, below⟩
    have whole := Grammar.Expands.hidden known is member rfl expands .nil
    rwa [List.append_nil] at whole
  | some kind =>
    obtain ⟨notError, notMissing, _⟩ := names.reserved known is
    refine ⟨?_, ?_⟩
    · simp only [Tree.outlines_cons, Tree.outlines_nil, Tree.outline_node notError notMissing]
      exact .visible known is .nil
    · refine (Tree.allConformIn_cons _ _).2 ⟨Tree.allConform_node.2 ⟨?_, below⟩, by simp⟩
      intro i m there same
      obtain rfl := names.distinct there known same is
      exact ⟨production, member, rfl, expands⟩

theorem conforms_reduce {t : Table} (names : g.NamesNodes) (built : t.BuiltFrom g)
    (table : s.table = t) (conforms : c.Conforms g) {p : Nat} {k : Kind}
    (action : t.action c.top k = .reduce p) (h : s.reduce c p k = .ok c') : c'.Conforms g := by
  obtain ⟨r, trailing, popped, below, next, known, trailingIs, split, goto, rfl⟩ := reduce_ok h
  rw [table] at known goto
  obtain ⟨⟨path, viable⟩, nodes, pending⟩ := conforms
  obtain ⟨production, found, lhs, length, rhs, node⟩ := Table.reduction_eq built known
  obtain ⟨d, holds, complete, _⟩ := Table.holds_of_reduce built action
  obtain ⟨bound, leads⟩ := Table.leads_of_goto built goto
  obtain ⟨under, above⟩ := viable.dropWhile
  obtain ⟨is, read, _⟩ := viable.reaches.read_complete holds complete
  have parts := under.pop r.length
  have inside (e : Entry) (member : e ∈ popped ∨ e ∈ below) : e ∈ c.stack := by
    apply (List.dropWhile_suffix (!·.isSymbol)).subset
    apply mem_of_pop (n := r.length)
    rw [split]
    exact member
  rw [split, length, ← rhs, is, read, rhs] at parts
  obtain ⟨rest, expands⟩ := parts
  have children : AllConformIn g (popped.flatMap Entry.trees) :=
    allConformIn_flatMap_trees names fun e member => nodes e (inside e (.inl member))
  have bounded : production.lhs < g.nonterminals.size := lhs ▸ bound
  obtain ⟨shown, conform⟩ := expands_made (topState below) k names found
    ⟨_, Array.getElem?_eq_getElem bounded⟩ node children expands
  rw [← lhs] at shown
  refine ⟨⟨_, (Viable.symbol rest rfl leads shown).raise _ ?_⟩, ?_, pending⟩
  · intro e member
    obtain ⟨old, there, rfl⟩ := List.mem_map.1 member
    obtain ⟨role, blank⟩ := above old (trailingIs ▸ there)
    exact ⟨role, rfl, blank⟩
  · intro e member
    rcases List.mem_append.mp member with moved | member
    · obtain ⟨old, there, rfl⟩ := List.mem_map.1 moved
      exact nodes old ((List.takeWhile_prefix _).subset (trailingIs ▸ there))
    · rcases List.mem_cons.mp member with rfl | old
      · exact conform
      · exact nodes e (inside e (.inr old))

theorem conforms_shift {t : Table} (built : t.BuiltFrom g) (conforms : c.Conforms g) {next : Nat}
    (action : t.action c.top c.lookahead = .shift next) (read : c.lookahead.isTrivia = false)
    (h : Setup.shift c next = .ok c') : c'.Conforms g := by
  obtain ⟨u, rest, front, rfl⟩ := shift_ok h
  have kind : c.lookahead = u.kind := by rw [lookahead, front]
  rw [kind] at action read
  have leads := Table.leads_of_shift built action
  rw [← top_flush] at leads
  refine conforms.flush.push (x := .terminal u.kind) rfl leads ?_ (by simp [leaf]) rfl rfl
  simp only [Entry.trees, leaf, Tree.outlines_cons, Tree.outlines_nil, outline, read,
    Bool.false_eq_true, if_false]
  exact .terminal .nil

theorem conforms_takeOver {t : Table} (names : g.NamesNodes) (built : t.BuiltFrom g)
    (table : s.table = t) (conforms : c.Conforms g) {r : Reuse} {found : Reusable} {record : Record}
    {tokens : List Token} (old : r.Conforms g)
    (fits : r.Fits (s.gotoKind c.top) c.top tokens found record) :
    (Setup.takeOver c found).Conforms g := by
  obtain ⟨start, known⟩ := fits.known
  obtain ⟨n, is, goto⟩ := Option.bind_eq_some_iff.1 fits.next
  rw [table] at is goto
  obtain ⟨m, there, node⟩ := Table.nonterminal_of_node built is
  obtain ⟨_, leads⟩ := Table.leads_of_goto built goto
  rw [← top_flush] at leads
  have conform := old _ known
  obtain ⟨notError, notMissing, _⟩ := names.reserved there node
  refine conforms.flush.push (x := .nonterminal n) rfl leads ?_ ?_ rfl rfl
  · cases shape : found.node with
    | leaf k text =>
      have recorded := fits.recorded
      rw [shape] at recorded
      cases recorded
    | node k mark children =>
      rw [shape] at node notError notMissing
      have outlined : outline (.node k mark children) = [k] := Tree.outline_node notError notMissing
      simp only [Entry.trees, Tree.outlines_cons, Tree.outlines_nil, outlined]
      exact .visible there node .nil
  · simp [conform]

theorem conforms_insertShift {t : Table} (names : g.NamesNodes) (built : t.BuiltFrom g)
    (conforms : c.Conforms g) {k : Kind} {next : Nat} (action : t.action c.top k = .shift next) :
    (endInsertion (pushMissing c k next)).Conforms g := by
  have leads := Table.leads_of_shift built action
  refine conforms.push (x := .terminal k) rfl leads ?_ ?_ rfl rfl
  · exact .terminal .nil
  · refine (Tree.allConformIn_cons _ _).2 ⟨Tree.allConform_node.2 ⟨?_, by simp⟩, by simp⟩
    exact Tree.conformsTo_reserved names (.inr (.inl rfl))

theorem conforms_skip (conforms : c.Conforms g) (h : s.skip c = .ok c') : c'.Conforms g := by
  obtain ⟨u, rest, front, rfl⟩ := skip_ok h
  unfold pushSkipped
  split
  · rename_i state damaged offset children below _ stack
    obtain ⟨⟨path, viable⟩, nodes, pending⟩ := conforms
    rw [stack] at viable nodes
    refine ⟨⟨path, ?_⟩, ?_, by simp⟩
    · cases viable with
      | extra rest role same blank => exact .extra rest rfl same rfl
      | symbol rest role => cases role
    · intro e member
      rcases List.mem_cons.mp member with rfl | old
      · simp only [Tree.allConformIn_append]
        exact ⟨⟨nodes _ (.head _), allConformIn_leaves _⟩, by simp [leaf]⟩
      · exact nodes e (.tail _ old)
  · have flushed := conforms.flush
    obtain ⟨⟨path, viable⟩, nodes, pending⟩ := flushed
    refine ⟨⟨path, .extra viable rfl rfl rfl⟩, ?_, pending⟩
    intro e member
    rcases List.mem_cons.mp member with rfl | old
    · simp [leaf]
    · exact nodes e old

theorem conforms_wrap (names : g.NamesNodes) (conforms : c.Conforms g) (depth : Nat) (k : Kind) :
    (Setup.wrap c depth k).Conforms g := by
  obtain ⟨⟨path, viable⟩, nodes, pending⟩ := conforms
  obtain ⟨rest, _⟩ := viable.pop depth
  refine ⟨⟨_, .extra rest rfl rfl rfl⟩, ?_, pending⟩
  intro e member
  rcases List.mem_cons.mp member with rfl | old
  · refine (Tree.allConformIn_cons _ _).2 ⟨Tree.allConform_node.2 ⟨?_, ?_⟩, by simp⟩
    · exact Tree.conformsTo_reserved names (.inl rfl)
    · exact allConformIn_flatMap_trees names fun e popped => nodes e (mem_of_pop (.inl popped))
  · exact nodes e (mem_of_pop (.inr old))

theorem Move.conforms {t : Table} (names : g.NamesNodes) (built : t.BuiltFrom g)
    (table : s.table = t) (old : ∀ r, s.reuse = some r → r.Conforms g) (conforms : c.Conforms g)
    (move : Move s c c') : c'.Conforms g := by
  have settled := conforms.settle
  cases move with
  | insertReduce _ action reduced =>
    exact conforms_reduce names built table conforms (table ▸ action) reduced
  | insertShift _ action => exact conforms_insertShift names built conforms (table ▸ action)
  | insertStop => exact ⟨conforms.path, conforms.nodes, conforms.pending⟩
  | reduce _ _ action reduced =>
    exact conforms_reduce names built table settled (table ▸ action) reduced
  | shift _ _ action shifted =>
    exact conforms_shift built settled (table ▸ action) (isTrivia_lookahead_settle c) shifted
  | takeOver _ _ _ reuse finds =>
    obtain ⟨record, fits⟩ := Reuse.find?_some finds
    exact conforms_takeOver names built table settled (old _ reuse) fits
  | insert => exact ⟨settled.path, settled.nodes, settled.pending⟩
  | wrap => exact conforms_wrap names settled _ _
  | skip _ _ _ _ _ skipped => exact conforms_skip settled skipped

theorem moves_conforms {t : Table} (names : g.NamesNodes) (built : t.BuiltFrom g)
    (table : s.table = t) (old : ∀ r, s.reuse = some r → r.Conforms g) (conforms : c.Conforms g)
    (moves : Relation.ReflTransGen (Move s) c c') : c'.Conforms g := by
  induction moves with
  | refl => exact conforms
  | tail _ move ih => exact move.conforms names built table old ih

/-- Where the table accepts, the stack is the start symbol. -/
theorem expands_of_accept {t : Table} (built : t.BuiltFrom g) (conforms : c.Conforms g) {k : Kind}
    (action : t.action c.top k = .accept) :
    g.Expands [.nonterminal g.start] (outlines (Setup.root c).children) := by
  rw [← top_flush] at action
  obtain ⟨⟨path, viable⟩, _, _⟩ := conforms.flush
  obtain ⟨d, holds, started⟩ := Table.holds_of_accept built action
  have rhs : g.rhs g.startRule = [.nonterminal g.start] := by
    simp [Grammar.rhs, Grammar.startRule]
  obtain ⟨is, read, base, further, start⟩ := viable.reaches.read_complete holds (by simpa [rhs])
  have behind : path.drop d = [] := further.eq_nil_of_startItem start
  have whole : path.reverse = [.nonterminal g.start] := by
    rw [← List.take_append_drop d path, behind, List.append_nil, read, rhs]
  rw [← whole]
  exact viable.expands

/-- A run gives up only where the table has no action at the end of an empty text. -/
theorem not_gaveUp {t : Table} (conforms : c.Conforms g)
    (action : t.action c.top .eof = .error) (accepts : t.action 0 .eof ≠ .error)
    (repair : s.chooseRepair c .eof = .skip ∨ s.chooseRepair c .eof = .wrap 0) : False := by
  obtain ⟨⟨path, viable⟩, _, _⟩ := conforms
  have short : c.states.length ≤ 1 := Repair.length_of_choose repair
  have none : path = [] := by
    have count := viable.length_filter
    unfold states at short
    rw [List.length_append, List.length_map, count] at short
    simpa using short
  have top : c.top = 0 := viable.topState_eq_zero none
  rw [top] at action
  exact accepts action

theorem allConform_root (names : g.NamesNodes) (conforms : c.Conforms g) :
    (Setup.root c).AllConform g := by
  refine Tree.allConform_node.2 ⟨Tree.conformsTo_reserved names (.inr (.inr rfl)), ?_⟩
  exact allConformIn_flatMap_trees names fun e member =>
    conforms.flush.nodes e (List.mem_reverse.1 member)

/-- What is known of the root where a run ends. -/
theorem conforms_of_run {t : Table} (names : g.NamesNodes) (built : t.BuiltFrom g)
    (table : s.table = t) (accepts : t.action 0 .eof ≠ .error)
    (old : ∀ r, s.reuse = some r → r.Conforms g) {tokens : List Token} {fuel : Nat}
    (h : s.run fuel (.initial tokens) = .ok c) : (Setup.root c).AllConform g ∧
      g.Expands [.nonterminal g.start] (outlines (Setup.root c).children) := by
  obtain ⟨last, moves, final⟩ := run_cases h
  have conforms := moves_conforms names built table old (conforms_initial tokens) moves
  cases final with
  | accepted _ _ action =>
    exact ⟨allConform_root names conforms.settle,
      expands_of_accept built conforms.settle (table ▸ action)⟩
  | gaveUp _ atEnd action repair =>
    rw [atEnd] at action repair
    exact (not_gaveUp conforms.settle (table ▸ action) accepts repair).elim

end Setup

/-- The document's tree is one of the grammar. -/
def Document.Conforms (g : Grammar) (d : Document) : Prop :=
  d.root.AllConform g ∧ g.Expands [.nonterminal g.start] (outlines d.root.children)

theorem Parser.conforms_of_runOn {g : Grammar} {p : Parser} (names : g.NamesNodes)
    (built : Table.build g = .ok p.language.table)
    (accepts : p.language.table.action 0 .eof ≠ .error) {reuse : Option Reuse}
    (old : ∀ r, reuse = some r → r.Conforms g) {text : String} {tokens : List Token} {d : Document}
    (h : p.runOn text tokens reuse = .ok d) : d.Conforms g := by
  unfold runOn at h
  dsimp only at h
  cases ran : (p.setup reuse).run ((p.setup reuse).stepBound tokens.length) (.initial tokens) with
  | error f => rw [ran] at h; cases h
  | ok c =>
    rw [ran] at h
    obtain rfl := Except.ok.inj h
    exact Setup.conforms_of_run names (Table.build_ok built) rfl accepts old ran

theorem Parsed.conforms {g : Grammar} (names : g.NamesNodes)
    (accepts : ∀ t, Table.build g = .ok t → t.action 0 .eof ≠ .error) {text : String} {d : Document}
    (h : Parsed (fun l => Table.build g = .ok l.table) text d) : d.Conforms g := by
  induction h with
  | parse known parsed =>
    exact Parser.conforms_of_runOn names known (accepts _ known) (by simp) parsed
  | @reparse p text newText old d changes edits known before changed parsed ih =>
    rcases Parser.runOn_of_reparse parsed with parsed | ⟨map, tokens, _, _, _, _, parsed⟩
    · exact Parser.conforms_of_runOn names known (accepts _ known) (by simp) parsed
    · refine Parser.conforms_of_runOn names known (accepts _ known) ?_ parsed
      rintro r ⟨⟩
      exact Reuse.conforms_ofDocument ih.1
  | number next before ih =>
    obtain ⟨nodes, root⟩ := ih
    refine ⟨Tree.allConform_numberFrom next _ nodes, ?_⟩
    unfold Document.numbered
    rw [Tree.outlines_children_numberFrom]
    exact root

end ShaderTree
