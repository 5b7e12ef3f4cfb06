import ShaderTree.Proofs.Metal.Incremental
import ShaderTree.Proofs.Metal.Plans
import ShaderTree.Proofs.Parser.Items
import ShaderTree.Proofs.Text.Origins

/-! Items shared by a reparse. An item of an old tree that no change reached is an object of the new tree
as well, wherever the new tree has an item of its shape in such a place. -/
namespace ShaderTree

namespace Document

variable {a b d : Document}

/-- An old item that no edit touched, and an item of the new text where it was carried: of the same shape,
in front of the same kind of token, and first if and only if the other is. -/
structure Item.Remains (map : EditMap) (origins : List (Option Nat)) (n : a.Item) (m : b.Item) : Prop where
  untouched : map.touches n.start n.stop = false
  shape : m.node.sameShape n.node = true
  carried : origins[m.start]? = some (some n.start)
  follow : m.follow = n.follow
  first : m.isFirst = n.isFirst

/-- A document has the very node of the item right below its root, in some place. -/
def Item.SharedBy (n : a.Item) (d : Document) (start : Nat) : Prop :=
  ∃ k : d.Item, k.start = start ∧ k.node = n.node ∧ isSameNode k.node n.node = true

/-- The root is a node, and when it has a number, all nodes right below it have. -/
structure Counted (d : Document) : Prop where
  isNode : d.root.isLeaf = false
  below : (d.root.mark?.bind (·.serial)).isSome = true →
    ∀ u ∈ d.root.children, u.isLeaf = false → (u.mark?.bind (·.serial)).isSome = true

theorem serial_of_mem_numberAllFrom {next : Nat} {ts : List Tree} {u : Tree}
    (member : u ∈ (Tree.numberAllFrom next ts).1) (isNode : u.isLeaf = false) :
    (u.mark?.bind (·.serial)).isSome = true := by
  induction ts generalizing next with
  | nil => cases member
  | cons t ts ih =>
    rw [Tree.numberAllFrom] at member
    dsimp only at member
    rcases List.mem_cons.1 member with rfl | others
    · cases t with
      | leaf => cases isNode
      | node k m cs =>
        rw [Tree.numberFrom]
        split <;> rfl
    · exact ih others

theorem Counted.numbered (counted : d.Counted) (next : Nat) :
    (d.numbered next).Counted ∧ ((d.numbered next).root.mark?.bind (·.serial)).isSome = true := by
  obtain ⟨isNode, below⟩ := counted
  cases shape : d.root with
  | leaf => rw [shape] at isNode; cases isNode
  | node k m cs =>
    rw [shape] at below
    cases serial : m.serial with
    | some i =>
      have same : (d.numbered next).root = d.root := by
        obtain ⟨_, record⟩ := m
        obtain rfl : _ = some i := serial
        rw [Document.numbered, shape]
        rfl
      refine ⟨⟨?_, ?_⟩, ?_⟩ <;> rw [same, shape]
      · rfl
      · exact below
      · simp [Tree.mark?, serial]
    | none =>
      have is : (d.numbered next).root =
          .node k { m with serial := some next } (Tree.numberAllFrom (next + 1) cs).1 := by
        simp [Document.numbered, shape, Tree.numberFrom, serial]
      refine ⟨⟨?_, ?_⟩, ?_⟩ <;> rw [is]
      · rfl
      · exact fun _ u member => serial_of_mem_numberAllFrom member
      · rfl

end Document

namespace Metal

set_option maxRecDepth 20000 in
theorem itemizes {t : Table} (built : table = .ok t) :
    grammar.Itemizes t Phrase.items.index Phrase.item.index where
  lists := {
    ofStart := by decide
    ofList := by decide
    ofItem := by
      have visible : ∀ p ∈ grammar.productions.toList, p.lhs = Phrase.item.index →
          ∃ n ∈ p.rhs.head?, p.rhs = [n] ∧ ∃ m < grammar.nonterminals.size, n = .nonterminal m ∧
            (grammar.nonterminals[m]?.bind (·.node?)).isSome = true := by
        decide
      intro p member lhs
      obtain ⟨_, _, rhs, m, _, rfl, node⟩ := visible p member lhs
      obtain ⟨k, is⟩ := Option.isSome_iff_exists.1 node
      exact ⟨m, k, rhs, is⟩
    hidden := by decide }
  only := onlyStartVanishes
  named := named built
  built := Table.build_ok built
  acts := by
    rw [action_start_eof built]
    simp

variable {p : Parser} {text newText : String} {old d : Document} {changes : List Change}
  {edits : List Edit}

theorem table_of_language {l : Language} (known : language = .ok l) :
    table = .ok l.table ∧ l.identity = 0 := by
  unfold language at known
  cases built : table with
  | error e => rw [built] at known; cases known
  | ok t =>
    rw [built] at known
    obtain rfl := Except.ok.inj known
    exact ⟨rfl, rfl⟩

theorem parsed_table (parsed : Parsed (fun l => language = .ok l) text old) :
    Parsed (fun l => table = .ok l.table) text old :=
  parsed.mono fun _ known => (table_of_language known).1

/-- What is known of each document of the built-in language. -/
theorem own_of_parsed (parsed : Parsed (fun l => language = .ok l) text old) :
    old.table = 0 ∧ old.Counted := by
  have run {p : Parser} {tokens : List Token} {reuse : Option Reuse} {text : String} {d : Document}
      (known : language = .ok p.language) (parsed : p.runOn text tokens reuse = .ok d) :
      d.table = 0 ∧ d.Counted := by
    unfold Parser.runOn at parsed
    dsimp only at parsed
    cases ran : (p.setup reuse).run ((p.setup reuse).stepBound tokens.length) (.initial tokens) with
    | error f => rw [ran] at parsed; cases parsed
    | ok last =>
      rw [ran] at parsed
      obtain rfl := Except.ok.inj parsed
      exact ⟨(table_of_language known).2, rfl, nofun⟩
  induction parsed with
  | parse known parsed => exact run known parsed
  | reparse known before changed parsed ih =>
    have tokenized := ((parsed_table before).mono fun _ known => ⟨_, known⟩).isTokenized
    rcases Parser.runOn_readAll_of_reparse tokenized changed parsed with parsed | ⟨map, parsed⟩
    · exact run known parsed
    · exact run known parsed
  | number next before ih => exact ⟨ih.1, (ih.2.numbered next).1⟩

/-- A tree without errors is the one that any parser of the language makes of the text. -/
theorem exists_parse_of_parsed (metal : language = .ok p.language)
    (parsed : Parsed (fun l => language = .ok l) text old) (quiet : old.diagnostics = []) :
    ∃ fresh, p.parse text = .ok fresh ∧ fresh.diagnostics = [] ∧ fresh.root.plain = old.root.plain := by
  have any {q : Parser} {text : String} {d : Document} (known : language = .ok q.language)
      (parsed : q.parse text = .ok d) (quiet : d.diagnostics = []) : p.parse text = .ok d := by
    have same : q.language = p.language := Except.ok.inj (known.symm.trans metal)
    have built := (table_of_language metal).1
    rw [← same] at built
    obtain ⟨e, _, all⟩ := exists_parse_of_takes built (takes_of_parse (o := q.options) built parsed quiet)
    obtain rfl := Except.ok.inj ((all q.options).symm.trans parsed)
    have here := all p.options
    rwa [same] at here
  induction parsed with
  | parse known parsed => exact ⟨_, any known parsed quiet, quiet, rfl⟩
  | @reparse q _ _ _ _ _ _ known before changed parsed ih =>
    obtain ⟨d, d', again, fresh, _, shape, reports⟩ :=
      exists_reparse (p := q) (table_of_language known).1 (parsed_table before) changed
    obtain rfl := Except.ok.inj (again.symm.trans parsed)
    rw [reports] at quiet
    exact ⟨d', any known fresh quiet, quiet, shape.symm⟩
  | number next before ih =>
    obtain ⟨fresh, parsed, silent, shape⟩ := ih quiet
    exact ⟨fresh, parsed, silent, shape.trans (Tree.plain_numberFrom _ _).symm⟩

/-- The items of a tree without errors record where they stand. -/
theorem recorded_of_parsed (built : table = .ok p.language.table)
    (parsed : Parsed (fun l => table = .ok l.table) text old) (quiet : old.diagnostics = [])
    (n : old.Item) : n.Recorded grammar p.language.table Phrase.items.index := by
  have run {q : Parser} {reuse : Option Reuse} {text : String} {d : Document}
      (known : table = .ok q.language.table)
      (parsed : q.runOn text (Token.readAll text) reuse = .ok d)
      (sized : ∀ r, reuse = some r → ∀ n ∈ r.nodes, n.2.size ≠ 0) (quiet : d.diagnostics = [])
      (n : d.Item) :
      n.Recorded grammar p.language.table Phrase.items.index := by
    obtain same : q.language.table = p.language.table := Except.ok.inj (known.symm.trans built)
    rw [← same]
    exact q.recorded_of_runOn (itemizes known) (fun _ => Token.isLexical_of_mem_readAll)
      (fun _ => Token.hasText_of_mem_readAll) sized parsed quiet n
  induction parsed with
  | parse known parsed => exact run known parsed (fun _ is => nomatch is) quiet n
  | reparse known before changed parsed ih =>
    have tokenized := (before.mono fun _ known => ⟨_, known⟩).isTokenized
    rcases Parser.runOn_readAll_of_reparse tokenized changed parsed with parsed | ⟨map, parsed⟩
    · exact run known parsed (fun _ is => nomatch is) quiet n
    · refine run known parsed ?_ quiet n
      rintro r ⟨⟩ o member
      exact of_decide_eq_true (List.mem_filter.1 member).2
  | @number text d next before ih =>
    have same : d.root.children.map (fun u => (u.plain, u.record?)) =
        (d.numbered next).root.children.map fun u => (u.plain, u.record?) := by
      cases shape : d.root with
      | leaf => rw [Document.numbered, shape]; rfl
      | node k m cs =>
        rw [Document.numbered, shape, Tree.numberFrom]
        split
        · rfl
        · exact (Tree.map_numberAllFrom _ (fun _ _ => by simp [Tree.record?_numberFrom]) _ _).symm
    obtain ⟨k, alike, both⟩ := Document.Item.exists_of_map same
      (fun _ _ both => (Prod.mk.inj both).1) n
    obtain ⟨plain, record⟩ := Prod.mk.inj both
    obtain ⟨⟨state, after, recorded, counts, goto⟩, size⟩ := ih quiet k
    refine ⟨⟨state, after, ?_, alike.isFirst ▸ counts, ?_⟩, ?_⟩
    · rw [← record, recorded, alike.follow]
    · rw [← Tree.kind_plain, ← plain, Tree.kind_plain]
      exact goto
    · rw [← Tree.size_plain, ← plain, Tree.size_plain]
      exact size

/-- Items end inside the text. -/
theorem stop_le (parsed : Parsed (fun l => table = .ok l.table) text old) (n : old.Item) :
    n.stop ≤ text.utf8ByteSize := by
  obtain ⟨rfl, tokenized⟩ := (parsed.mono fun _ known => ⟨_, known⟩).isTokenized
  have whole : old.root.size = old.text.utf8ByteSize := by
    rw [Tree.size_eq, Relex.chars_leaves tokenized, Text.size_toList]
  have below : Tree.sizeAll old.root.children ≤ old.root.size := by
    cases old.root with
    | leaf => exact Nat.zero_le _
    | node => exact Nat.le_refl _
  rw [n.split, Tree.sizeAll_append, Tree.sizeAll] at below
  rw [Document.Item.stop, Document.Item.start]
  omega

/-- What a reparse shares with an old tree without errors, if the new text has none either. -/
theorem exists_sharing {map : EditMap} {fresh : Document} (metal : language = .ok p.language)
    (reuse : p.options.reuse = true) (parsed : Parsed (fun l => language = .ok l) text old)
    (quiet : old.diagnostics = []) (next : Nat)
    (changed : Change.applyAll text changes = .ok (edits, newText))
    (mapped : EditMap.ofEdits? edits text.utf8ByteSize = .ok (some map))
    (freshly : p.parse newText = .ok fresh) (silent : fresh.diagnostics = []) :
    ∃ d, p.reparse (old.numbered next) edits newText = .ok d ∧
      ∀ (n : (old.numbered next).Item) (m : fresh.Item), map.touches n.start n.stop = false →
        m.node.plain = n.node.plain → map.toOld? m.start = .ok (some n.start) → m.follow = n.follow →
          m.isFirst = n.isFirst → n.SharedBy d m.start := by
  obtain ⟨built, identity⟩ := table_of_language metal
  have before : Parsed (fun l => language = .ok l) text (old.numbered next) := .number next parsed
  have tabled := parsed_table before
  obtain ⟨own, _⟩ := own_of_parsed before
  obtain ⟨_, numbered⟩ := (own_of_parsed parsed).2.numbered next
  obtain ⟨d, d', again, fresh', _, shape, reports⟩ := exists_reparse (p := p) built tabled changed
  obtain rfl := Except.ok.inj (fresh'.symm.trans freshly)
  have tokenized := (tabled.mono fun _ known => ⟨_, known⟩).isTokenized
  have ran := Parser.reparse_eq_runOn reuse (own.trans identity.symm) tokenized changed mapped
  refine ⟨d, again, fun n m clear same start follow first => ?_⟩
  obtain ⟨k, alike⟩ := Document.Item.exists_alike shape m
  have shares : k.node = n.node := Parser.shares_of_runOn (itemizes built)
    (fun _ => Token.isLexical_of_mem_readAll) (fun _ => Token.hasText_of_mem_readAll)
    (Token.abreast_readAll newText) (ran.symm.trans again) (reports.trans silent)
    (tabled.trim onlyStartVanishes rfl).unrecorded (recorded_of_parsed built tabled quiet n)
    (alike.node.trans same) clear (alike.start ▸ start) (alike.follow.trans follow)
    (alike.isFirst.trans first)
  have serial := (own_of_parsed before).2.below numbered n.node (n.split ▸ by simp) n.isNode
  refine ⟨k, alike.start, shares, ?_⟩
  rw [shares]
  obtain ⟨i, is⟩ := Option.isSome_iff_exists.1 serial
  simp [Document.isSameNode, is]

/-- The second of two namespaces. -/
theorem exists_second {a b : String}
    (root : d.root.plain = .node .sourceFile {} [namespaceTree a, namespaceTree b]) :
    ∃ n : d.Item, n.start = (namespaceTree a).size ∧ n.node.plain = namespaceTree b ∧
      n.follow = .eof ∧ n.isFirst = false := by
  let reference : Document := ⟨.node .sourceFile {} [namespaceTree a, namespaceTree b], "", [], 0⟩
  obtain ⟨n, alike⟩ := Document.Item.exists_alike (b := reference) root
    ⟨[namespaceTree a], namespaceTree b, [], rfl, rfl⟩
  exact ⟨n, alike.start, alike.node, alike.follow, alike.isFirst⟩

/-- Untouched items are shared. An old tree may come from any chain of parses and reparses; if it has no
errors and the changed text has none, then a reparse has the very node of each old item that remains, in
the place where it remains. So all items are shared where nothing is changed. -/
theorem reparse_shares (metal : language = .ok p.language) (reuse : p.options.reuse = true)
    (parsed : Parsed (fun l => language = .ok l) text old) (quiet : old.diagnostics = []) (next : Nat) :
    (∀ changes edits newText map fresh, Change.applyAll text changes = .ok (edits, newText) →
      EditMap.ofEdits? edits text.utf8ByteSize = .ok (some map) → p.parse newText = .ok fresh →
        fresh.diagnostics = [] → ∃ d, p.reparse (old.numbered next) edits newText = .ok d ∧
          ∀ (n : (old.numbered next).Item) (m : fresh.Item),
            n.Remains map (EditMap.origins text.utf8ByteSize edits) m → n.SharedBy d m.start) ∧
    ∃ d, p.reparse (old.numbered next) [] text = .ok d ∧
      ∀ n : (old.numbered next).Item, n.SharedBy d n.start := by
  obtain ⟨built, _⟩ := table_of_language metal
  have tabled : Parsed (fun l => table = .ok l.table) text (old.numbered next) :=
    .number next (parsed_table parsed)
  refine ⟨fun changes edits newText map fresh changed mapped freshly silent => ?_, ?_⟩
  · obtain ⟨d, again, shares⟩ :=
      exists_sharing metal reuse parsed quiet next changed mapped freshly silent
    refine ⟨d, again, fun n m remains => ?_⟩
    have sized := (recorded_of_parsed built tabled quiet n).sized
    have start := EditMap.toOld?_of_origin mapped (Nat.lt_add_of_pos_right (Nat.pos_of_ne_zero sized))
      (stop_le tabled n) remains.untouched remains.carried
    exact shares n m remains.untouched (Tree.plain_of_sameShape remains.shape) start remains.follow
      remains.first
  · obtain ⟨fresh, freshly, silent, shape⟩ := exists_parse_of_parsed metal parsed quiet
    have unchanged : Change.applyAll text [] = .ok ([], text) := rfl
    obtain ⟨d, again, shares⟩ := exists_sharing metal reuse parsed quiet next unchanged rfl freshly silent
    refine ⟨d, again, fun n => ?_⟩
    obtain ⟨m, alike⟩ := Document.Item.exists_alike
      (shape.trans (Tree.plain_numberFrom next old.root).symm) n
    have start : EditMap.toOld? ⟨[]⟩ m.start = .ok (some n.start) := by
      rw [alike.start]
      rfl
    rw [← alike.start]
    exact shares n m rfl alike.node start alike.follow alike.isFirst

/-- The second of two namespaces is shared when the first one gets another name. -/
theorem reparse_shares_renamed : ∃ (p : Parser) (old d : Document),
    language = .ok p.language ∧ p.options.reuse = true ∧
      p.parse "namespace a\x7b\x7dnamespace b\x7b\x7d" = .ok old ∧ old.diagnostics = [] ∧
        p.reparse (old.numbered 0) [⟨10, 11, 12⟩] "namespace cc\x7b\x7dnamespace b\x7b\x7d" = .ok d ∧
          ∃ n : (old.numbered 0).Item, n.start = 13 ∧ n.SharedBy d 14 := by
  obtain ⟨t, built⟩ := exists_table
  let p : Parser := ⟨⟨"metal", t, 0⟩, {}⟩
  have metal : language = .ok p.language := by
    rw [language, built]
    rfl
  have changed : Change.applyAll "namespace a\x7b\x7dnamespace b\x7b\x7d" [⟨10, 11, "cc"⟩] =
      .ok ([⟨10, 11, 12⟩], "namespace cc\x7b\x7dnamespace b\x7b\x7d") := by
    decide +kernel
  have mapped : EditMap.ofEdits? [⟨10, 11, 12⟩] "namespace a\x7b\x7dnamespace b\x7b\x7d".utf8ByteSize =
      .ok (some ⟨[⟨10, 12, 10, 11⟩]⟩) := by
    decide +kernel
  have labels : (Token.readAll "namespace a\x7b\x7dnamespace b\x7b\x7d").map Token.label =
      namespaceLabels "a" ++ namespaceLabels "b" := by
    with_unfolding_all decide
  have labels' : (Token.readAll "namespace cc\x7b\x7dnamespace b\x7b\x7d").map Token.label =
      namespaceLabels "cc" ++ namespaceLabels "b" := by
    with_unfolding_all decide
  obtain ⟨old, parsed, quiet, root⟩ := parse_namespaces (p := p) built labels
  obtain ⟨fresh, freshly, silent, root'⟩ := parse_namespaces (p := p) built labels'
  obtain ⟨d, again, shares⟩ := (reparse_shares (p := p) metal rfl (.parse metal parsed) quiet 0).1
    _ _ _ _ _ changed mapped freshly silent
  obtain ⟨n, start, node, follow, first⟩ := exists_second (d := old.numbered 0)
    ((Tree.plain_numberFrom 0 old.root).trans root)
  obtain ⟨m, start', node', follow', first'⟩ := exists_second root'
  have start : n.start = 13 := start
  have start' : m.start = 14 := start'
  have stop : n.stop = 26 := by
    rw [Document.Item.stop, start, ← Tree.size_plain, node]
    rfl
  refine ⟨p, old, d, metal, rfl, parsed, quiet, again, n, start, start' ▸ shares n m ?_⟩
  exact {
    untouched := by
      rw [start, stop]
      decide
    shape := Tree.sameShape_of_plain (node'.trans node.symm)
    carried := by
      rw [start, start']
      decide
    follow := follow'.trans follow.symm
    first := first'.trans first.symm }

end Metal

end ShaderTree
