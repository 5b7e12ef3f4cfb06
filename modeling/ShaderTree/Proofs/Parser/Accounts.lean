import ShaderTree.Proofs.Parser.Bound
import ShaderTree.Proofs.Parser.Repairs

/-! The diagnostics of a document and the nodes of its tree that tell of repairs answer to each other,
whatever the text, the options and the parses before. -/
namespace ShaderTree

/-- Diagnostics and nodes that tell of repairs answer to each other. -/
structure Document.Accounts (d : Document) : Prop where
  sorted : d.diagnostics.Pairwise fun a b => a.range.start ≤ b.range.start
  inside : ∀ e ∈ d.diagnostics, e.range.start ≤ e.range.stop ∧ e.range.stop ≤ d.text.utf8ByteSize
  missing : ((d.errorNodes.filter (·.kind = .missing)).map Site.range).Perm
    (Diagnostic.rangesOf .missingToken d.diagnostics)
  empty : ∀ e ∈ d.diagnostics, e.code = .missingToken → e.range.isEmpty = true
  /-- The nodes of text that was given up, and those of tokens that were left out. -/
  errors : ∃ given left, (d.errorNodes.filter (·.kind = .error)).Perm (given ++ left) ∧
    given.map Site.range = Diagnostic.rangesOf .unexpectedInput d.diagnostics ∧
      ∀ n ∈ left, ∃ e ∈ d.diagnostics, e.LeavesOut ∧ e.range.start = n.start
  covered : ∀ e ∈ d.diagnostics, e.LeavesOut →
    ∃ n ∈ d.errorNodes, n.kind = .error ∧ n.range.contains e.range = true
  any : d.diagnostics ≠ [] ↔ d.errorNodes ≠ []

/-- The same by ranges in the tree. -/
structure Document.Tallies (d : Document) : Prop where
  sorted : d.diagnostics.Pairwise fun a b => a.range.start ≤ b.range.start
  inside : ∀ e ∈ d.diagnostics, e.range.start ≤ e.range.stop ∧ e.range.stop ≤ d.text.utf8ByteSize
  missing : (d.root.rangesOf .missing 0).Perm (Diagnostic.rangesOf .missingToken d.diagnostics)
  empty : ∀ e ∈ d.diagnostics, e.code = .missingToken → e.range.isEmpty = true
  errors : ∃ runs, (d.root.rangesOf .error 0).Perm
      (Diagnostic.rangesOf .unexpectedInput d.diagnostics ++ runs) ∧
    Diagnostic.FillRuns d.diagnostics runs

namespace Document

variable {d : Document}

/-- Without diagnostics no node tells of a repair, and without such nodes there is no diagnostic. -/
theorem Tallies.any (tallies : d.Tallies) : d.diagnostics ≠ [] ↔ d.errorNodes ≠ [] := by
  obtain ⟨runs, errors, fill⟩ := tallies.errors
  have missing := tallies.missing
  rw [← d.map_range_errorNodes rfl] at errors missing
  rw [not_iff_not]
  constructor
  · intro quiet
    rw [quiet] at errors missing fill
    have noRuns : runs = [] := by
      refine List.eq_nil_iff_forall_not_mem.2 fun r member => ?_
      obtain ⟨e, reported, _⟩ := fill.starts r member
      cases reported
    subst noRuns
    have noErrors := List.map_eq_nil_iff.1 errors.eq_nil
    have noMissing := List.map_eq_nil_iff.1 missing.eq_nil
    refine List.eq_nil_iff_forall_not_mem.2 fun n member => ?_
    rcases Kind.isError_iff.1 (List.mem_filter.1 member).2 with kind | kind
    · exact List.filter_eq_nil_iff.1 noErrors n member (by simp [kind])
    · exact List.filter_eq_nil_iff.1 noMissing n member (by simp [kind])
  · intro none
    rw [none] at errors missing
    obtain ⟨noErrors, noRuns⟩ := List.append_eq_nil_iff.1 errors.nil_eq.symm
    have noMissing := missing.nil_eq.symm
    refine List.eq_nil_iff_forall_not_mem.2 fun e reported => ?_
    rcases e.leavesOut_cases with leavesOut | code | code
    · obtain ⟨r, member, _⟩ := fill.inside e reported leavesOut
      rw [noRuns] at member
      cases member
    · have listed := List.map_eq_nil_iff.1 noMissing
      exact List.filter_eq_nil_iff.1 listed e reported (by simp [code])
    · have listed := List.map_eq_nil_iff.1 noErrors
      exact List.filter_eq_nil_iff.1 listed e reported (by simp [code])

theorem Tallies.accounts (tallies : d.Tallies) : d.Accounts := by
  obtain ⟨runs, errors, fill⟩ := tallies.errors
  rw [← d.map_range_errorNodes rfl] at errors
  obtain ⟨nodes, same, ranges⟩ := exists_perm_of_map errors
  obtain ⟨given, left, rfl, isGiven, isLeft⟩ := List.map_eq_append_iff.1 ranges
  refine ⟨tallies.sorted, tallies.inside, ?_, tallies.empty, ⟨given, left, same, isGiven, ?_⟩, ?_,
    tallies.any⟩
  · rw [d.map_range_errorNodes rfl]
    exact tallies.missing
  · intro n member
    have run : n.range ∈ runs := by
      rw [← isLeft]
      exact List.mem_map_of_mem member
    exact fill.starts n.range run
  · intro e reported leavesOut
    obtain ⟨r, member, covers⟩ := fill.inside e reported leavesOut
    rw [← isLeft] at member
    obtain ⟨n, isLeft, rfl⟩ := List.mem_map.1 member
    obtain ⟨inside, kind⟩ := List.mem_filter.1 (same.symm.subset (List.mem_append_right _ isLeft))
    exact ⟨n, inside, of_decide_eq_true kind, covers⟩

/-- Numbers change no ranges. -/
theorem Tallies.numbered (tallies : d.Tallies) (next : Nat) : (d.numbered next).Tallies := by
  have same (k : Kind) : (d.numbered next).root.rangesOf k 0 = d.root.rangesOf k 0 :=
    Tree.rangesOf_numberFrom k 0 next d.root
  refine ⟨tallies.sorted, tallies.inside, ?_, tallies.empty, ?_⟩
  · rw [same]
    exact tallies.missing
  · rw [same]
    exact tallies.errors

end Document

namespace Setup

open Config

variable {s : Setup} {c : Config} {stop : Nat}

theorem report_perm (c : Config) : (Setup.report c).Perm c.diagnostics :=
  (List.mergeSort_perm _ _).trans (List.reverse_perm _)

theorem report_sorted (c : Config) :
    (Setup.report c).Pairwise fun a b => a.range.start ≤ b.range.start := by
  have trans (x y z : Diagnostic) (xy : decide (x.range.start ≤ y.range.start) = true)
      (yz : decide (y.range.start ≤ z.range.start) = true) :
      decide (x.range.start ≤ z.range.start) = true :=
    decide_eq_true ((of_decide_eq_true xy).trans (of_decide_eq_true yz))
  have total (x y : Diagnostic) : (decide (x.range.start ≤ y.range.start) ||
      decide (y.range.start ≤ x.range.start)) = true := by
    simpa using Nat.le_total x.range.start y.range.start
  exact (List.pairwise_mergeSort trans total _).imp of_decide_eq_true

theorem rangesOf_perm {ds ds' : List Diagnostic} (same : ds.Perm ds') (code : Code) :
    (Diagnostic.rangesOf code ds).Perm (Diagnostic.rangesOf code ds') :=
  (same.filter _).map _

/-- What a run shows and reports once everything is under the root. -/
theorem tallies_of_run {tokens : List Token} {fuel : Nat} (spares : s.table.SparesRepairs)
    (old : ∀ r, s.reuse = some r → r.Sound) {text : String}
    (abreast : Token.Abreast text.utf8ByteSize 0 tokens) (h : s.run fuel (.initial tokens) = .ok c)
    (table : Nat) : Document.Tallies ⟨Setup.root c, text, Setup.report c, table⟩ := by
  obtain ⟨last, moves, final⟩ := run_cases h
  have settled : c = last.settle := by cases final <;> rfl
  have start := placed_initial abreast
  have placed : c.Placed text.utf8ByteSize := settled ▸ (moves_placed start moves).settle
  have accounted := moves_accounted spares old start (accounted_initial tokens) moves
  have reported : c.diagnostics = last.diagnostics := by rw [settled]; rfl
  have shown (k : Kind) (fault : k.isError = true) :
      (Setup.root c).rangesOf k 0 = Tree.rangesOfAll k 0 (forest last.stack) := by
    have other : Kind.sourceFile ≠ k := by
      rintro rfl
      cases fault
    have blanks := rangesOfAll_flush fault placed
    rw [Setup.root, Tree.rangesOf_node_ne other]
    rw [settled] at blanks ⊢
    exact blanks
  have perm : (Setup.report c).Perm last.diagnostics := reported ▸ report_perm c
  obtain ⟨runs, errors, fill, _⟩ := accounted.errors
  have inside (e : Diagnostic) (member : e ∈ Setup.report c) :=
    accounted.ranges e (perm.subset member)
  have bound : last.cursor ≤ text.utf8ByteSize := (moves_placed start moves).cursor_le
  refine ⟨report_sorted c, fun e member => ?_, ?_, fun e member => (inside e member).2.2,
    ⟨runs, ?_, ?_⟩⟩
  · exact ⟨(inside e member).1, (inside e member).2.1.trans bound⟩
  · change ((Setup.root c).rangesOf .missing 0).Perm _
    rw [shown _ rfl]
    exact accounted.missing.trans (rangesOf_perm perm.symm _)
  · change ((Setup.root c).rangesOf .error 0).Perm _
    rw [shown _ rfl]
    exact errors.trans ((rangesOf_perm perm.symm _).append_right _)
  · constructor
    · intro r member
      obtain ⟨e, reported, starts⟩ := fill.starts r member
      exact ⟨e, perm.symm.subset reported, starts⟩
    · exact fun e member => fill.inside e (perm.subset member)

theorem sound_of_run {tokens : List Token} {fuel : Nat} (spares : s.table.SparesRepairs)
    (old : ∀ r, s.reuse = some r → r.Sound) (h : s.run fuel (.initial tokens) = .ok c) :
    (Setup.root c).Sound := by
  obtain ⟨last, moves, final⟩ := run_cases h
  have honest := moves_honest spares old (honest_initial tokens) moves
  have settled : c = last.settle := by cases final <;> rfl
  subst settled
  exact sound_root (honest.of_subset (List.Subset.refl _))

end Setup

theorem Parser.tallies_of_runOn {g : Grammar} {p : Parser} (names : g.NamesNodes)
    (built : Table.build g = .ok p.language.table) {reuse : Option Reuse}
    (old : ∀ r, reuse = some r → r.Sound) {text : String} {d : Document}
    (h : p.runOn text (Token.readAll text) reuse = .ok d) : d.root.Sound ∧ d.Tallies := by
  have spares := names.sparesRepairs (Table.build_ok built)
  unfold runOn at h
  dsimp only at h
  cases ran : (p.setup reuse).run ((p.setup reuse).stepBound (Token.readAll text).length)
      (.initial (Token.readAll text)) with
  | error f => rw [ran] at h; cases h
  | ok c =>
    rw [ran] at h
    obtain rfl := Except.ok.inj h
    exact ⟨Setup.sound_of_run spares old ran,
      Setup.tallies_of_run spares old (Token.abreast_readAll text) ran _⟩

theorem Reuse.sound_ofDocument {old : Document} {map : EditMap} (sound : old.root.Sound) :
    (ofDocument old map).Sound := by
  intro n member
  have placed := (List.mem_filter.1 member).1
  exact fun u inside => sound u (Tree.nodes_of_placedNodes placed inside)

theorem Parsed.tallies {g : Grammar} (names : g.NamesNodes) {text : String} {d : Document}
    (h : Parsed (fun l => Table.build g = .ok l.table) text d) : d.root.Sound ∧ d.Tallies := by
  induction h with
  | parse known parsed => exact Parser.tallies_of_runOn names known (by simp) parsed
  | reparse known before changed parsed ih =>
    have tokenized := (before.mono fun _ known => ⟨g, known⟩).isTokenized
    rcases Parser.runOn_readAll_of_reparse tokenized changed parsed with run | ⟨map, run⟩
    · exact Parser.tallies_of_runOn names known (by simp) run
    · refine Parser.tallies_of_runOn names known ?_ run
      rintro r ⟨⟩
      exact Reuse.sound_ofDocument ih.1
  | number next _ ih => exact ⟨Tree.sound_numberFrom next ih.1, ih.2.numbered next⟩

end ShaderTree
