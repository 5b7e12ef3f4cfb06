import ShaderTree.Proofs.Json.RoundTrip
import ShaderTree.Proofs.Table.Landing
import ShaderTree.Table.Artifact

/-! Written tables are read back as they are, so that a language made from a grammar survives being
written, whatever the names of its nonterminals are made of. -/
namespace ShaderTree

namespace Kind

theorem mem_all (k : Kind) : k ∈ all := by
  have bound : k.index < count := by cases k <;> decide
  refine List.mem_filterMap.2 ⟨k.index, List.mem_range.2 bound, ?_⟩
  rw [ofIndex?, if_pos bound]
  exact congrArg some (Kind.ofNat_ctorIdx k)

set_option maxRecDepth 20000 in
/-- No two kinds have one label. -/
theorem ofLabel?_label (k : Kind) : ofLabel? k.label = some k := by
  have each : ∀ k ∈ all, ofLabel? k.label = some k := by decide
  exact each k (mem_all k)

end Kind

/-- The numbers of a table fit the places that they are written to. -/
structure Table.FitsWords (t : Table) : Prop where
  states : t.stateCount < 2 ^ 32
  nonterminals : t.nonterminalCount < 2 ^ 16
  productions : t.reductions.size < 2 ^ 32
  lengths : ∀ r ∈ t.reductions.toList, r.length < 2 ^ 16

namespace Artifact

/-! Each part is read back, if its numbers fit their places -/

theorem word?_natural {bits n : Nat} (fits : n < 2 ^ bits) : word? bits (.natural n) = some n := by
  have fits' : n < Nat.pow 2 bits := fits
  unfold word?
  simp only [JsonValue.natural?, Option.bind_eq_bind, Option.bind_some, guard, if_pos fits',
    Option.pure_def]

/-- The numbers of an action fit their places. -/
def ActionFits : Action → Prop
  | .shift n => n < 2 ^ 32
  | .reduce p => p < 2 ^ 32
  | .error | .accept => True

theorem action?_actionJson {a : Action} (fits : ActionFits a) : action? (actionJson a) = some a := by
  cases a with
  | error => rfl
  | accept => rfl
  | shift n => simp [action?, actionJson, choice?, word?_natural fits]
  | reduce p => simp [action?, actionJson, choice?, word?_natural fits]

theorem list?_map {α : Type} {read : JsonValue → Option α} {write : α → JsonValue} {xs : List α}
    (each : ∀ x ∈ xs, read (write x) = some x) : list? read (.array (xs.map write)) = some xs := by
  unfold list?
  simp only [JsonValue.array?, Option.bind_some]
  induction xs with
  | nil => rfl
  | cons x xs ih =>
    rw [List.map_cons, List.mapM_cons, each x (.head _), ih fun y inside => each y (.tail _ inside)]
    rfl

theorem option?_natural {n? : Option Nat} (fits : ∀ n ∈ n?, n < 2 ^ 32) :
    option? (word? 32) (optionJson .natural n?) = some n? := by
  cases n? with
  | none => rfl
  | some n =>
    change (word? 32 (.natural n)).map some = some (some n)
    rw [word?_natural (fits n rfl), Option.map_some]

theorem option?_kind (k? : Option Kind) :
    option? kind? (optionJson (fun k => .string k.label) k?) = some k? := by
  cases k? with
  | none => rfl
  | some k =>
    change (Kind.ofLabel? k.label).map some = some (some k)
    rw [Kind.ofLabel?_label, Option.map_some]

theorem reduction?_reductionJson {r : Reduction} (lhs : r.lhs < 2 ^ 16) (length : r.length < 2 ^ 16) :
    reduction? (reductionJson r) = some r := by
  have members : fields? ["lhs", "len", "node"] (reductionJson r) =
      some [some (.natural r.lhs), some (.natural r.length),
        some (optionJson (fun k => .string k.label) r.node?)] := by
    simp [reductionJson, fields?]
  unfold reduction?
  simp only [members, Option.bind_eq_bind, Option.bind_some, word?_natural lhs, word?_natural length,
    Option.getD_some, option?_kind, Option.pure_def]

theorem fields?_toJson (a : Artifact) : fields? memberNames a.toJson =
    some [some (.natural a.version), some (.natural a.kindCount), some (.natural a.stateCount),
      some (.natural a.nonterminalCount), some (.array (a.actions.map actionJson)),
      some (.array (a.gotos.map (optionJson .natural))),
      some (.array (a.reductions.map reductionJson)),
      some (.array (a.nonterminalNames.map .string))] := by
  simp [toJson, fields?, memberNames]

/-- The numbers of a written table fit their places. -/
structure Fits (a : Artifact) : Prop where
  version : a.version < 2 ^ 32
  kindCount : a.kindCount < 2 ^ 16
  stateCount : a.stateCount < 2 ^ 32
  nonterminalCount : a.nonterminalCount < 2 ^ 16
  actions : ∀ action ∈ a.actions, ActionFits action
  gotos : ∀ goto ∈ a.gotos, ∀ n ∈ goto, n < 2 ^ 32
  reductions : ∀ r ∈ a.reductions, r.lhs < 2 ^ 16 ∧ r.length < 2 ^ 16

/-- What is written is read back member by member. -/
theorem ofJson?_toJson {a : Artifact} (fits : a.Fits) : ofJson? a.toJson = some a := by
  have actions := list?_map fun x inside => action?_actionJson (fits.actions x inside)
  have gotos := list?_map fun x inside => option?_natural (fits.gotos x inside)
  have reductions := list?_map fun x inside =>
    reduction?_reductionJson (fits.reductions x inside).1 (fits.reductions x inside).2
  have names : list? JsonValue.string? (.array (a.nonterminalNames.map .string)) =
      some a.nonterminalNames := list?_map fun _ _ => rfl
  unfold ofJson?
  simp only [fields?_toJson, Option.bind_eq_bind, Option.bind_some, word?_natural fits.version,
    word?_natural fits.kindCount, word?_natural fits.stateCount,
    word?_natural fits.nonterminalCount, actions, gotos, reductions, names, Option.pure_def]

/-! JSON values of tables have no other numbers -/

theorem arePlain_map {α : Type} {write : α → JsonValue} (plain : ∀ x, (write x).isPlain = true)
    (xs : List α) : JsonValue.arePlain (xs.map write) = true := by
  induction xs with
  | nil => rfl
  | cons x xs ih => rw [List.map_cons, JsonValue.arePlain, plain x, ih, Bool.true_and]

theorem isPlain_optionJson {α : Type} {write : α → JsonValue}
    (plain : ∀ x, (write x).isPlain = true) (x? : Option α) : (optionJson write x?).isPlain = true := by
  cases x? with
  | none => rfl
  | some x => exact plain x

theorem isPlain_actionJson (a : Action) : (actionJson a).isPlain = true := by
  cases a <;> rfl

theorem isPlain_reductionJson (r : Reduction) : (reductionJson r).isPlain = true := by
  have node : (optionJson (fun k : Kind => .string k.label) r.node?).isPlain = true :=
    isPlain_optionJson (fun _ => rfl) r.node?
  simp [reductionJson, JsonValue.isPlain, JsonValue.memberPlain, node]

theorem isPlain_toJson (a : Artifact) : a.toJson.isPlain = true := by
  have gotos : JsonValue.arePlain (a.gotos.map (optionJson .natural)) = true :=
    arePlain_map (isPlain_optionJson fun _ => rfl) a.gotos
  have names : JsonValue.arePlain (a.nonterminalNames.map .string) = true :=
    arePlain_map (fun _ => rfl) a.nonterminalNames
  simp [toJson, JsonValue.isPlain, JsonValue.memberPlain, arePlain_map isPlain_actionJson,
    arePlain_map isPlain_reductionJson, gotos, names]

/-! Rows -/

/-- Pieces of one length that were joined are cut apart again. -/
theorem pieces_flatMap {α β : Type} {f : α → List β} {length : Nat} {xs : List α}
    (each : ∀ x ∈ xs, (f x).length = length) : pieces length xs.length (xs.flatMap f) = xs.map f := by
  induction xs with
  | nil => rfl
  | cons x xs ih =>
    have own := each x (.head _)
    rw [List.flatMap_cons, List.length_cons, pieces, List.map_cons, ← own, List.take_left,
      List.drop_left, own, ih fun y inside => each y (.tail _ inside)]

theorem length_flatMap_of_forall {α β : Type} {f : α → List β} {length : Nat} {xs : List α}
    (each : ∀ x ∈ xs, (f x).length = length) : (xs.flatMap f).length = xs.length * length := by
  induction xs with
  | nil => simp
  | cons x xs ih =>
    rw [List.flatMap_cons, List.length_append, each x (.head _),
      ih fun y inside => each y (.tail _ inside), List.length_cons, Nat.add_one_mul, Nat.add_comm]

theorem toTable?_ofTable {t : Table} (formed : t.WellFormed) :
    (ofTable t).toTable? = some t := by
  have fits (row : Row) (member : row ∈ t.rows.toList) :
      row.actions.toList.length = Kind.terminalCount ∧
        row.gotos.toList.length = t.nonterminalCount := by
    obtain ⟨state, found⟩ := Array.mem_iff_getElem?.1 (Array.mem_toList_iff.1 member)
    obtain ⟨actions, gotos, _⟩ := formed.fitsRow found
    exact ⟨actions, gotos⟩
  have actions := fun row member => (fits row member).1
  have gotos := fun row member => (fits row member).2
  have rows : (t.rows.toList.map fun row => row.actions.toList).zip
      (t.rows.toList.map fun row => row.gotos.toList) =
        t.rows.toList.map fun row => (row.actions.toList, row.gotos.toList) := by
    rw [List.zip_map']
  have actions' := pieces_flatMap actions
  have gotos' := pieces_flatMap gotos
  rw [Array.length_toList] at actions' gotos'
  unfold toTable? ofTable
  simp only [length_flatMap_of_forall actions, length_flatMap_of_forall gotos, guard,
    Array.length_toList, Table.stateCount, Table.nonterminalCount, if_true, Option.pure_def,
    Option.bind_eq_bind, Option.bind_some]
  rw [actions', show t.nonterminalNames.size = t.nonterminalCount from rfl, gotos', rows]
  simp [Function.comp_def]

theorem kinds_of_compatible {t : Table} (compatible : t.checkCompatible = .ok ()) :
    t.version ≤ Table.currentVersion ∧ t.kindCount = Kind.count := by
  have kinds : Table.checkKinds t.version t.kindCount = .ok () := by
    unfold Table.checkCompatible at compatible
    cases kinds : Table.checkKinds t.version t.kindCount with
    | error e => rw [kinds] at compatible; cases compatible
    | ok u => rfl
  unfold Table.checkKinds at kinds
  by_cases old : t.version < Table.oldestVersion ∨ Table.currentVersion < t.version
  · rw [if_pos old] at kinds
    cases kinds
  · by_cases other : t.kindCount ≠ Kind.count
    · rw [if_neg old, if_pos other] at kinds
      cases kinds
    · exact ⟨Nat.not_lt.1 fun newer => old (.inr newer), not_not.1 other⟩

theorem fits_ofTable {t : Table} (compatible : t.checkCompatible = .ok ()) (words : t.FitsWords) :
    (ofTable t).Fits := by
  have formed := Table.wellFormed_of_compatible compatible
  obtain ⟨version, kinds⟩ := kinds_of_compatible compatible
  have inside {row : Row} (member : row ∈ t.rows.toList) : ∃ state, t.rows[state]? = some row :=
    Array.mem_iff_getElem?.1 (Array.mem_toList_iff.1 member)
  have few : t.kindCount < 2 ^ 16 := kinds ▸ (by decide : Kind.count < 2 ^ 16)
  refine ⟨Nat.lt_of_le_of_lt version (by decide), few, words.states, words.nonterminals, ?_, ?_, ?_⟩
  · intro action member
    obtain ⟨row, there, here⟩ := List.mem_flatMap.1 member
    obtain ⟨state, found⟩ := inside there
    have fits := (formed.fitsRow found).2.2.1 action (Array.mem_toList_iff.1 here)
    cases action with
    | error => trivial
    | accept => trivial
    | shift next => exact Nat.lt_trans (of_decide_eq_true fits) words.states
    | reduce p => exact Nat.lt_trans (of_decide_eq_true fits) words.productions
  · rintro goto member n ⟨⟩
    obtain ⟨row, there, here⟩ := List.mem_flatMap.1 member
    obtain ⟨state, found⟩ := inside there
    have fits := (formed.fitsRow found).2.2.2 _ (Array.mem_toList_iff.1 here)
    exact Nat.lt_trans (of_decide_eq_true fits) words.states
  · intro r member
    exact ⟨Nat.lt_trans (formed.lhs r member) words.nonterminals, words.lengths r member⟩

end Artifact

/-- The counts of a built table fit their places, as far as its states do. -/
theorem Table.fitsWords_of_build {g : Grammar} {t : Table} (built : Table.build g = .ok t)
    (states : t.stateCount < 2 ^ 32) : t.FitsWords := by
  have parts := build_ok built
  have words := parts.words
  simp only [fitsWords, Bool.and_eq_true, decide_eq_true_eq, List.all_eq_true] at words
  obtain ⟨⟨nonterminals, productions⟩, lengths⟩ := words
  refine ⟨states, ?_, ?_, fun r member => ?_⟩
  · rwa [nonterminalCount, parts.names, Array.size_map]
  · rwa [parts.reductions, reductionsOf, Array.size_map]
  · rw [parts.reductions, reductionsOf, Array.toList_map] at member
    obtain ⟨production, inside, rfl⟩ := List.mem_map.1 member
    exact lengths production inside

namespace Language

/-- A compatible table is read back as it was written. -/
theorem ofArtifact_of_compatible {l : Language} (compatible : l.table.checkCompatible = .ok ())
    (words : l.table.FitsWords) (name : String) (identity : Nat) :
    ofArtifact name identity l.toArtifact = .ok ⟨name, l.table, identity⟩ := by
  have parsed : JsonValue.parse? l.toArtifact = some (Artifact.ofTable l.table).toJson :=
    JsonValue.parse?_render _ (Artifact.isPlain_toJson _)
  have read := Artifact.ofJson?_toJson (Artifact.fits_ofTable compatible words)
  have table := Artifact.toTable?_ofTable (Table.wellFormed_of_compatible compatible)
  unfold ofArtifact
  rw [parsed, Option.bind_some, read]
  simp only [table, compatible]
  rfl

/-- A parse depends on the table alone, but for the identity that the tree keeps. -/
theorem parse_eq_map (l : Language) (name : String) (identity : Nat) (options : Options)
    (text : String) : (Parser.mk ⟨name, l.table, identity⟩ options).parse text =
      ((Parser.mk l options).parse text).map fun d => { d with table := identity } := by
  unfold Parser.parse Parser.parseTokens Parser.runOn
  dsimp only
  have setup : (Parser.mk ⟨name, l.table, identity⟩ options).setup none =
      (Parser.mk l options).setup none := rfl
  rw [setup]
  cases ran : ((Parser.mk l options).setup none).run
      (((Parser.mk l options).setup none).stepBound (Token.readAll text).length)
      (.initial (Token.readAll text)) with
  | error f => rfl
  | ok c => rfl

/-- The round trip of a language: what is written of a language made from a grammar, with its states
numbered in 32 bits, is read as a language with the same table, and the two give the same trees for every
text, but for the identity of the table that the trees are made with. -/
theorem ofArtifact_toArtifact {g : Grammar} {l : Language} {made : Nat} {named : String}
    (from_ : Language.ofGrammar named made g = .ok l) (declared : g.Declared)
    (states : l.table.stateCount < 2 ^ 32) (name : String) (identity : Nat) :
    ∃ l', ofArtifact name identity l.toArtifact = .ok l' ∧ l'.name = name ∧ l'.table = l.table ∧
      ∀ options text, (Parser.mk l' options).parse text =
        ((Parser.mk l options).parse text).map fun d => { d with table := identity } := by
  have built := build_of_ofGrammar from_
  have compatible := Table.checkCompatible_of_build built declared
  have words := Table.fitsWords_of_build built states
  exact ⟨⟨name, l.table, identity⟩, ofArtifact_of_compatible compatible words name identity, rfl,
    rfl, parse_eq_map l name identity⟩

end Language

/-! A grammar whose names need all sorts of escapes -/

def Grammar.oddNames : Grammar :=
  { nonterminals := #[.hidden "\"list\" \\ \n\t", .hidden "\x01\x1f \u00e9\u2028"]
    levels := #[]
    productions := #[⟨0, [], none⟩, ⟨0, [.nonterminal 0, .nonterminal 1], none⟩,
      ⟨1, [.terminal .semicolon], none⟩]
    start := 0 }

theorem Language.ofArtifact_toArtifact_oddNames : ∃ l l', Language.ofGrammar "odd" 1 .oddNames = .ok l ∧
    l.table.stateCount < 2 ^ 32 ∧ Language.ofArtifact "read" 2 l.toArtifact = .ok l' ∧
      l'.table = l.table := by
  obtain ⟨t, built, states⟩ := Table.exists_built (g := .oddNames)
    (P := fun t => t.stateCount < 2 ^ 32) (by with_unfolding_all decide)
  have made : Language.ofGrammar "odd" 1 .oddNames = .ok ⟨"odd", t, 1⟩ := by
    unfold Language.ofGrammar
    rw [built]
    rfl
  have declared : Grammar.oddNames.Declared := ⟨by decide, by decide, by decide⟩
  obtain ⟨l', read, _, same, _⟩ := ofArtifact_toArtifact made declared states "read" 2
  exact ⟨_, l', made, states, read, same⟩

end ShaderTree
