import ShaderTree.Proofs.Parser.Mirrored
import ShaderTree.Proofs.Parser.Repairs
import ShaderTree.Proofs.Parser.Tight

/-! Two parses side by side: one of a list of tokens, the other of the same list without its blanks and
comments. What the machine looks at is the same in both, so it does the same in both: the states of
the symbols, the next token that is no blank, the kinds behind it, the repairs so far, and the
delimiters that are open. Only places differ, and each comes from its like by closing up the text. -/
namespace ShaderTree

open ShaderTree.Tree (gist plainAll)
open Token (Label label chars hasText unspaced closeUp)

namespace Config

variable {c c' : Config} {labels : List Label} {stack stack' : List Entry} {stop stop' : Nat}

/-! Places -/

/-- The text on a stack is where the text with the given labels starts. -/
def Lays (labels : List Label) (stack : List Entry) : Prop := (word stack).filter hasText <+: labels

theorem Lays.below {e : Entry} (lays : Lays labels (e :: stack)) : Lays labels stack := by
  unfold Lays at lays
  rw [word_cons, List.filter_append] at lays
  exact (List.prefix_append _ _).trans lays

theorem lays_of_output (output : c.output = labels) : Lays labels c.stack := by
  rw [output.symm, Config.output, Lays, List.filter_append]
  exact List.prefix_append _ _

theorem extent_eq (stack : List Entry) : extent stack = Text.size (chars (word stack)) := by
  rw [extent, Tree.sizeAll_eq, forest, leavesAll_flatMap_trees, List.reverse_reverse]

theorem closeUp_extent (texts : ∀ l ∈ labels, hasText l = true) (lays : Lays labels stack)
    (mirrored : Mirrored stack stack') : closeUp labels (extent stack) = extent stack' := by
  obtain ⟨rest, rfl⟩ := lays
  have some : ∀ l ∈ (word stack).filter hasText, hasText l = true := fun l member =>
    (List.mem_filter.1 member).2
  rw [extent_eq, ← Token.chars_filter_hasText, Token.closeUp_size some, extent_eq, mirrored.word_eq,
    ← Token.filter_hasText_unspaced, Token.chars_filter_hasText]

/-! Open delimiters -/

theorem openDelimiterIn_of_ne {e : Entry} (other : ∀ k text, e.children ≠ [.leaf k text])
    (closed : Nat) (below : List Entry) :
    openDelimiterIn closed (e :: below) = openDelimiterIn closed below := by
  rw [openDelimiterIn]
  split
  · rename_i k text is
    exact absurd is (other k text)
  · rfl

theorem openDelimiterIn_extra {e : Entry} (extra : e.isSymbol = false) (closed : Nat)
    (below : List Entry) : openDelimiterIn closed (e :: below) = openDelimiterIn closed below := by
  rw [openDelimiterIn]
  split
  · rw [extra]
    rfl
  · rfl

theorem openDelimiterIn_blank {e : Entry} {k : Kind} {text : String}
    (children : e.children = [.leaf k text]) (blank : k.isTrivia = true) (closed : Nat)
    (below : List Entry) : openDelimiterIn closed (e :: below) = openDelimiterIn closed below := by
  have cases : k = .whitespace ∨ k = .lineComment ∨ k = .blockComment ∨ k = .preprocessor := by
    unfold Kind.isTrivia at blank
    split at blank <;> simp_all
  rw [openDelimiterIn, children]
  rcases cases with rfl | rfl | rfl | rfl <;> simp [Enclosure.openedBy?]

theorem eq_leaf_of_plainAll {ts : List Tree} {k : Kind} {text : String}
    (plain : plainAll ts = [.leaf k text]) : ts = [.leaf k text] := by
  cases ts with
  | nil => cases plain
  | cons t ts =>
    obtain ⟨first, others⟩ := List.cons.inj plain
    cases t with
    | node => cases first
    | leaf l own =>
      cases ts with
      | nil =>
        obtain ⟨rfl, rfl⟩ := Tree.leaf.inj first
        rfl
      | cons => cases others

/-- The same word on both stacks, at places that answer to each other. -/
theorem openDelimiterIn_word {e e' : Entry} {k : Kind} {text : String} {place : Nat → Nat}
    {below below' : List Entry} (role : e'.isSymbol = e.isSymbol) (is : e.children = [.leaf k text])
    (is' : e'.children = [.leaf k text]) (start : e'.offset = place e.offset)
    (stop : place e.offset + text.utf8ByteSize = place (e.offset + text.utf8ByteSize))
    (inner : ∀ closed, openDelimiterIn closed below' =
      (openDelimiterIn closed below).map fun opened => (opened.1, opened.2.moved place))
    (closed : Nat) : openDelimiterIn closed (e' :: below') =
      (openDelimiterIn closed (e :: below)).map fun opened => (opened.1, opened.2.moved place) := by
  simp only [openDelimiterIn, is, is', role]
  split
  · exact inner _
  · split
    · exact inner _
    · split
      · exact inner _
      · rename_i enclosure _
        by_cases few : enclosure.closerCount ≤ closed
        · simp only [few, if_true]
          exact inner _
        · simp only [few, if_false, Option.map_some, ByteRange.moved, start, stop]

/-- An entry that shows no word opens nothing. -/
theorem openDelimiterIn_wordless {e : Entry}
    (wordless : ∀ k text, e.children = [.leaf k text] → k.isTrivia = true) (closed : Nat)
    (below : List Entry) : openDelimiterIn closed (e :: below) = openDelimiterIn closed below := by
  by_cases alone : ∃ k text, e.children = [.leaf k text]
  · obtain ⟨k, text, is⟩ := alone
    exact openDelimiterIn_blank is (wordless k text is) closed below
  · exact openDelimiterIn_of_ne (fun k text is => alone ⟨k, text, is⟩) closed below

/-- Where no word is shown, none is shown without the blanks. -/
theorem ne_leaf_of_wordless {e e' : Entry} (own : e.Tight)
    (wordless : ∀ k text, e.children = [.leaf k text] → k.isTrivia = true)
    (children : plainAll e'.children = gist e.children) (k : Kind) (text : String) :
    e'.children ≠ [.leaf k text] := by
  intro is'
  have alone : gist e.children = [.leaf k text] := by
    rw [← children, is']
    rfl
  have is := own k text alone
  rw [is, Tree.gist_blank (wordless k text is), Tree.gist_nil] at alone
  cases alone

/-- The same delimiter is open on both stacks, at the places that answer to each other. -/
theorem openDelimiterIn_eq (texts : ∀ l ∈ labels, hasText l = true) (lays : Lays labels stack)
    (tight : ∀ e ∈ stack, e.isSymbol = true → e.Tight) (offsets : Offsets stack)
    (offsets' : Offsets stack') (mirrored : Mirrored stack stack') (closed : Nat) :
    openDelimiterIn closed stack' = (openDelimiterIn closed stack).map fun opened =>
      (opened.1, opened.2.moved (closeUp labels)) := by
  induction mirrored generalizing closed with
  | nil => rfl
  | @blank e below below' rest role _ _ _ ih =>
    rw [openDelimiterIn_extra (e := e) (by simp [Entry.isSymbol, role])]
    exact ih lays.below (List.forall_mem_cons.1 tight).2 offsets.2 offsets' closed
  | @entry e e' below below' rest state role damaged children ih =>
    obtain ⟨own, others⟩ := List.forall_mem_cons.1 tight
    have inner := ih lays.below others offsets.2 offsets'.2
    have same := Entry.isSymbol_eq role
    cases symbol : e.isSymbol with
    | false =>
      rw [openDelimiterIn_extra (same.trans symbol), openDelimiterIn_extra symbol]
      exact inner closed
    | true =>
      by_cases shows : ∃ k text, k.isTrivia = false ∧ e.children = [.leaf k text]
      · obtain ⟨k, text, word, is⟩ := shows
        have whole := closeUp_extent texts lays (.entry rest state role damaged children)
        rw [is, Tree.gist_leaf word, Tree.gist_nil] at children
        have is' := eq_leaf_of_plainAll children
        have start : e'.offset = closeUp labels e.offset := by
          rw [offsets.1, offsets'.1, closeUp_extent texts lays.below rest]
        have stop : closeUp labels e.offset + text.utf8ByteSize =
            closeUp labels (e.offset + text.utf8ByteSize) := by
          rw [extent_cons, extent_cons, is, is', ← offsets.1, ← offsets'.1, start] at whole
          simpa [Tree.sizeAll, Tree.size] using whole.symm
        exact openDelimiterIn_word same is is' start stop inner closed
      · have wordless (k : Kind) (text : String) (is : e.children = [.leaf k text]) :
            k.isTrivia = true := by
          by_contra word
          exact shows ⟨k, text, Bool.eq_false_iff.2 word, is⟩
        have wordless' := ne_leaf_of_wordless (own symbol) wordless children
        rw [openDelimiterIn_of_ne wordless' closed, openDelimiterIn_wordless wordless]
        exact inner closed

/-! What the machine looks at -/

/-- What is known of a parse that may read blanks. -/
structure Grounded (g : Grammar) (labels : List Label) (stop : Nat) (c : Config) : Prop where
  placed : c.Placed stop
  output : c.output = labels
  conforms : c.Conforms g
  tight : c.Tight
  accounted : c.Accounted

theorem Grounded.settle {g : Grammar} (grounded : Grounded g labels stop c) :
    Grounded g labels stop c.settle :=
  ⟨grounded.placed.settle, (output_settle c).trans grounded.output, grounded.conforms.settle,
    grounded.tight, grounded.accounted.settle⟩

/-- A parse, and the same parse without blanks. -/
structure Beside (labels : List Label) (c c' : Config) : Prop where
  mirrored : Mirrored c.stack c'.stack
  rest : c'.rest.map label = unspaced (c.rest.map label)
  pending : c'.pending = []
  diagnostics : c'.diagnostics = c.diagnostics.map (Diagnostic.moved (closeUp labels))
  inserted : c'.inserted = c.inserted
  lastSkip : c'.lastSkip = c.lastSkip
  inserting : c'.inserting = c.inserting
  word : ∀ k, c.inserting = some k → k.isTrivia = false

namespace Beside

theorem top_eq (beside : Beside labels c c') : c'.top = c.top := beside.mirrored.topState_eq

theorem states_eq (beside : Beside labels c c') : c'.states = c.states :=
  congrArg (· ++ [0]) beside.mirrored.states_eq

/-- The second parse finds no blanks. -/
theorem settle_eq (beside : Beside labels c c') : c'.settle = c' := by
  have words : ∀ t ∈ c'.rest, ¬ t.kind.isTrivia = true := by
    intro t member
    have inside : label t ∈ unspaced (c.rest.map label) := by
      rw [← beside.rest]
      exact List.mem_map_of_mem member
    simpa [Token.isBlank, label] using (List.mem_filter.1 inside).2
  have none : c'.rest.takeWhile (·.kind.isTrivia) = [] := by
    cases front : c'.rest with
    | nil => rfl
    | cons t ts => exact List.takeWhile_cons_of_neg (words t (by simp [front]))
  have all : c'.rest.dropWhile (·.kind.isTrivia) = c'.rest := by
    have whole := List.takeWhile_append_dropWhile (p := fun t : Token => t.kind.isTrivia) (l := c'.rest)
    rwa [none, List.nil_append] at whole
  unfold settle
  rw [none, all, List.append_nil]

theorem unspaced_dropWhile (tokens : List Token) :
    unspaced ((tokens.dropWhile (·.kind.isTrivia)).map label) = unspaced (tokens.map label) := by
  induction tokens with
  | nil => rfl
  | cons t ts ih =>
    cases blank : t.kind.isTrivia with
    | true =>
      rw [List.dropWhile_cons, if_pos blank, ih, List.map_cons, Token.unspaced_cons_of_blank blank]
    | false => rw [List.dropWhile_cons, if_neg (by simp [blank])]

theorem settle (beside : Beside labels c c') : Beside labels c.settle c' :=
  { beside with rest := beside.rest.trans (unspaced_dropWhile c.rest).symm }

/-- Where the first parse has a token next, the second one has it next. -/
theorem front (beside : Beside labels c c') {t : Token} {rest : List Token} (next : c.rest = t :: rest)
    (word : t.kind.isTrivia = false) : ∃ t' rest', c'.rest = t' :: rest' ∧ label t' = label t ∧
      rest'.map label = unspaced (rest.map label) := by
  have same := beside.rest
  rw [next, List.map_cons, Token.unspaced_cons word] at same
  obtain ⟨t', rest', is, first, others⟩ := List.map_eq_cons_iff.1 same
  exact ⟨t', rest', is, first, others⟩

theorem rest_eq_nil (beside : Beside labels c c') (none : c.rest = []) : c'.rest = [] := by
  have same := beside.rest
  rw [none] at same
  exact List.map_eq_nil_iff.1 same

/-- A parse that has set its blanks aside has a word next, if anything. -/
theorem word_of_settle {t : Token} {rest : List Token} (next : c.settle.rest = t :: rest) :
    t.kind.isTrivia = false := by
  have known := isTrivia_lookahead_settle c
  rwa [lookahead, next] at known

theorem lookahead_eq (beside : Beside labels c c') : c'.lookahead = c.settle.lookahead := by
  cases next : c.settle.rest with
  | nil => rw [lookahead, lookahead, next, beside.settle.rest_eq_nil next]
  | cons t rest =>
    obtain ⟨t', rest', next', same, _⟩ := beside.settle.front next (word_of_settle next)
    rw [lookahead, lookahead, next, next']
    exact congrArg Prod.fst same

theorem kinds_eq (tokens : List Token) :
    (tokens.map (·.kind)).filter (!·.isTrivia) = (unspaced (tokens.map label)).map Prod.fst := by
  induction tokens with
  | nil => rfl
  | cons t ts ih =>
    cases blank : t.kind.isTrivia with
    | true =>
      rw [List.map_cons, List.filter_cons_of_neg (by simp [blank]), ih, List.map_cons,
        Token.unspaced_cons_of_blank blank]
    | false =>
      rw [List.map_cons, List.filter_cons_of_pos (by simp [blank]), ih, List.map_cons,
        Token.unspaced_cons blank]
      rfl

theorem upcoming_eq (beside : Beside labels c c') (window : Nat) :
    c'.upcoming window = c.settle.upcoming window := by
  have same : ((c'.rest.drop 1).map (·.kind)).filter (!·.isTrivia) =
      ((c.settle.rest.drop 1).map (·.kind)).filter (!·.isTrivia) := by
    rw [kinds_eq, kinds_eq]
    cases next : c.settle.rest with
    | nil => rw [beside.settle.rest_eq_nil next]
    | cons t rest =>
      obtain ⟨t', rest', next', _, others⟩ := beside.settle.front next (word_of_settle next)
      rw [next', List.drop_succ_cons, List.drop_zero, List.drop_succ_cons, List.drop_zero, others,
        Token.unspaced_unspaced]
  unfold upcoming
  rw [same]

end Beside

theorem gist_leaf_eq {t t' : Token} (same : label t' = label t) (word : t.kind.isTrivia = false) :
    plainAll [leaf t'] = gist [leaf t] := by
  obtain ⟨kind, text⟩ := Prod.mk.inj same
  rw [leaf, leaf, kind, text, Tree.gist_leaf word, Tree.gist_nil]
  rfl

section Places

variable {g : Grammar} (texts : ∀ l ∈ labels, hasText l = true)
  (grounded : Grounded g labels stop c) (placed' : c'.Placed stop')

include texts grounded placed'

theorem closeUp_cursor (mirrored : Mirrored c.stack c'.stack) :
    closeUp labels c.cursor = c'.cursor := by
  rw [grounded.placed.cursor, placed'.cursor]
  exact closeUp_extent texts (lays_of_output grounded.output) mirrored

theorem openDelimiter_eq (mirrored : Mirrored c.stack c'.stack) :
    c'.openDelimiter? = c.openDelimiter?.map fun opened =>
      (opened.1, opened.2.moved (closeUp labels)) :=
  openDelimiterIn_eq texts (lays_of_output grounded.output) grounded.tight grounded.placed.offsets
    placed'.offsets mirrored 0

theorem enclosure_eq (mirrored : Mirrored c.stack c'.stack) : c'.enclosure = c.enclosure := by
  rw [enclosure, openDelimiter_eq texts grounded placed' mirrored, Option.map_map]
  rfl

/-- The next tokens lie where each other's places come from. -/
theorem range_eq (beside : Beside labels c c') {t t' : Token} {rest rest' : List Token}
    (next : c.rest = t :: rest) (next' : c'.rest = t' :: rest') (same : label t' = label t)
    (word : t.kind.isTrivia = false) : t'.range = t.range.moved (closeUp labels) := by
  have flushed := grounded.placed.flush.1
  have mirrored : Mirrored c.flush.stack c'.stack := by
    rw [flush_eq]
    exact beside.mirrored.extras grounded.conforms.pending rfl
  have output : c.flush.output = labels := (output_flush c).trans grounded.output
  have first := flushed.tokens
  rw [pending_flush, List.nil_append, rest_flush, next] at first
  have first' := placed'.tokens
  rw [beside.pending, List.nil_append, next'] at first'
  have start : t'.start = closeUp labels t.start := by
    rw [first.1, first'.1, flushed.cursor, placed'.cursor]
    exact (closeUp_extent texts (lays_of_output output) mirrored).symm
  have text : t'.text = t.text := congrArg Prod.snd same
  have pushed : Mirrored (⟨0, .symbol, false, t.start, [leaf t]⟩ :: c.flush.stack)
      (⟨0, .symbol, false, t'.start, [leaf t']⟩ :: c'.stack) :=
    .entry mirrored rfl rfl rfl (gist_leaf_eq same word)
  have lays : Lays labels (⟨0, .symbol, false, t.start, [leaf t]⟩ :: c.flush.stack) := by
    have split : Config.word c.flush.stack ++ (t :: rest).map label =
        Config.word (⟨0, .symbol, false, t.start, [leaf t]⟩ :: c.flush.stack) ++ rest.map label := by
      simp [Tree.leavesAll, Tree.leaves, leaf, label]
    rw [← output, Config.output, pending_flush, List.nil_append, rest_flush, next, split, Lays,
      List.filter_append]
    exact List.prefix_append _ _
  have whole := closeUp_extent texts lays pushed
  rw [extent_cons, extent_cons, ← flushed.cursor, ← placed'.cursor, ← first.1, ← first'.1, start]
    at whole
  simp only [leaf, text, Tree.sizeAll, Tree.size, Nat.add_zero] at whole
  simp only [Token.range, Token.stop, ByteRange.moved, start, text, whole]

end Places

end Config

end ShaderTree
