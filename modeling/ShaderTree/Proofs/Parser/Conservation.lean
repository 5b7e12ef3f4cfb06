import Mathlib.Data.Option.Basic
import ShaderTree.Proofs.Parser.Moves
import ShaderTree.Proofs.Token.Layout

/-! No move loses, doubles or reorders text: the leaves on the stack, the tokens set aside and those
not read yet are the same tokens throughout a run. -/
namespace ShaderTree

open Token (Label label hasText)

namespace Reuse

variable {r : Reuse} {gotoKind : Kind → Option Nat} {top : Nat} {tokens : List Token}
  {found : Reusable}

/-- What is known of an old node that is taken over. -/
structure Fits (r : Reuse) (gotoKind : Kind → Option Nat) (top : Nat) (tokens : List Token)
    (found : Reusable) (record : Record) : Prop where
  known : ∃ start, (start, found.node) ∈ r.nodes
  recorded : found.node.record? = some record
  state : record.state = top
  next : gotoKind found.node.kind = some found.next
  leaves : (tokens.take found.count).map label = found.node.leaves
  count : found.count = found.node.leaves.length
  follow : followKind (tokens.drop found.count) = record.follow

theorem check?_some {candidate : Nat × Tree}
    (h : r.check? gotoKind top tokens candidate = some found) (known : candidate ∈ r.nodes) :
    ∃ record, Fits r gotoKind top tokens found record := by
  obtain ⟨start, node⟩ := candidate
  simp only [check?, Option.bind_eq_bind, Option.bind_eq_some_iff, Option.guard_eq_some',
    Option.pure_def, Option.some.injEq] at h
  obtain ⟨record, recorded, _, state, next, goesTo, _, _, _, leaves, _, follow, rfl⟩ := h
  exact ⟨record, ⟨start, known⟩, recorded, state, goesTo, of_decide_eq_true leaves, rfl, follow⟩

theorem find?_some (h : r.find? gotoKind top tokens = .ok (some found)) :
    ∃ record, Fits r gotoKind top tokens found record := by
  cases tokens with
  | nil => cases h
  | cons t ts =>
    unfold find? at h
    obtain ⟨nodes, candidates, h⟩ := bind_eq_ok.1 h
    obtain ⟨candidate, member, fits⟩ := List.exists_of_findSome?_eq_some (Except.ok.inj h)
    apply check?_some fits
    unfold Reuse.candidates at candidates
    obtain ⟨origin, _, candidates⟩ := bind_eq_ok.1 candidates
    split at candidates
    · obtain rfl := Except.ok.inj candidates
      cases member
    · split at candidates
      · cases candidates
      · obtain rfl := Except.ok.inj candidates
        exact (List.mem_filter.1 member).1

end Reuse

namespace Config

/-- Leaves of the entries of a stack, in the order of the text. -/
def word (stack : List Entry) : List Label :=
  stack.reverse.flatMap fun e => Tree.leavesAll e.children

@[simp] theorem word_nil : word [] = [] := rfl

@[simp] theorem word_cons (e : Entry) (stack : List Entry) :
    word (e :: stack) = word stack ++ Tree.leavesAll e.children := by
  simp [word]

@[simp] theorem word_append (upper lower : List Entry) :
    word (upper ++ lower) = word lower ++ word upper := by
  simp [word]

@[simp] theorem leavesAll_trees (e : Entry) : Tree.leavesAll e.trees = Tree.leavesAll e.children := by
  unfold Entry.trees
  split
  · simp [Tree.leavesAll, Tree.leaves]
  · rfl

theorem leavesAll_flatMap_trees (entries : List Entry) :
    Tree.leavesAll (entries.flatMap Entry.trees) = word entries.reverse := by
  induction entries with
  | nil => rfl
  | cons e es ih =>
    rw [List.flatMap_cons, Tree.leavesAll_append, ih, leavesAll_trees, List.reverse_cons,
      word_append, word_cons, word_nil, List.nil_append]

theorem word_map_state (state : Nat) (entries : List Entry) :
    word (entries.map fun e => { e with state := state }) = word entries := by
  induction entries with
  | nil => rfl
  | cons e es ih => rw [List.map_cons, word_cons, word_cons, ih]

theorem leavesAll_map_leaf (tokens : List Token) :
    Tree.leavesAll (tokens.map leaf) = tokens.map label := by
  induction tokens with
  | nil => rfl
  | cons t ts ih => simp [Tree.leavesAll, Tree.leaves, leaf, label, ih]

@[simp] theorem word_extras (state : Nat) (tokens : List Token) :
    word (extras state tokens) = tokens.map label := by
  induction tokens with
  | nil => rfl
  | cons t ts ih =>
    have split : extras state (t :: ts) = extras state ts ++ extras state [t] := by simp [extras]
    rw [split, word_append, ih]
    simp [extras, Tree.leavesAll, Tree.leaves, leaf, label]

/-- Leaves with text on the stack, then the tokens to come. -/
def output (c : Config) : List Label :=
  (word c.stack ++ (c.pending ++ c.rest).map label).filter hasText

@[simp] theorem output_settle (c : Config) : c.settle.output = c.output := by
  rw [output, output, pending_append_rest_settle, stack_settle]

@[simp] theorem output_flush (c : Config) : c.flush.output = c.output := by
  rw [flush_eq]
  simp [output]

@[simp] theorem pending_flush (c : Config) : c.flush.pending = [] := rfl

@[simp] theorem rest_flush (c : Config) : c.flush.rest = c.rest := by rw [flush_eq]

/-- A token that goes from the front of the rest to the stack. -/
theorem output_eq_of_flushed {c c' : Config} (pending : c'.pending = [])
    (moved : word c'.stack ++ c'.rest.map label = word c.flush.stack ++ c.rest.map label) :
    c'.output = c.output := by
  rw [← output_flush c, output, output, pending, pending_flush, rest_flush, List.nil_append,
    List.nil_append, moved]

end Config

namespace Setup

open Config

variable {s : Setup} {c c' : Config}

theorem leavesAll_made (r : Reduction) (popped : List Entry) (state : Nat) (k : Kind) :
    Tree.leavesAll (made r popped state k) = word popped.reverse := by
  unfold made
  split
  · exact leavesAll_flatMap_trees popped
  · simp [Tree.leavesAll, Tree.leaves, leavesAll_flatMap_trees]

theorem output_reduce {p : Nat} {k : Kind} (h : s.reduce c p k = .ok c') :
    c'.output = c.output := by
  obtain ⟨r, trailing, popped, below, next, _, trailingIs, split, _, rfl⟩ := reduce_ok h
  have whole : c.stack = trailing ++ (popped.reverse ++ below) := by
    have parts := pop_split r.length (c.stack.dropWhile (!·.isSymbol))
    rw [split] at parts
    rw [parts, trailingIs, List.takeWhile_append_dropWhile]
  rw [output, output, whole, word_append, word_cons, word_map_state, leavesAll_made, word_append,
    word_append]

theorem output_shift {next : Nat} (h : Setup.shift c next = .ok c') : c'.output = c.output := by
  obtain ⟨t, rest, front, rfl⟩ := shift_ok h
  apply output_eq_of_flushed rfl
  simp [front, Tree.leavesAll, Tree.leaves, leaf, label]

theorem output_takeOver {found : Reusable} {record : Record} {r : Reuse}
    {gotoKind : Kind → Option Nat} {top : Nat} (fits : r.Fits gotoKind top c.rest found record) :
    (Setup.takeOver c found).output = c.output := by
  apply output_eq_of_flushed rfl
  have whole := List.take_append_drop found.count c.rest
  simp only [Setup.takeOver, rest_flush, word_cons, Tree.leavesAll, List.append_nil]
  rw [← fits.leaves, List.append_assoc, ← List.map_append, whole]

theorem output_pushMissing (k : Kind) (next : Nat) :
    (endInsertion (pushMissing c k next)).output = c.output := by
  simp [output, endInsertion, pushMissing, Tree.leavesAll, Tree.leaves, hasText]

theorem pushSkipped_word (t : Token) :
    (pushSkipped c t).1.pending = [] ∧ (pushSkipped c t).1.rest = c.rest ∧
      word (pushSkipped c t).1.stack = word c.flush.stack ++ [label t] := by
  unfold pushSkipped
  split
  · rename_i state damaged offset children below _ stack
    simp [flush_eq, stack, leavesAll_map_leaf, Tree.leavesAll, Tree.leaves, leaf, label]
  · simp [Tree.leavesAll, Tree.leaves, leaf, label]

theorem output_skip (h : s.skip c = .ok c') : c'.output = c.output := by
  obtain ⟨t, rest, front, rfl⟩ := skip_ok h
  obtain ⟨pending, _, moved⟩ := pushSkipped_word (c := c) t
  refine output_eq_of_flushed ?_ ?_
  · exact pending
  · dsimp only
    rw [moved, front, List.map_cons, List.append_assoc]
    rfl

theorem output_wrap (depth : Nat) (k : Kind) : (Setup.wrap c depth k).output = c.output := by
  have split := pop_split depth c.stack
  simp only [Setup.wrap]
  generalize Config.pop depth c.stack = parts at split
  obtain ⟨popped, below⟩ := parts
  simp only [output, word_cons, Tree.leavesAll, Tree.leaves, leavesAll_flatMap_trees,
    List.append_nil]
  rw [← split, word_append]

theorem Move.output_eq (move : Move s c c') : c'.output = c.output := by
  cases move with
  | insertReduce _ _ reduced => exact output_reduce reduced
  | insertShift => exact output_pushMissing _ _
  | insertStop => rfl
  | reduce _ _ _ reduced => rw [output_reduce reduced, output_settle]
  | shift _ _ _ shifted => rw [output_shift shifted, output_settle]
  | takeOver _ _ _ _ finds =>
    obtain ⟨record, fits⟩ := Reuse.find?_some finds
    rw [output_takeOver fits, output_settle]
  | insert => exact output_settle c
  | wrap => rw [output_wrap, output_settle]
  | skip _ _ _ _ _ skipped => rw [output_skip skipped, output_settle]

theorem moves_output_eq (moves : Relation.ReflTransGen (Move s) c c') : c'.output = c.output := by
  induction moves with
  | refl => rfl
  | tail _ move ih => rw [move.output_eq, ih]

/-- The leaves of the root of a parse that read everything. -/
theorem leaves_root (c : Config) : (Setup.root c).leaves = word c.stack ++ c.pending.map label := by
  rw [Setup.root, Tree.leaves, leavesAll_flatMap_trees, List.reverse_reverse, flush_eq]
  simp

end Setup

end ShaderTree
