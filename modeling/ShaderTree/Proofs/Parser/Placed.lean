import ShaderTree.Proofs.Parser.Conservation
import ShaderTree.Proofs.Tree.Leaves

/-! Offsets during a parse. Tokens lie side by side, every entry of the stack starts where the text
below it ends, and the cursor stands at the end of the text on the stack; so the offsets in entries,
which repairs report, are those of the nodes in the tree. -/
namespace ShaderTree

open Token (label chars width Abreast)

namespace Config

/-- What stands on a stack, in the order of the text. -/
def forest (stack : List Entry) : List Tree := stack.reverse.flatMap Entry.trees

/-- Bytes of text on a stack. -/
def extent (stack : List Entry) : Nat := Tree.sizeAll (forest stack)

variable {c c' : Config} {e : Entry} {stack upper lower lower' : List Entry} {stop : Nat}

@[simp] theorem forest_cons (e : Entry) (stack : List Entry) :
    forest (e :: stack) = forest stack ++ e.trees := by
  simp [forest]

@[simp] theorem forest_append (upper lower : List Entry) :
    forest (upper ++ lower) = forest lower ++ forest upper := by
  simp [forest]

theorem forest_reverse (entries : List Entry) :
    forest entries.reverse = entries.flatMap Entry.trees := by
  rw [forest, List.reverse_reverse]

@[simp] theorem sizeAll_trees (e : Entry) : Tree.sizeAll e.trees = Tree.sizeAll e.children := by
  unfold Entry.trees
  split
  · simp [Tree.sizeAll, Tree.size]
  · rfl

@[simp] theorem extent_cons (e : Entry) (stack : List Entry) :
    extent (e :: stack) = extent stack + Tree.sizeAll e.children := by
  simp [extent]

theorem extent_append (upper lower : List Entry) :
    extent (upper ++ lower) = extent lower + extent upper := by
  simp [extent]

theorem forest_map_state (state : Nat) (entries : List Entry) :
    forest (entries.map fun e => { e with state := state }) = forest entries := by
  induction entries with
  | nil => rfl
  | cons e es ih =>
    rw [List.map_cons, forest_cons, forest_cons, ih]
    rfl

theorem forest_extras (state : Nat) (tokens : List Token) :
    forest (extras state tokens) = tokens.map leaf := by
  rw [forest, extras, List.reverse_reverse, List.flatMap_map, List.map_eq_flatMap]
  rfl

theorem sizeAll_map_leaf (tokens : List Token) : Tree.sizeAll (tokens.map leaf) = width tokens := by
  rw [Tree.sizeAll_eq, leavesAll_map_leaf]
  rfl

/-- Every entry starts where the text below it ends. -/
def Offsets : List Entry → Prop
  | [] => True
  | e :: below => e.offset = extent below ∧ Offsets below

theorem Offsets.of_append (offsets : Offsets (upper ++ lower)) : Offsets lower := by
  induction upper with
  | nil => exact offsets
  | cons e upper ih => exact ih offsets.2

/-- The lowest of some entries starts where the text below them ends. -/
theorem Offsets.getLast (offsets : Offsets (upper ++ lower)) (last : upper.getLast? = some e) :
    e.offset = extent lower := by
  induction upper with
  | nil => cases last
  | cons f upper ih =>
    cases upper with
    | nil =>
      obtain rfl := Option.some.inj last
      exact offsets.1
    | cons g upper => exact ih offsets.2 (by rwa [List.getLast?_cons_cons] at last)

/-- What is below some entries may be changed, if it keeps its extent. -/
theorem Offsets.replace (offsets : Offsets (upper ++ lower)) (below : Offsets lower')
    (same : extent lower' = extent lower) (state : Nat) :
    Offsets (upper.map (fun e => { e with state := state }) ++ lower') := by
  induction upper with
  | nil => exact below
  | cons e upper ih =>
    refine ⟨?_, ih offsets.2⟩
    have own : e.offset = extent (upper ++ lower) := offsets.1
    rw [extent_append] at own
    have moved : extent (upper.map fun e => { e with state := state }) = extent upper :=
      congrArg Tree.sizeAll (forest_map_state state upper)
    change e.offset = extent (upper.map _ ++ lower')
    rw [extent_append, moved, same, own]

theorem Offsets.extras (offsets : Offsets stack) {tokens : List Token}
    (abreast : Abreast stop (extent stack) tokens) (state : Nat) :
    Offsets (Config.extras state tokens ++ stack) := by
  induction tokens generalizing stack with
  | nil => exact offsets
  | cons t ts ih =>
    obtain ⟨first, rest⟩ := abreast
    have pushed : Offsets (⟨state, .extra, false, t.start, [leaf t]⟩ :: stack) := ⟨first, offsets⟩
    have grown : extent (⟨state, .extra, false, t.start, [leaf t]⟩ :: stack) = t.stop := by
      rw [extent_cons, ← first]
      simp [Tree.sizeAll, Tree.size, leaf, Token.stop]
    have split : Config.extras state (t :: ts) ++ stack =
        Config.extras state ts ++ (⟨state, .extra, false, t.start, [leaf t]⟩ :: stack) := by
      simp [Config.extras]
    rw [split]
    exact ih pushed (grown ▸ rest)

/-- The offsets of a parse of a text that ends at `stop`. -/
structure Placed (stop : Nat) (c : Config) : Prop where
  offsets : Offsets c.stack
  cursor : c.cursor = extent c.stack
  tokens : Abreast stop c.cursor (c.pending ++ c.rest)

theorem placed_initial {tokens : List Token} (abreast : Abreast stop 0 tokens) :
    (initial tokens).Placed stop :=
  ⟨trivial, rfl, abreast⟩

theorem Placed.settle (placed : c.Placed stop) : c.settle.Placed stop := by
  refine ⟨placed.offsets, placed.cursor, ?_⟩
  rw [pending_append_rest_settle]
  exact placed.tokens

theorem Placed.cursor_le (placed : c.Placed stop) : c.cursor ≤ stop := by
  rw [placed.tokens.stop_eq]
  exact Nat.le_add_right _ _

/-- Setting aside puts the blanks in their places. -/
theorem Placed.flush (placed : c.Placed stop) : c.flush.Placed stop ∧
    c.flush.cursor = c.cursor + width c.pending ∧
      forest c.flush.stack = forest c.stack ++ c.pending.map leaf := by
  obtain ⟨aside, rest⟩ := Token.abreast_append.1 placed.tokens
  rw [flush_eq, aside.getLast]
  rw [placed.cursor] at aside
  refine ⟨⟨placed.offsets.extras aside _, ?_, rest⟩, rfl, ?_⟩
  · simp only
    rw [extent_append, extent, extent, forest_extras, sizeAll_map_leaf, placed.cursor]
    rfl
  · rw [forest_append, forest_extras]

/-- Tokens go from the front of the rest to the stack. -/
theorem Placed.push (placed : c.Placed stop) (pending : c.pending = []) (e : Entry)
    (taken : List Token) (split : c.rest = taken ++ c'.rest) (offset : e.offset = c.cursor)
    (size : Tree.sizeAll e.children = width taken) (stack : c'.stack = e :: c.stack)
    (cursor : c'.cursor = c.cursor + width taken) (pending' : c'.pending = []) :
    c'.Placed stop := by
  have tokens := placed.tokens
  rw [pending, List.nil_append, split] at tokens
  refine ⟨?_, ?_, ?_⟩
  · rw [stack]
    exact ⟨offset.trans placed.cursor, placed.offsets⟩
  · rw [stack, extent_cons, size, cursor, placed.cursor]
  · rw [pending', List.nil_append, cursor]
    exact (Token.abreast_append.1 tokens).2

/-- A token goes to the stack, the blanks in front of it first. -/
theorem Placed.pushToken (placed : c.Placed stop) {t : Token} {rest : List Token}
    (front : c.rest = t :: rest) (e : Entry) (offset : e.offset = t.start)
    (children : e.children = [leaf t]) (stack : c'.stack = e :: c.flush.stack)
    (rest' : c'.rest = rest) (cursor : c'.cursor = t.stop) (pending : c'.pending = []) :
    c'.Placed stop := by
  obtain ⟨flushed, _, _⟩ := placed.flush
  have tokens := flushed.tokens
  rw [pending_flush, List.nil_append, rest_flush, front] at tokens
  have one : width [t] = t.text.utf8ByteSize := by simp [Token.width, label]
  have size : Tree.sizeAll e.children = width [t] := by
    rw [children]
    exact sizeAll_map_leaf [t]
  refine flushed.push rfl e [t] ?_ (offset.trans tokens.1) size stack ?_ pending
  · rw [rest_flush, front, rest', List.singleton_append]
  · rw [cursor, one, ← tokens.1]
    rfl

/-- Symbols taken off a stack start where the rest of it ends. -/
theorem offset_popped {n : Nat} {popped below : List Entry} (offsets : Offsets stack)
    (split : pop n stack = (popped, below)) (first : popped.head? = some e) :
    e.offset = extent below := by
  have whole := pop_split n stack
  rw [split] at whole
  rw [← whole] at offsets
  exact offsets.getLast (List.getLast?_reverse.trans first)

end Config

namespace Setup

open Config

variable {s : Setup} {c c' : Config} {stop : Nat}

theorem sizeAll_made (r : Reduction) (popped : List Entry) (state : Nat) (k : Kind) :
    Tree.sizeAll (made r popped state k) = Tree.sizeAll (popped.flatMap Entry.trees) := by
  unfold made
  split
  · rfl
  · simp [Tree.sizeAll, Tree.size]

/-- The stack of a reduction, cut where it is made. -/
theorem stack_of_reduce {trailing popped below : List Entry} {n : Nat}
    (trailingIs : trailing = c.stack.takeWhile (!·.isSymbol))
    (split : Config.pop n (c.stack.dropWhile (!·.isSymbol)) = (popped, below)) :
    c.stack = trailing ++ (popped.reverse ++ below) := by
  have whole := pop_split n (c.stack.dropWhile (!·.isSymbol))
  rw [split] at whole
  rw [trailingIs, whole, List.takeWhile_append_dropWhile]

/-- A node starts where the text below it ends, also one without text. -/
theorem startOf_eq (placed : c.Placed stop) {trailing popped below : List Entry}
    (whole : c.stack = trailing ++ (popped.reverse ++ below)) :
    startOf c popped trailing = extent below := by
  have offsets := placed.offsets
  rw [whole] at offsets
  unfold startOf
  cases first : popped.head? with
  | some e => exact offsets.of_append.getLast (List.getLast?_reverse.trans first)
  | none =>
    obtain rfl := List.head?_eq_none_iff.1 first
    cases lowest : trailing.getLast? with
    | some e => exact offsets.getLast lowest
    | none =>
      obtain rfl := List.getLast?_eq_none_iff.1 lowest
      exact placed.cursor.trans (congrArg extent whole)

theorem placed_reduce (placed : c.Placed stop) {p : Nat} {k : Kind}
    (h : s.reduce c p k = .ok c') : c'.Placed stop := by
  obtain ⟨r, trailing, popped, below, next, _, trailingIs, split, _, rfl⟩ := reduce_ok h
  have whole := stack_of_reduce trailingIs split
  have offsets := placed.offsets
  rw [whole] at offsets
  have size : Tree.sizeAll (made r popped (topState below) k) = extent popped.reverse := by
    rw [sizeAll_made, extent, forest_reverse]
  have same : extent (⟨next, .symbol, popped.any (·.damaged), startOf c popped trailing,
      made r popped (topState below) k⟩ :: below) = extent (popped.reverse ++ below) := by
    rw [extent_cons, extent_append, size]
  have lower : Offsets (⟨next, .symbol, popped.any (·.damaged), startOf c popped trailing,
      made r popped (topState below) k⟩ :: below) :=
    ⟨startOf_eq placed whole, offsets.of_append.of_append⟩
  have moved : extent (trailing.map fun e => { e with state := next }) = extent trailing :=
    congrArg Tree.sizeAll (forest_map_state next trailing)
  refine ⟨offsets.replace lower same next, ?_, placed.tokens⟩
  change c.cursor = extent (trailing.map _ ++ _)
  rw [extent_append, same, moved, placed.cursor, whole, extent_append]

theorem placed_shift (placed : c.Placed stop) {next : Nat}
    (h : Setup.shift c next = .ok c') : c'.Placed stop := by
  obtain ⟨t, rest, front, rfl⟩ := shift_ok h
  exact placed.pushToken front _ rfl rfl rfl rfl rfl rfl

theorem placed_takeOver (placed : c.Placed stop) {r : Reuse} {gotoKind : Kind → Option Nat}
    {top : Nat} {found : Reusable} {record : Record}
    (fits : r.Fits gotoKind top c.rest found record) : (Setup.takeOver c found).Placed stop := by
  obtain ⟨flushed, _, _⟩ := placed.flush
  have size : found.node.size = width (c.rest.take found.count) := by
    rw [Tree.size_eq, ← fits.leaves]
    rfl
  refine flushed.push rfl _ (c.rest.take found.count) ?_ rfl ?_ rfl ?_ rfl
  · change c.flush.rest = _ ++ c.flush.rest.drop found.count
    rw [rest_flush, List.take_append_drop]
  · simp [Tree.sizeAll, size]
  · exact congrArg (c.flush.cursor + ·) size

theorem placed_pushMissing (placed : c.Placed stop) (k : Kind) (next : Nat) :
    (endInsertion (pushMissing c k next)).Placed stop := by
  refine ⟨⟨placed.cursor, placed.offsets⟩, ?_, placed.tokens⟩
  change c.cursor = extent (_ :: c.stack)
  rw [placed.cursor]
  simp [Tree.sizeAll, Tree.size]

/-- Entries that are given up start where the rest of the stack ends. -/
theorem start_of_wrap (placed : c.Placed stop) (depth : Nat) :
    (match (Config.pop depth c.stack).1 with
      | e :: _ => e.offset
      | [] => c.cursor) = extent (Config.pop depth c.stack).2 := by
  cases split : Config.pop depth c.stack with
  | mk popped below =>
    cases popped with
    | cons e es => exact offset_popped placed.offsets split rfl
    | nil =>
      have whole := pop_split depth c.stack
      rw [split] at whole
      exact placed.cursor.trans (congrArg extent whole.symm)

theorem placed_wrap (placed : c.Placed stop) (depth : Nat) (k : Kind) :
    (Setup.wrap c depth k).Placed stop := by
  have whole := pop_split depth c.stack
  have offsets := placed.offsets
  rw [← whole] at offsets
  refine ⟨⟨start_of_wrap placed depth, offsets.of_append⟩, ?_, placed.tokens⟩
  change c.cursor = extent (_ :: (Config.pop depth c.stack).2)
  have popped : extent (Config.pop depth c.stack).1.reverse =
      Tree.sizeAll ((Config.pop depth c.stack).1.flatMap Entry.trees) := by
    rw [extent, forest_reverse]
  rw [placed.cursor, ← whole, extent_append, extent_cons, whole, popped]
  simp [Tree.sizeAll, Tree.size]

theorem placed_skip (placed : c.Placed stop) (h : s.skip c = .ok c') : c'.Placed stop := by
  obtain ⟨t, rest, front, rfl⟩ := skip_ok h
  unfold pushSkipped
  split
  · rename_i state damaged offset children below _ stack
    have tokens := placed.tokens
    have offsets := placed.offsets
    rw [stack] at offsets
    have cursor := placed.cursor
    rw [stack, extent_cons] at cursor
    rw [front] at tokens
    obtain ⟨_, first, behind⟩ := Token.abreast_append.1 tokens
    refine ⟨⟨offsets.1, offsets.2⟩, ?_, behind⟩
    change t.stop = extent (_ :: below)
    rw [Token.stop, first, cursor, extent_cons]
    simp [sizeAll_map_leaf, Tree.sizeAll, leaf, Tree.size, Nat.add_assoc]
  · exact placed.pushToken front _ rfl rfl rfl rfl rfl rfl

/-- Every move leaves entries, cursor and tokens in their places. -/
theorem Move.placed (placed : c.Placed stop) (move : Move s c c') : c'.Placed stop := by
  have settled := placed.settle
  cases move with
  | insertReduce _ _ reduced => exact placed_reduce placed reduced
  | insertShift => exact placed_pushMissing placed _ _
  | insertStop => exact ⟨placed.offsets, placed.cursor, placed.tokens⟩
  | reduce _ _ _ reduced => exact placed_reduce settled reduced
  | shift _ _ _ shifted => exact placed_shift settled shifted
  | takeOver _ _ _ _ finds =>
    obtain ⟨record, fits⟩ := Reuse.find?_some finds
    exact placed_takeOver settled fits
  | insert => exact ⟨settled.offsets, settled.cursor, settled.tokens⟩
  | wrap => exact placed_wrap settled _ _
  | skip _ _ _ _ _ skipped => exact placed_skip settled skipped

theorem moves_placed (placed : c.Placed stop) (moves : Relation.ReflTransGen (Move s) c c') :
    c'.Placed stop := by
  induction moves with
  | refl => exact placed
  | tail _ move ih => exact move.placed ih

end Setup

end ShaderTree
