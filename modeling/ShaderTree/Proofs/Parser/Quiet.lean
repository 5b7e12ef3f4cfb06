import ShaderTree.Proofs.Parser.Keeping
import ShaderTree.Proofs.Parser.Placed
import ShaderTree.Proofs.Parser.Readings

/-! A parse without reports: its whole tree was built, and with that read, between the blanks and comments
at both ends. -/
namespace ShaderTree

open Token (Label label)

/-- Below the lowest symbol of a stack there are only other entries. -/
theorem Config.exists_lowest (stack : List Entry) : ∃ upper lower, stack = upper ++ lower ∧
    (∀ e ∈ upper.getLast?, e.isSymbol = true) ∧ ∀ e ∈ lower, e.isSymbol = false := by
  induction stack using List.reverseRecOn with
  | nil => exact ⟨[], [], rfl, by simp, by simp⟩
  | append_singleton stack e ih =>
    cases role : e.isSymbol with
    | true => exact ⟨stack ++ [e], [], by simp, by simp [role], by simp⟩
    | false =>
      obtain ⟨upper, lower, rfl, ends, others⟩ := ih
      refine ⟨upper, lower ++ [e], List.append_assoc .., ends, fun f member => ?_⟩
      rcases List.mem_append.1 member with inside | last
      · exact others f inside
      · rw [List.mem_singleton.1 last, role]

namespace Setup

open Config

variable {g : Grammar} {s : Setup} {c c' : Config}

/-- As long as nothing was reported, entries that are no symbols are blanks and comments. -/
def Spaced (c : Config) : Prop :=
  Quiet c → ∀ e ∈ c.stack, e.isSymbol = false → ∀ u ∈ e.trees, u.isLeaf = true

theorem spaced_flush (spaced : ∀ e ∈ c.stack, e.isSymbol = false → ∀ u ∈ e.trees, u.isLeaf = true) :
    ∀ e ∈ c.flush.stack, e.isSymbol = false → ∀ u ∈ e.trees, u.isLeaf = true := by
  intro e member
  rw [stack_flush] at member
  rcases List.mem_append.1 member with blank | old
  · obtain ⟨v, _, rfl⟩ := List.mem_map.1 (List.mem_reverse.1 blank)
    simp [Entry.trees, leaf, Tree.isLeaf]
  · exact spaced e old

theorem Move.spaced (built : s.table.BuiltFrom g) (spelled : c.Spelled g)
    (pretending : s.Pretending c) (spaced : Spaced c) (move : Move s c c') : Spaced c' := by
  intro quiet'
  have quiet := move.quiet built spelled pretending quiet'
  have before := spaced quiet
  have pushed {e : Entry} (role : e.isSymbol = true) :
      ∀ f ∈ e :: c.settle.flush.stack, f.isSymbol = false → ∀ u ∈ f.trees, u.isLeaf = true :=
    List.forall_mem_cons.2 ⟨fun other => absurd (role.symm.trans other) (by simp),
      spaced_flush (c := c.settle) before⟩
  cases move with
  | insertReduce inserting => cases inserting.symm.trans quiet.2
  | insertShift inserting => cases inserting.symm.trans quiet.2
  | insertStop inserting => cases inserting.symm.trans quiet.2
  | reduce _ _ _ reduced =>
    obtain ⟨r, trailing, popped, below, next, _, trailingIs, pops, _, rfl⟩ := reduce_ok reduced
    have whole := stack_of_reduce trailingIs pops
    intro e member role
    rcases List.mem_append.1 member with above | member
    · obtain ⟨old, there, rfl⟩ := List.mem_map.1 above
      exact before old (whole ▸ List.mem_append_left _ there) role
    · rcases List.mem_cons.1 member with rfl | member
      · cases role
      · exact before e (whole ▸ by simp [member]) role
  | shift _ _ _ shifted =>
    obtain ⟨u, rest, _, rfl⟩ := shift_ok shifted
    exact pushed rfl
  | takeOver => exact pushed rfl
  | insert => cases quiet'.2
  | wrap => cases quiet'.1
  | skip _ _ _ _ _ skipped =>
    obtain ⟨u, rest, _, rfl⟩ := skip_ok skipped
    exact absurd quiet'.1 (reportSkipped_ne_nil _ _ _ _)

theorem Reached.unharmed {tokens : List Token} (built : s.table.BuiltFrom g)
    (reached : s.Reached tokens c) :
    c.Spelled g ∧ s.Pretending c ∧ Unharmed c ∧ Spaced c := by
  have moves := reached.moves
  clear reached
  induction moves with
  | refl =>
    exact ⟨spelled_initial tokens, pretending_of_reading rfl, fun _ _ member => (nomatch member),
      fun _ _ member => (nomatch member)⟩
  | tail _ move ih =>
    obtain ⟨spelled, pretending, unharmed, spaced⟩ := ih
    exact ⟨move.spelled_of_built built spelled, move.pretending built spelled pretending,
      move.unharmed built spelled pretending unharmed, move.spaced built spelled pretending spaced⟩

end Setup

open Setup Config in
/-- A document without reports holds what its parse read from the start state. -/
theorem Parser.exists_reads {g : Grammar} {p : Parser} (built : Table.build g = .ok p.language.table)
    (named : p.language.table.Named) {text : String} {d : Document} (parsed : p.parse text = .ok d)
    (quiet : d.diagnostics = []) :
    ∃ follow xs ls cells front middle back, p.language.table.Reads g 0 follow xs ls cells ∧
      d.root = .node .sourceFile {} (front ++ middle ++ back) ∧
      Tree.plainAll middle = Cell.forest cells ∧ ∀ u ∈ front ++ back, u.isLeaf = true := by
  have parts := Table.build_ok built
  obtain ⟨last, ran, root, diagnostics⟩ := exists_run_of_parseTokens parsed
  obtain ⟨c, reached, stepped⟩ := exists_last .refl ran
  obtain rfl := settle_of_last stepped
  have reading : c.inserting = none := by
    rcases stepped with stepped | stepped <;>
      rcases step_cases stepped with ⟨_, is, _⟩ | ⟨c', is | is, final⟩ <;> cases is
    all_goals cases final <;> assumption
  have still : Quiet c := ⟨report_eq_nil.1 (diagnostics ▸ quiet), reading⟩
  have kept : c.Kept p.language.table :=
    Reached.kept (s := p.setup) parts named (fun r is => by cases is) reached (.inr still)
  obtain ⟨spelled, _, unharmed, spaced⟩ := reached.unharmed (s := p.setup) parts
  have builds := kept.ready reading fun e member => unharmed still e (List.takeWhile_subset _ member)
  obtain ⟨upper, lower, whole, ends, blanks⟩ := exists_lowest (symbols c.stack)
  have inside {e : Entry} (member : e ∈ upper ++ lower) : e ∈ c.stack :=
    List.dropWhile_subset _ (whole ▸ member)
  have sound : Whole upper :=
    ⟨fun e member => unharmed still e (inside (List.mem_append_left _ member)), ends⟩
  have repeats : Repeats lower := spelled.repeats.of_suffix <|
    (List.suffix_append upper lower).trans (whole ▸ List.dropWhile_suffix _)
  have bottom : topState lower = 0 := by
    obtain ⟨below, states⟩ := repeats.statesOf
    rw [← List.append_nil lower, statesOf_extras blanks] at states
    rw [← List.append_nil lower]
    exact (List.cons.inj states).1.symm
  have parsedUpper := builds upper lower whole sound
  rw [bottom] at parsedUpper
  obtain ⟨xs, reads⟩ := Table.Reads.exists_of_builds parts .start parsedUpper
  let above := extras c.top c.settle.pending ++ c.stack.takeWhile (!·.isSymbol)
  have stack : c.settle.flush.stack = above ++ upper ++ lower := by
    rw [stack_flush, List.append_assoc, ← whole, List.append_assoc, symbols,
      List.takeWhile_append_dropWhile]
    rfl
  refine ⟨_, xs, _, _, lower.reverse.flatMap Entry.trees, upper.reverse.flatMap Entry.trees,
    above.reverse.flatMap Entry.trees, reads, ?_, ?_, ?_⟩
  · rw [root, Setup.root, stack]
    simp
  · rw [Tree.plainAll_flatMap, Cell.forest, ← List.map_reverse, List.flatMap_map]
    rfl
  · intro u member
    rw [List.mem_append, List.mem_flatMap, List.mem_flatMap] at member
    have leaves := spaced_flush (c := c.settle) (spaced still)
    rw [stack] at leaves
    rcases member with ⟨e, below, inner⟩ | ⟨e, higher, inner⟩
    · rw [List.mem_reverse] at below
      exact leaves e (by simp [below]) (blanks e below) u inner
    · rw [List.mem_reverse] at higher
      refine leaves e (by simp [higher]) ?_ u inner
      rcases List.mem_append.1 higher with blank | blank
      · exact isSymbol_extras e blank
      · simpa using List.mem_takeWhile_imp blank

end ShaderTree
