import ShaderTree.Proofs.Parser.Conformance
import ShaderTree.Proofs.Parser.Placed
import ShaderTree.Proofs.Tree.Ranges

/-! Which nodes tell of repairs. What entries that count as undamaged put into the tree tells of none,
and only nodes of such entries keep a record of how they were made; so old nodes that are taken over
tell of none either. -/
namespace ShaderTree

namespace Config

open ShaderTree.Tree

/-- Entries without repairs have no nodes that tell of any, and nodes with records have none below
them. -/
structure Honest (c : Config) : Prop where
  faultless : ∀ e ∈ c.stack, e.damaged = false → FaultlessIn e.trees
  sound : ∀ e ∈ c.stack, SoundIn e.children

variable {c c' : Config}

theorem faultlessIn_map_leaf (tokens : List Token) : FaultlessIn (tokens.map leaf) := by
  induction tokens with
  | nil => exact faultlessIn_nil
  | cons t ts ih => exact faultlessIn_cons.2 ⟨faultless_leaf _ _, ih⟩

theorem soundIn_map_leaf (tokens : List Token) : SoundIn (tokens.map leaf) := by
  induction tokens with
  | nil => exact soundIn_nil
  | cons t ts ih => exact soundIn_cons.2 ⟨sound_leaf _ _, ih⟩

theorem honest_initial (tokens : List Token) : (initial tokens).Honest :=
  ⟨by simp [initial], by simp [initial]⟩

theorem Honest.flush (honest : c.Honest) : c.flush.Honest := by
  rw [flush_eq]
  constructor
  · intro e member undamaged
    rcases List.mem_append.1 member with blank | old
    · obtain ⟨t, _, rfl⟩ := List.mem_map.1 (List.mem_reverse.1 blank)
      exact faultlessIn_map_leaf [t]
    · exact honest.faultless e old undamaged
  · intro e member
    rcases List.mem_append.1 member with blank | old
    · obtain ⟨t, _, rfl⟩ := List.mem_map.1 (List.mem_reverse.1 blank)
      exact soundIn_map_leaf [t]
    · exact honest.sound e old

theorem Honest.push (honest : c.Honest) {e : Entry} (stack : c'.stack = e :: c.stack)
    (faultless : e.damaged = false → FaultlessIn e.trees) (sound : SoundIn e.children) :
    c'.Honest := by
  constructor
  · rw [stack]
    exact List.forall_mem_cons.2 ⟨faultless, honest.faultless⟩
  · rw [stack]
    exact List.forall_mem_cons.2 ⟨sound, honest.sound⟩

theorem Honest.of_subset (honest : c.Honest) (subset : c'.stack ⊆ c.stack) : c'.Honest :=
  ⟨fun e member => honest.faultless e (subset member), fun e member => honest.sound e (subset member)⟩

end Config

theorem Kind.isError_iff {k : Kind} : k.isError = true ↔ k = .error ∨ k = .missing := by
  unfold isError
  split <;> simp_all

/-- No production builds a node of a kind that tells of repairs. -/
def Table.SparesRepairs (t : Table) : Prop :=
  ∀ (p : Nat) (r : Reduction), t.reductions[p]? = some r → ∀ k, r.node? = some k → k.isError = false

theorem Grammar.NamesNodes.sparesRepairs {g : Grammar} {t : Table} (names : g.NamesNodes)
    (built : t.BuiltFrom g) : t.SparesRepairs := by
  intro p r known k node
  obtain ⟨production, _, _, _, _, is⟩ := Table.reduction_eq built known
  rw [node] at is
  obtain ⟨n, found, named⟩ := Option.bind_eq_some_iff.1 is.symm
  obtain ⟨notError, notMissing, _⟩ := names.reserved found named
  rw [Bool.eq_false_iff, Ne, Kind.isError_iff, not_or]
  exact ⟨notError, notMissing⟩

/-- Old nodes with records are without repairs. -/
def Reuse.Sound (r : Reuse) : Prop := ∀ n ∈ r.nodes, n.2.Sound

theorem Tree.Sound.faultless {t : Tree} (sound : t.Sound) {r : Record} (recorded : t.record? = some r) :
    t.Faultless := by
  cases t with
  | leaf => exact faultless_leaf _ _
  | node l m cs => exact sound _ (.head _) (by simp [recorded])

namespace Setup

open Config ShaderTree.Tree

variable {s : Setup} {c c' : Config} {k : Kind}

theorem faultlessIn_flatMap {entries : List Entry} (each : ∀ e ∈ entries, FaultlessIn e.trees) :
    FaultlessIn (entries.flatMap Entry.trees) := by
  induction entries with
  | nil => exact faultlessIn_nil
  | cons e es ih =>
    obtain ⟨first, others⟩ := List.forall_mem_cons.1 each
    exact faultlessIn_append.2 ⟨first, ih others⟩

theorem soundIn_trees {e : Entry} (sound : SoundIn e.children) : SoundIn e.trees := by
  unfold Entry.trees
  split
  · exact soundIn_cons.2 ⟨sound_node.2 ⟨fun recorded => absurd rfl recorded, sound⟩, soundIn_nil⟩
  · exact sound

theorem soundIn_flatMap {entries : List Entry} (each : ∀ e ∈ entries, SoundIn e.children) :
    SoundIn (entries.flatMap Entry.trees) := by
  induction entries with
  | nil => exact soundIn_nil
  | cons e es ih =>
    obtain ⟨first, others⟩ := List.forall_mem_cons.1 each
    exact soundIn_append.2 ⟨soundIn_trees first, ih others⟩

/-- What a reduction makes of entries without repairs has none, and keeps a record only then. -/
theorem honest_made {r : Reduction} {popped : List Entry}
    (spares : ∀ k, r.node? = some k → k.isError = false)
    (faultless : ∀ e ∈ popped, e.damaged = false → FaultlessIn e.trees)
    (sound : ∀ e ∈ popped, SoundIn e.children) (state : Nat) (k : Kind) :
    (popped.any (·.damaged) = false → FaultlessIn (made r popped state k)) ∧
      SoundIn (made r popped state k) := by
  have below : popped.any (·.damaged) = false → FaultlessIn (popped.flatMap Entry.trees) := by
    intro undamaged
    refine faultlessIn_flatMap fun e member => faultless e member ?_
    simpa using List.any_eq_false.1 undamaged e member
  have trees := soundIn_flatMap sound
  unfold made
  split
  · exact ⟨below, trees⟩
  · rename_i l node
    refine ⟨fun undamaged => ?_, soundIn_cons.2 ⟨sound_node.2 ⟨fun recorded => ?_, trees⟩, soundIn_nil⟩⟩
    · exact faultlessIn_cons.2
        ⟨faultless_node.2 ⟨spares l node, below undamaged⟩, faultlessIn_nil⟩
    · refine faultless_node.2 ⟨spares l node, below ?_⟩
      by_contra damaged
      simp [Bool.eq_true_of_not_eq_false damaged] at recorded

theorem honest_reduce (spares : s.table.SparesRepairs) (honest : c.Honest) {p : Nat}
    (h : s.reduce c p k = .ok c') : c'.Honest := by
  obtain ⟨r, trailing, popped, below, next, known, trailingIs, split, _, rfl⟩ := reduce_ok h
  have whole := stack_of_reduce trailingIs split
  have inside (e : Entry) (member : e ∈ trailing ∨ e ∈ popped ∨ e ∈ below) : e ∈ c.stack := by
    rw [whole]
    simpa using member
  obtain ⟨faultless, sound⟩ := honest_made (spares p r known)
    (fun e member => honest.faultless e (inside e (.inr (.inl member))))
    (fun e member => honest.sound e (inside e (.inr (.inl member)))) (topState below) k
  constructor
  · intro e member undamaged
    rcases List.mem_append.1 member with moved | member
    · obtain ⟨old, there, rfl⟩ := List.mem_map.1 moved
      exact honest.faultless old (inside old (.inl there)) undamaged
    · rcases List.mem_cons.1 member with rfl | old
      · exact faultless undamaged
      · exact honest.faultless e (inside e (.inr (.inr old))) undamaged
  · intro e member
    rcases List.mem_append.1 member with moved | member
    · obtain ⟨old, there, rfl⟩ := List.mem_map.1 moved
      exact honest.sound old (inside old (.inl there))
    · rcases List.mem_cons.1 member with rfl | old
      · exact sound
      · exact honest.sound e (inside e (.inr (.inr old)))

theorem honest_skip (honest : c.Honest) (h : s.skip c = .ok c') : c'.Honest := by
  obtain ⟨u, rest, _, rfl⟩ := skip_ok h
  unfold pushSkipped
  split
  · rename_i state damaged offset children below _ stack
    have others := List.forall_mem_cons.1 (stack ▸ honest.faultless)
    have below := List.forall_mem_cons.1 (stack ▸ honest.sound)
    constructor
    · refine List.forall_mem_cons.2 ⟨fun undamaged => ?_, others.2⟩
      exact absurd (faultlessIn_cons.1 (others.1 undamaged)).1 (by simp [faultless_node, Kind.isError])
    · refine List.forall_mem_cons.2 ⟨?_, below.2⟩
      exact soundIn_append.2 ⟨soundIn_append.2 ⟨below.1, soundIn_map_leaf _⟩, soundIn_map_leaf [u]⟩
  · exact honest.flush.push rfl (by simp) (soundIn_map_leaf [u])

theorem honest_wrap (honest : c.Honest) (depth : Nat) (k : Kind) :
    (Setup.wrap c depth k).Honest := by
  have below (e : Entry) (member : e ∈ (Config.pop depth c.stack).2) : e ∈ c.stack :=
    mem_of_pop (.inr member)
  constructor
  · exact List.forall_mem_cons.2 ⟨by simp, fun e member => honest.faultless e (below e member)⟩
  · refine List.forall_mem_cons.2 ⟨?_, fun e member => honest.sound e (below e member)⟩
    have given : SoundIn ((Config.pop depth c.stack).1.flatMap Entry.trees) :=
      soundIn_flatMap fun e member => honest.sound e (mem_of_pop (.inl member))
    exact soundIn_cons.2 ⟨sound_node.2 ⟨fun recorded => absurd rfl recorded, given⟩, soundIn_nil⟩

theorem Move.honest (spares : s.table.SparesRepairs)
    (old : ∀ r, s.reuse = some r → r.Sound) (honest : c.Honest) (move : Move s c c') : c'.Honest := by
  have settled : c.settle.Honest := honest.of_subset (List.Subset.refl _)
  cases move with
  | insertReduce _ _ reduced => exact honest_reduce spares honest reduced
  | insertShift =>
    refine honest.push rfl (by simp) ?_
    refine soundIn_cons.2 ⟨sound_node.2 ⟨fun recorded => absurd rfl recorded, ?_⟩, soundIn_nil⟩
    exact soundIn_cons.2 ⟨sound_leaf _ _, soundIn_nil⟩
  | insertStop => exact honest.of_subset (List.Subset.refl _)
  | reduce _ _ _ reduced => exact honest_reduce spares settled reduced
  | shift _ _ _ shifted =>
    obtain ⟨u, rest, _, rfl⟩ := shift_ok shifted
    exact settled.flush.push rfl (fun _ => faultlessIn_map_leaf [u]) (soundIn_map_leaf [u])
  | takeOver _ _ _ reuse finds =>
    obtain ⟨record, fits⟩ := Reuse.find?_some finds
    obtain ⟨start, known⟩ := fits.known
    have sound := old _ reuse _ known
    exact settled.flush.push rfl
      (fun _ => faultlessIn_cons.2 ⟨sound.faultless fits.recorded, faultlessIn_nil⟩)
      (soundIn_cons.2 ⟨sound, soundIn_nil⟩)
  | insert => exact settled.of_subset (List.Subset.refl _)
  | wrap => exact honest_wrap settled _ _
  | skip _ _ _ _ _ skipped => exact honest_skip settled skipped

theorem moves_honest (spares : s.table.SparesRepairs) (old : ∀ r, s.reuse = some r → r.Sound)
    (honest : c.Honest) (moves : Relation.ReflTransGen (Move s) c c') : c'.Honest := by
  induction moves with
  | refl => exact honest
  | tail _ move ih => exact move.honest spares old ih

theorem sound_root (honest : c.Honest) : (Setup.root c).Sound := by
  refine sound_node.2 ⟨fun recorded => absurd rfl recorded, soundIn_flatMap fun e member => ?_⟩
  exact honest.flush.sound e (List.mem_reverse.1 member)

end Setup

end ShaderTree
