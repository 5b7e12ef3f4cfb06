import ShaderTree.Proofs.Parser.History
import ShaderTree.Proofs.Tree.Leaves

/-! Trees without their marks: two trees have the same shape if nothing else tells them apart. -/
namespace ShaderTree.Tree

mutual

/-- A tree with its marks taken off. -/
def plain : Tree → Tree
  | leaf k text => leaf k text
  | node k _ cs => node k {} (plainAll cs)

def plainAll : List Tree → List Tree
  | [] => []
  | t :: ts => plain t :: plainAll ts

end

@[simp] theorem plainAll_append (ts us : List Tree) :
    plainAll (ts ++ us) = plainAll ts ++ plainAll us := by
  induction ts with
  | nil => rfl
  | cons t ts ih => rw [List.cons_append, plainAll, plainAll, ih, List.cons_append]

theorem plainAll_flatMap {α : Type} (f : α → List Tree) (xs : List α) :
    plainAll (xs.flatMap f) = xs.flatMap fun x => plainAll (f x) := by
  induction xs with
  | nil => rfl
  | cons x xs ih => rw [List.flatMap_cons, plainAll_append, ih, List.flatMap_cons]

mutual

@[simp] theorem leaves_plain (t : Tree) : t.plain.leaves = t.leaves := by
  cases t with
  | leaf k text => rfl
  | node k m cs => rw [plain, leaves, leaves, leavesAll_plainAll cs]

@[simp] theorem leavesAll_plainAll (ts : List Tree) : leavesAll (plainAll ts) = leavesAll ts := by
  cases ts with
  | nil => rfl
  | cons t ts => rw [plainAll, leavesAll, leavesAll, leaves_plain t, leavesAll_plainAll ts]

end

theorem size_plain (t : Tree) : t.plain.size = t.size := by
  rw [size_eq, size_eq, leaves_plain]

theorem sizeAll_plainAll (ts : List Tree) : sizeAll (plainAll ts) = sizeAll ts := by
  rw [sizeAll_eq, sizeAll_eq, leavesAll_plainAll]

mutual

@[simp] theorem plain_plain (t : Tree) : t.plain.plain = t.plain := by
  cases t with
  | leaf k text => rfl
  | node k m cs => rw [plain, plain, plainAll_plainAll cs]

@[simp] theorem plainAll_plainAll (ts : List Tree) : plainAll (plainAll ts) = plainAll ts := by
  cases ts with
  | nil => rfl
  | cons t ts => rw [plainAll, plainAll, plain_plain t, plainAll_plainAll ts]

end

theorem plainAll_eq_map (ts : List Tree) : plainAll ts = ts.map plain := by
  induction ts with
  | nil => rfl
  | cons t ts ih => rw [plainAll, ih, List.map_cons]

theorem kind_plain (u : Tree) : u.plain.kind = u.kind := by cases u <;> rfl

theorem isLeaf_plain (u : Tree) : u.plain.isLeaf = u.isLeaf := by cases u <;> rfl

theorem children_plain (u : Tree) : u.plain.children = u.children.map plain := by
  cases u with
  | leaf => rfl
  | node => exact plainAll_eq_map _

mutual

theorem nodes_plain (u : Tree) : u.plain.nodes = u.nodes.map plain := by
  cases u with
  | leaf => rfl
  | node k m cs => rw [plain, nodes, nodes, nodesAll_plainAll cs, List.map_cons, plain]

theorem nodesAll_plainAll (ts : List Tree) : nodesAll (plainAll ts) = (nodesAll ts).map plain := by
  cases ts with
  | nil => rfl
  | cons t ts => rw [plainAll, nodesAll, nodesAll, nodes_plain t, nodesAll_plainAll ts, List.map_append]

end

mutual

theorem sameShape_of_plain {t u : Tree} (same : t.plain = u.plain) : t.sameShape u = true := by
  cases t with
  | leaf k text =>
    cases u with
    | leaf l text' =>
      obtain ⟨rfl, rfl⟩ := Tree.leaf.inj same
      simp [sameShape]
    | node l m ds => cases same
  | node k m cs =>
    cases u with
    | leaf l text => cases same
    | node l m' ds =>
      obtain ⟨rfl, _, below⟩ := Tree.node.inj same
      simp [sameShape, sameShapes_of_plainAll below]

theorem sameShapes_of_plainAll {ts us : List Tree} (same : plainAll ts = plainAll us) :
    sameShapes ts us = true := by
  cases ts with
  | nil =>
    cases us with
    | nil => rfl
    | cons u us => cases same
  | cons t ts =>
    cases us with
    | nil => cases same
    | cons u us =>
      obtain ⟨first, others⟩ := List.cons.inj same
      simp [sameShapes, sameShape_of_plain first, sameShapes_of_plainAll others]

end

mutual

theorem plain_of_sameShape {t u : Tree} (same : t.sameShape u = true) : t.plain = u.plain := by
  cases t with
  | leaf k text =>
    cases u with
    | leaf l text' =>
      obtain ⟨rfl, rfl⟩ : k = l ∧ text = text' := by simpa [sameShape] using same
      rfl
    | node l m ds => cases same
  | node k m cs =>
    cases u with
    | leaf l text => cases same
    | node l m' ds =>
      obtain ⟨rfl, below⟩ : k = l ∧ sameShapes cs ds = true := by simpa [sameShape] using same
      rw [plain, plain, plainAll_of_sameShapes below]

theorem plainAll_of_sameShapes {ts us : List Tree} (same : sameShapes ts us = true) :
    plainAll ts = plainAll us := by
  cases ts with
  | nil =>
    cases us with
    | nil => rfl
    | cons u us => cases same
  | cons t ts =>
    cases us with
    | nil => cases same
    | cons u us =>
      obtain ⟨first, others⟩ : t.sameShape u = true ∧ sameShapes ts us = true := by
        simpa [sameShapes] using same
      rw [plainAll, plainAll, plain_of_sameShape first, plainAll_of_sameShapes others]

end

mutual

theorem sublist_of_mem_nodes {t u : Tree} (inside : t ∈ u.nodes) : t.nodes.Sublist u.nodes := by
  cases u with
  | leaf => cases inside
  | node k m cs =>
    rcases List.mem_cons.1 inside with rfl | below
    · exact .refl _
    · exact (sublist_of_mem_nodesAll below).cons _

theorem sublist_of_mem_nodesAll {t : Tree} {us : List Tree} (inside : t ∈ nodesAll us) :
    t.nodes.Sublist (nodesAll us) := by
  cases us with
  | nil => cases inside
  | cons u us =>
    rcases List.mem_append.1 inside with first | others
    · exact (sublist_of_mem_nodes first).trans (List.sublist_append_left _ _)
    · exact (sublist_of_mem_nodesAll others).trans (List.sublist_append_right _ _)

end

/-- A node in a tree of its own shape is the whole tree. -/
theorem eq_of_mem_nodes {t u : Tree} (inside : t ∈ u.nodes) (same : t.plain = u.plain) : t = u := by
  have many : t.nodes.length = u.nodes.length := by
    rw [← List.length_map plain, ← nodes_plain, same, nodes_plain, List.length_map]
  cases u with
  | leaf => cases inside
  | node k m cs =>
    rcases List.mem_cons.1 inside with is | below
    · exact is
    · have few := (sublist_of_mem_nodesAll below).length_le
      rw [many, nodes, List.length_cons] at few
      exact absurd few (Nat.not_succ_le_self _)

mutual

@[simp] theorem plain_numberFrom (next : Nat) (t : Tree) : (numberFrom next t).1.plain = t.plain := by
  cases t with
  | leaf k text => rfl
  | node k m cs =>
    have below := plainAll_numberAllFrom (next + 1) cs
    rw [numberFrom]
    split
    · rfl
    · rw [plain, plain, ← below]

@[simp] theorem plainAll_numberAllFrom (next : Nat) (ts : List Tree) :
    plainAll (numberAllFrom next ts).1 = plainAll ts := by
  cases ts with
  | nil => rfl
  | cons t ts =>
    have first := plain_numberFrom next t
    have others := plainAll_numberAllFrom (numberFrom next t).2 ts
    rw [numberAllFrom]
    dsimp only
    rw [plainAll, first, others, plainAll]

end

/-- What numbering keeps of each tree, it keeps of a row of trees. -/
theorem map_numberAllFrom {β : Type} (f : Tree → β) (keeps : ∀ next t, f (numberFrom next t).1 = f t)
    (next : Nat) (ts : List Tree) : (numberAllFrom next ts).1.map f = ts.map f := by
  induction ts generalizing next with
  | nil => rfl
  | cons t ts ih =>
    rw [numberAllFrom]
    dsimp only
    rw [List.map_cons, keeps, ih, List.map_cons]

theorem record?_numberFrom (next : Nat) (t : Tree) : (numberFrom next t).1.record? = t.record? := by
  cases t with
  | leaf => rfl
  | node k m cs =>
    rw [numberFrom]
    split <;> rfl

end ShaderTree.Tree
