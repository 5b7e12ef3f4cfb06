import ShaderTree.Proofs.Token.Layout
import ShaderTree.Tree.Site

/-! The leaves of a tree in their places: offsets follow from the texts alone. -/
namespace ShaderTree.Tree

theorem size_eq (t : Tree) : t.size = Text.size (Token.chars t.leaves) := by
  induction t using Tree.rec
    (motive_2 := fun ts => sizeAll ts = Text.size (Token.chars (leavesAll ts))) with
  | leaf k text => simp [size, leaves]
  | node k m cs ih => simpa [size, leaves] using ih
  | nil => rfl
  | cons t ts ihHead ihTail => simp [sizeAll, leavesAll, ihHead, ihTail]

theorem sizeAll_eq (ts : List Tree) : sizeAll ts = Text.size (Token.chars (leavesAll ts)) := by
  induction ts with
  | nil => rfl
  | cons t ts ih => simp [sizeAll, leavesAll, ih, size_eq]

end ShaderTree.Tree

namespace ShaderTree.Site

open Token (Label chars)

/-- Labels with their start offsets. -/
def offsets (start : Nat) : List Label → List (Nat × Label)
  | [] => []
  | l :: ls => (start, l) :: offsets (start + l.2.utf8ByteSize) ls

theorem offsets_append (start : Nat) (ls ls' : List Label) :
    offsets start (ls ++ ls') = offsets start ls ++ offsets (start + Text.size (chars ls)) ls' := by
  induction ls generalizing start with
  | nil => rfl
  | cons l ls ih => simp [offsets, ih, Nat.add_assoc]

/-- Labels without text take no place. -/
theorem filter_offsets (start : Nat) (ls : List Label) :
    (offsets start ls).filter (fun x => Token.hasText x.2) =
      offsets start (ls.filter Token.hasText) := by
  induction ls generalizing start with
  | nil => rfl
  | cons l ls ih =>
    by_cases some : Token.hasText l
    · simp only [offsets, List.filter_cons, some, ih, if_true]
    · have empty := Token.eq_empty_of_not_hasText some
      simp [offsets, some, ih, empty]

/-- Offset and label of a leaf. -/
def place (s : Site) : Nat × Label := (s.start, (s.kind, s.tree.text))

mutual

theorem map_place_elementsAt (above : List Frame) (start : Nat) (t : Tree) :
    ((elementsAt above start t).filter isLeaf).map place = offsets start t.leaves := by
  cases t with
  | leaf k text =>
    rw [elementsAt, List.filter_cons_of_pos rfl]
    simp [place, kind, Tree.kind, Tree.text, Tree.leaves, offsets, String.join]
  | node k m cs =>
    have below := map_place_elementsBelow (.node k m cs) start above 0 start cs
    rw [elementsAt, List.filter_cons_of_neg (by simp [isLeaf, Tree.isLeaf]), below, Tree.leaves]

theorem map_place_elementsBelow (parent : Tree) (parentStart : Nat) (above : List Frame)
    (index start : Nat) (ts : List Tree) :
    ((elementsBelow parent parentStart above index start ts).filter isLeaf).map place =
      offsets start (Tree.leavesAll ts) := by
  cases ts with
  | nil => rfl
  | cons t ts =>
    have first := map_place_elementsAt (⟨parent, parentStart, index⟩ :: above) start t
    have others := map_place_elementsBelow parent parentStart above (index + 1) (start + t.size) ts
    rw [elementsBelow, List.filter_append, List.map_append, first, others, Tree.leavesAll,
      offsets_append, Tree.size_eq]

end

theorem map_place_leaves (t : Tree) : (root t).leaves.map place = offsets 0 t.leaves :=
  map_place_elementsAt [] 0 t

theorem size_of_mem_leaves {s l : Site} (member : l ∈ s.leaves) :
    l.tree.size = l.tree.text.utf8ByteSize := by
  have leaf := (List.mem_filter.1 member).2
  cases is : l.tree with
  | leaf k text => simp [Tree.size, Tree.text, Tree.leaves, String.join]
  | node k m cs => simp [isLeaf, Tree.isLeaf, is] at leaf

end ShaderTree.Site
