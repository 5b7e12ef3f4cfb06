import ShaderTree.Tree.Document
import ShaderTree.Tree.Site

/-! Where the nodes of a kind lie in a tree, and trees without nodes that tell of repairs. Wherever a
tree comes from, the nodes that keep a record of how they were made are to be such trees. -/
namespace ShaderTree

namespace Tree

variable {k : Kind} {t : Tree} {ts us : List Tree}

mutual

/-- Ranges of the nodes of a kind, for a tree that starts at `offset`. -/
def rangesOf (k : Kind) (offset : Nat) : Tree → List ByteRange
  | leaf .. => []
  | node l _ cs =>
    (if l = k then [⟨offset, offset + sizeAll cs⟩] else []) ++ rangesOfAll k offset cs

def rangesOfAll (k : Kind) (offset : Nat) : List Tree → List ByteRange
  | [] => []
  | t :: ts => rangesOf k offset t ++ rangesOfAll k (offset + t.size) ts

end

theorem rangesOfAll_append (k : Kind) (offset : Nat) (ts us : List Tree) :
    rangesOfAll k offset (ts ++ us) =
      rangesOfAll k offset ts ++ rangesOfAll k (offset + sizeAll ts) us := by
  induction ts generalizing offset with
  | nil => rfl
  | cons t ts ih =>
    rw [List.cons_append, rangesOfAll, ih, rangesOfAll, List.append_assoc, sizeAll, Nat.add_assoc]

/-- A node of another kind adds nothing. -/
theorem rangesOf_node_ne {l : Kind} {m : Mark} {cs : List Tree} (other : l ≠ k) (offset : Nat) :
    rangesOf k offset (node l m cs) = rangesOfAll k offset cs := by
  rw [rangesOf, if_neg other, List.nil_append]

theorem rangesOf_node (k : Kind) (offset : Nat) (m : Mark) (cs : List Tree) :
    rangesOf k offset (node k m cs) = ⟨offset, offset + sizeAll cs⟩ :: rangesOfAll k offset cs := by
  rw [rangesOf, if_pos rfl, List.singleton_append]

theorem rangesOfAll_singleton (k : Kind) (offset : Nat) (t : Tree) :
    rangesOfAll k offset [t] = rangesOf k offset t :=
  List.append_nil _

/-- Kinds of the nodes. -/
def kinds (t : Tree) : List Kind := t.nodes.map kind

def kindsAll (ts : List Tree) : List Kind := (nodesAll ts).map kind

@[simp] theorem kindsAll_nil : kindsAll [] = [] := rfl

@[simp] theorem kindsAll_cons (t : Tree) (ts : List Tree) : kindsAll (t :: ts) = t.kinds ++ kindsAll ts :=
  List.map_append

@[simp] theorem kindsAll_append (ts us : List Tree) :
    kindsAll (ts ++ us) = kindsAll ts ++ kindsAll us := by
  rw [kindsAll, nodesAll_append, List.map_append]
  rfl

@[simp] theorem kinds_leaf (l : Kind) (text : String) : (leaf l text).kinds = [] := rfl

@[simp] theorem kinds_node (l : Kind) (m : Mark) (cs : List Tree) :
    (node l m cs).kinds = l :: kindsAll cs := rfl

mutual

/-- A kind that no node is of has no ranges. -/
theorem rangesOf_eq_nil (k : Kind) (offset : Nat) (t : Tree) (absent : k ∉ t.kinds) :
    rangesOf k offset t = [] := by
  cases t with
  | leaf => rfl
  | node l m cs =>
    rw [kinds_node, List.mem_cons, not_or] at absent
    rw [rangesOf_node_ne (Ne.symm absent.1)]
    exact rangesOfAll_eq_nil k offset cs absent.2

theorem rangesOfAll_eq_nil (k : Kind) (offset : Nat) (ts : List Tree) (absent : k ∉ kindsAll ts) :
    rangesOfAll k offset ts = [] := by
  cases ts with
  | nil => rfl
  | cons t ts =>
    rw [kindsAll_cons, List.mem_append, not_or] at absent
    have first := rangesOf_eq_nil k offset t absent.1
    have others := rangesOfAll_eq_nil k (offset + t.size) ts absent.2
    rw [rangesOfAll, first, others, List.append_nil]

end

/-- No node tells of a repair. -/
def Faultless (t : Tree) : Prop := ∀ k ∈ t.kinds, k.isError = false

def FaultlessIn (ts : List Tree) : Prop := ∀ k ∈ kindsAll ts, k.isError = false

@[simp] theorem faultlessIn_nil : FaultlessIn [] := fun _ member => nomatch member

theorem faultlessIn_append : FaultlessIn (ts ++ us) ↔ FaultlessIn ts ∧ FaultlessIn us := by
  simp only [FaultlessIn, kindsAll_append, List.mem_append, or_imp, forall_and]

theorem faultlessIn_cons : FaultlessIn (t :: ts) ↔ t.Faultless ∧ FaultlessIn ts := by
  simp only [FaultlessIn, Faultless, kindsAll_cons, List.mem_append, or_imp, forall_and]

theorem faultless_node {l : Kind} {m : Mark} {cs : List Tree} :
    (node l m cs).Faultless ↔ l.isError = false ∧ FaultlessIn cs := by
  simp only [FaultlessIn, Faultless, kinds_node, List.mem_cons, forall_eq_or_imp]

theorem faultless_leaf (l : Kind) (text : String) : (leaf l text).Faultless :=
  fun _ member => nomatch member

theorem FaultlessIn.rangesOfAll (faultless : FaultlessIn ts) (fault : k.isError = true)
    (offset : Nat) : rangesOfAll k offset ts = [] := by
  refine rangesOfAll_eq_nil k offset ts fun member => ?_
  cases fault.symm.trans (faultless k member)

/-- A node that keeps a record was made without repairs. -/
def Sound (t : Tree) : Prop := ∀ u ∈ t.nodes, u.record? ≠ none → u.Faultless

def SoundIn (ts : List Tree) : Prop := ∀ u ∈ nodesAll ts, u.record? ≠ none → u.Faultless

@[simp] theorem soundIn_nil : SoundIn [] := fun _ member => nomatch member

theorem soundIn_append : SoundIn (ts ++ us) ↔ SoundIn ts ∧ SoundIn us := by
  simp only [SoundIn, nodesAll_append, List.mem_append, or_imp, forall_and]

theorem soundIn_cons : SoundIn (t :: ts) ↔ t.Sound ∧ SoundIn ts := by
  simp only [SoundIn, Sound, nodesAll, List.mem_append, or_imp, forall_and]

theorem sound_node {l : Kind} {m : Mark} {cs : List Tree} :
    (node l m cs).Sound ↔ (m.record ≠ none → (node l m cs).Faultless) ∧ SoundIn cs := by
  simp only [SoundIn, Sound, nodes, List.mem_cons, forall_eq_or_imp]
  rfl

theorem sound_leaf (l : Kind) (text : String) : (leaf l text).Sound := fun _ member => nomatch member

/-! Numbering changes none of this. -/

mutual

theorem kinds_numberFrom (next : Nat) (t : Tree) : (numberFrom next t).1.kinds = t.kinds := by
  cases t with
  | leaf => rfl
  | node l m cs =>
    have below := kindsAll_numberAllFrom (next + 1) cs
    rw [numberFrom]
    split
    · rfl
    · rw [kinds_node, kinds_node, ← below]

theorem kindsAll_numberAllFrom (next : Nat) (ts : List Tree) :
    kindsAll (numberAllFrom next ts).1 = kindsAll ts := by
  cases ts with
  | nil => rfl
  | cons t ts =>
    have first := kinds_numberFrom next t
    have others := kindsAll_numberAllFrom (numberFrom next t).2 ts
    rw [numberAllFrom]
    dsimp only
    rw [kindsAll_cons, first, others, kindsAll_cons]

end

mutual

theorem sound_numberFrom (next : Nat) {t : Tree} (sound : t.Sound) : (numberFrom next t).1.Sound := by
  cases t with
  | leaf => exact sound
  | node l m cs =>
    obtain ⟨own, below⟩ := sound_node.1 sound
    have numbered := soundIn_numberAllFrom (next + 1) below
    rw [numberFrom]
    split
    · exact sound_node.2 ⟨own, below⟩
    · refine sound_node.2 ⟨fun recorded => ?_, numbered⟩
      obtain ⟨kind, faultless⟩ := faultless_node.1 (own recorded)
      refine faultless_node.2 ⟨kind, ?_⟩
      rw [FaultlessIn, kindsAll_numberAllFrom]
      exact faultless

theorem soundIn_numberAllFrom (next : Nat) {ts : List Tree} (sound : SoundIn ts) :
    SoundIn (numberAllFrom next ts).1 := by
  cases ts with
  | nil => exact sound
  | cons t ts =>
    obtain ⟨first, others⟩ := soundIn_cons.1 sound
    rw [numberAllFrom]
    exact soundIn_cons.2 ⟨sound_numberFrom next first, soundIn_numberAllFrom _ others⟩

end

mutual

theorem size_numberFrom (next : Nat) (t : Tree) : (numberFrom next t).1.size = t.size := by
  cases t with
  | leaf => rfl
  | node l m cs =>
    have below := sizeAll_numberAllFrom (next + 1) cs
    rw [numberFrom]
    split
    · rfl
    · rw [size, size, ← below]

theorem sizeAll_numberAllFrom (next : Nat) (ts : List Tree) :
    sizeAll (numberAllFrom next ts).1 = sizeAll ts := by
  cases ts with
  | nil => rfl
  | cons t ts =>
    have first := size_numberFrom next t
    have others := sizeAll_numberAllFrom (numberFrom next t).2 ts
    rw [numberAllFrom]
    dsimp only
    rw [sizeAll, first, others, sizeAll]

end

mutual

theorem rangesOf_numberFrom (k : Kind) (offset next : Nat) (t : Tree) :
    rangesOf k offset (numberFrom next t).1 = rangesOf k offset t := by
  cases t with
  | leaf => rfl
  | node l m cs =>
    have below := rangesOfAll_numberAllFrom k offset (next + 1) cs
    have size := sizeAll_numberAllFrom (next + 1) cs
    rw [numberFrom]
    split
    · rfl
    · rw [rangesOf, rangesOf, ← below, ← size]

theorem rangesOfAll_numberAllFrom (k : Kind) (offset next : Nat) (ts : List Tree) :
    rangesOfAll k offset (numberAllFrom next ts).1 = rangesOfAll k offset ts := by
  cases ts with
  | nil => rfl
  | cons t ts =>
    have first := rangesOf_numberFrom k offset next t
    have others := rangesOfAll_numberAllFrom k (offset + t.size) (numberFrom next t).2 ts
    rw [numberAllFrom]
    dsimp only
    rw [rangesOfAll, first, size_numberFrom, others, rangesOfAll]

end

end Tree

namespace Site

mutual

theorem map_range_elementsAt (k : Kind) (above : List Frame) (start : Nat) (t : Tree) :
    ((elementsAt above start t).filter fun s => s.isNode && s.kind = k).map range =
      t.rangesOf k start := by
  cases t with
  | leaf l text => rfl
  | node l m cs =>
    have below := map_range_elementsBelow k (.node l m cs) start above 0 start cs
    rw [elementsAt]
    by_cases same : l = k
    · subst same
      rw [List.filter_cons_of_pos (by simp [isNode, isLeaf, Tree.isLeaf, kind, Tree.kind]),
        List.map_cons, below, Tree.rangesOf_node]
      rfl
    · rw [List.filter_cons_of_neg (by simp [kind, Tree.kind, same]), below,
        Tree.rangesOf_node_ne same]

theorem map_range_elementsBelow (k : Kind) (parent : Tree) (parentStart : Nat) (above : List Frame)
    (index start : Nat) (ts : List Tree) :
    ((elementsBelow parent parentStart above index start ts).filter fun s =>
      s.isNode && s.kind = k).map range = Tree.rangesOfAll k start ts := by
  cases ts with
  | nil => rfl
  | cons t ts =>
    have first := map_range_elementsAt k (⟨parent, parentStart, index⟩ :: above) start t
    have others :=
      map_range_elementsBelow k parent parentStart above (index + 1) (start + t.size) ts
    rw [elementsBelow, List.filter_append, List.map_append, first, others, Tree.rangesOfAll]

end

end Site

/-- The nodes that tell of repairs. -/
def Document.errorNodes (d : Document) : List Site :=
  (Site.root d.root).descendants.filter (·.kind.isError)

/-- Those of one kind, by their ranges. -/
theorem Document.map_range_errorNodes (d : Document) {k : Kind} (fault : k.isError = true) :
    (d.errorNodes.filter (·.kind = k)).map Site.range = d.root.rangesOf k 0 := by
  rw [← Site.map_range_elementsAt k [] 0 d.root, errorNodes, Site.descendants, List.filter_filter,
    List.filter_filter]
  refine congrArg _ (List.filter_congr fun s _ => ?_)
  by_cases same : s.kind = k
  · simp [same, fault]
  · simp [same]

end ShaderTree
