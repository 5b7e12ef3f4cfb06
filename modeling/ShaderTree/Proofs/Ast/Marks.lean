import ShaderTree.Ast.Item
import ShaderTree.Ast.Statement
import ShaderTree.Proofs.Tree.Shape

/-! What is read off a tree does not hang on its marks: the same parts are found with the marks taken off,
in the same places. So what a node shows can be told from the shape that its tree was planned in. -/
namespace ShaderTree

namespace Site

/-- The same place in the tree with its marks taken off. -/
def plain (s : Site) : Site := ⟨s.tree.plain, s.start, s.above.map fun f => { f with node := f.node.plain }⟩

variable {s : Site}

@[simp] theorem kind_plain (s : Site) : s.plain.kind = s.kind := Tree.kind_plain _

theorem kind_comp_plain : kind ∘ plain = kind := funext kind_plain

@[simp] theorem isLeaf_plain (s : Site) : s.plain.isLeaf = s.isLeaf := Tree.isLeaf_plain _

@[simp] theorem isNode_plain (s : Site) : s.plain.isNode = s.isNode := congrArg (!·) (isLeaf_plain s)

@[simp] theorem range_plain (s : Site) : s.plain.range = s.range :=
  congrArg (fun size => ByteRange.mk s.start (s.start + size)) (Tree.size_plain _)

@[simp] theorem text_plain (s : Site) : s.plain.text = s.text := by
  rw [text, Tree.text, show s.plain.tree = s.tree.plain from rfl, Tree.leaves_plain]
  rfl

theorem placeChildren_plain (parent : Site) (index start : Nat) (ts : List Tree) :
    placeChildren parent.plain index start (ts.map Tree.plain) =
      (placeChildren parent index start ts).map plain := by
  induction ts generalizing index start with
  | nil => rfl
  | cons t ts ih =>
    rw [List.map_cons, placeChildren, Tree.size_plain, ih, placeChildren]
    rfl

theorem children_plain (s : Site) : s.plain.children = s.children.map plain := by
  rw [children, show s.plain.tree = s.tree.plain from rfl, Tree.children_plain]
  exact placeChildren_plain s 0 s.start s.tree.children

/-- A search that does not look at marks finds the same places. -/
theorem filter_plain {test : Site → Bool} (blind : ∀ s, test s.plain = test s) (ss : List Site) :
    (ss.map plain).filter test = (ss.filter test).map plain := by
  rw [List.filter_map, show test ∘ plain = test from funext blind]

theorem find?_plain {test : Site → Bool} (blind : ∀ s, test s.plain = test s) (ss : List Site) :
    (ss.map plain).find? test = (ss.find? test).map plain := by
  rw [List.find?_map, show test ∘ plain = test from funext blind]

theorem childNodes_plain (s : Site) : s.plain.childNodes = s.childNodes.map plain := by
  rw [childNodes, children_plain, filter_plain isNode_plain]
  rfl

theorem childLeaves_plain (s : Site) : s.plain.childLeaves = s.childLeaves.map plain := by
  rw [childLeaves, children_plain, filter_plain isLeaf_plain]
  rfl

mutual

theorem elementsAt_plain (above : List Frame) (start : Nat) (t : Tree) :
    elementsAt (above.map fun f => { f with node := f.node.plain }) start t.plain =
      (elementsAt above start t).map plain := by
  cases t with
  | leaf => rfl
  | node k m cs =>
    have below := elementsBelow_plain (.node k m cs) start above 0 start cs
    rw [Tree.plain] at below ⊢
    rw [elementsAt, below, elementsAt]
    rfl

theorem elementsBelow_plain (parent : Tree) (parentStart : Nat) (above : List Frame) (index start : Nat)
    (ts : List Tree) :
    elementsBelow parent.plain parentStart (above.map fun f => { f with node := f.node.plain }) index start
      (Tree.plainAll ts) = (elementsBelow parent parentStart above index start ts).map plain := by
  cases ts with
  | nil => rfl
  | cons t ts =>
    have first := elementsAt_plain (⟨parent, parentStart, index⟩ :: above) start t
    have others := elementsBelow_plain parent parentStart above (index + 1) (start + t.size) ts
    rw [Tree.plainAll, elementsBelow, Tree.size_plain, others, elementsBelow, List.map_append, ← first]
    rfl

end

theorem descendants_plain (s : Site) : s.plain.descendants = s.descendants.map plain := by
  have elements : s.plain.elements = s.elements.map plain := elementsAt_plain ..
  rw [descendants, elements, filter_plain isNode_plain]
  rfl

mutual

theorem heightOf_plain (t : Tree) : heightOf t.plain = heightOf t := by
  cases t with
  | leaf => rfl
  | node k m cs =>
    have below := heightOfAll_plainAll cs
    rw [Tree.plain, heightOf, below, heightOf]

theorem heightOfAll_plainAll (ts : List Tree) : heightOfAll (Tree.plainAll ts) = heightOfAll ts := by
  cases ts with
  | nil => rfl
  | cons t ts =>
    have first := heightOf_plain t
    have others := heightOfAll_plainAll ts
    rw [Tree.plainAll, heightOfAll, first, others, heightOfAll]

end

/-- What a node of a planned tree is seen to be, a node of any tree of that shape is without its marks. -/
theorem exists_of_plain {u v : Tree} (shape : u.plain = v) (i : Nat) {P : Site → Prop} [DecidablePred P]
    (seen : ((root v).descendants[i]?).any (fun x => decide (P x)) = true) :
    ∃ s ∈ (root u).descendants, P s.plain := by
  obtain ⟨x, there, holds⟩ := (Option.any_eq_true _ _).1 seen
  have inside := List.mem_of_getElem? there
  rw [← shape, show root u.plain = (root u).plain from rfl, descendants_plain] at inside
  obtain ⟨s, member, rfl⟩ := List.mem_map.1 inside
  exact ⟨s, member, of_decide_eq_true holds⟩

end Site

namespace Ast

variable {s : Site} {k : Kind} {p : Kind → Bool}

theorem hasErrors_plain (s : Site) : hasErrors s.plain = hasErrors s := by
  rw [hasErrors, Site.descendants_plain, List.any_map, hasErrors]
  exact congrArg _ (funext fun c => congrArg Kind.isError (Site.kind_plain c))

theorem childrenIn_plain (s : Site) (p : Kind → Bool) :
    childrenIn s.plain p = (childrenIn s p).map Site.plain := by
  rw [childrenIn, Site.childNodes_plain, Site.filter_plain fun c => by rw [Site.kind_plain]]
  rfl

theorem childOf?_plain (s : Site) (k : Kind) : childOf? s.plain k = (childOf? s k).map Site.plain := by
  rw [childOf?, childrenOf, childrenIn_plain, List.head?_map]
  rfl

theorem firstTokenKind?_plain (s : Site) : firstTokenKind? s.plain = firstTokenKind? s := by
  rw [firstTokenKind?, firstToken?, Site.childLeaves_plain,
    Site.find?_plain fun c => by rw [Site.kind_plain], Option.map_map, firstTokenKind?, firstToken?]
  exact congrFun (congrArg _ (funext Site.kind_plain)) _

theorem identifier?_plain (s : Site) : identifier? s.plain = identifier? s := by
  rw [identifier?, token?, Site.childLeaves_plain, Site.find?_plain fun c => by rw [Site.kind_plain],
    Option.map_map, identifier?, token?]
  exact congrFun (congrArg _ (funext Site.text_plain)) _

theorem splitAtToken_plain (s : Site) (k : Kind) (p : Kind → Bool) : splitAtToken s.plain k p =
    ((splitAtToken s k p).1.map Site.plain, (splitAtToken s k p).2.map Site.plain) := by
  have node (c : Site) : (c.plain.isNode && p c.plain.kind) = (c.isNode && p c.kind) := by simp
  have mark : (fun c : Site => !(c.isLeaf && decide (c.kind = k))) ∘ Site.plain =
      fun c : Site => !(c.isLeaf && decide (c.kind = k)) := funext fun c => by simp
  rw [splitAtToken, Site.children_plain, List.takeWhile_map, List.dropWhile_map, mark,
    Site.filter_plain node, Site.filter_plain node]
  rfl

theorem declaredNameIn_plain (fuel : Nat) (s : Site) :
    declaredNameIn fuel s.plain = (declaredNameIn fuel s).map Site.plain := by
  induction fuel generalizing s with
  | zero => rfl
  | succ fuel ih =>
    rw [declaredNameIn, Site.childNodes_plain, Site.find?_plain fun c => by rw [Site.kind_plain],
      declaredNameIn]
    cases s.childNodes.find? _ with
    | none => rfl
    | some c =>
      simp only [Option.map_some, Site.kind_plain, ih]
      split <;> rfl

theorem declaredText?_plain (s : Site) : declaredText? s.plain = declaredText? s := by
  have height : Site.heightOf s.plain.tree = Site.heightOf s.tree := Site.heightOf_plain s.tree
  rw [declaredText?, declaredName?, height, declaredNameIn_plain, Option.bind_map, declaredText?,
    declaredName?]
  exact congrArg _ (funext identifier?_plain)

theorem declarator?_plain (s : Site) :
    Function.declarator? s.plain = (Function.declarator? s).map Site.plain := by
  have first (c : Site) : (c.plain.descendants.find? fun n => n.kind = .functionDeclarator) =
      (c.descendants.find? fun n => n.kind = .functionDeclarator).map Site.plain := by
    rw [Site.descendants_plain, Site.find?_plain fun n => by rw [Site.kind_plain]]
  rw [Function.declarator?, Site.childNodes_plain, Site.filter_plain fun c => by rw [Site.kind_plain],
    List.findSome?_map, Function.declarator?, List.map_findSome?]
  exact congrFun (congrArg _ (funext first)) _

theorem range_declarator?_plain (s : Site) :
    (Function.declarator? s.plain).map Site.range = (Function.declarator? s).map Site.range := by
  rw [declarator?_plain, Option.map_map]
  exact congrFun (congrArg _ (funext Site.range_plain)) _

theorem name?_plain (s : Site) : Function.name? s.plain = Function.name? s := by
  have node : Function.nameNode? s.plain = (Function.nameNode? s).map Site.plain := by
    rw [Function.nameNode?, declarator?_plain, Option.bind_map, Function.nameNode?, Option.map_bind]
    exact congrArg _ (funext fun d => childOf?_plain d .name)
  rw [Function.name?, node, Option.bind_map, Function.name?]
  exact congrArg _ (funext identifier?_plain)

end Ast

end ShaderTree
