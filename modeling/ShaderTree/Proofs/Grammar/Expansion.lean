import ShaderTree.Proofs.Parser.History

/-! What a node of a tree shows to the grammar, and when that is what the grammar allows. Blanks,
comments and the text of repairs do not count, and a pretended token counts as a real one. -/
namespace ShaderTree

namespace Grammar

/-- Kinds that symbols come to when hidden nonterminals are replaced by their right-hand sides and
visible ones by their nodes. -/
inductive Expands (g : Grammar) : List Symbol → List Kind → Prop
  | nil : Expands g [] []
  | terminal {k : Kind} {xs : List Symbol} {ks : List Kind} (rest : Expands g xs ks) :
      Expands g (.terminal k :: xs) (k :: ks)
  | visible {i : Nat} {n : Nonterminal} {k : Kind} {xs : List Symbol} {ks : List Kind}
      (known : g.nonterminals[i]? = some n) (node : n.node? = some k) (rest : Expands g xs ks) :
      Expands g (.nonterminal i :: xs) (k :: ks)
  | hidden {i : Nat} {n : Nonterminal} {p : Production} {xs : List Symbol} {ks ls : List Kind}
      (known : g.nonterminals[i]? = some n) (node : n.node? = none)
      (production : p ∈ g.productions) (lhs : p.lhs = i) (own : Expands g p.rhs ks)
      (rest : Expands g xs ls) : Expands g (.nonterminal i :: xs) (ks ++ ls)

theorem Expands.append {g : Grammar} {xs ys : List Symbol} {ks ls : List Kind}
    (front : Expands g xs ks) (back : Expands g ys ls) : Expands g (xs ++ ys) (ks ++ ls) := by
  induction front with
  | nil => exact back
  | terminal rest ih => exact .terminal ih
  | visible known node rest ih => exact .visible known node ih
  | hidden known node production lhs own rest ihOwn ih =>
    rw [List.append_assoc]
    exact .hidden known node production lhs own ih

/-- No two nonterminals make nodes of one kind, and none makes those of repairs or of the root. -/
structure NamesNodes (g : Grammar) : Prop where
  distinct : ∀ {i j : Nat} {n m : Nonterminal} {k : Kind}, g.nonterminals[i]? = some n →
    g.nonterminals[j]? = some m → n.node? = some k → m.node? = some k → i = j
  reserved : ∀ {i : Nat} {n : Nonterminal} {k : Kind}, g.nonterminals[i]? = some n →
    n.node? = some k → k ≠ .error ∧ k ≠ .missing ∧ k ≠ .sourceFile

theorem namesNodes_of_nodup {g : Grammar}
    (distinct : (g.nonterminals.toList.filterMap (·.node?)).Nodup)
    (reserved : ∀ k ∈ g.nonterminals.toList.filterMap (·.node?),
      k ≠ .error ∧ k ≠ .missing ∧ k ≠ .sourceFile) : g.NamesNodes := by
  have apart {i j : Nat} {n m : Nonterminal} {k : Kind} (less : i < j)
      (first : g.nonterminals[i]? = some n) (second : g.nonterminals[j]? = some m)
      (node : n.node? = some k) (node' : m.node? = some k) : False := by
    rw [← Array.getElem?_toList] at first second
    obtain ⟨bound, rfl⟩ := List.getElem?_eq_some_iff.1 first
    obtain ⟨bound', rfl⟩ := List.getElem?_eq_some_iff.1 second
    exact List.pairwise_iff_getElem.1 (List.pairwise_filterMap.1 distinct) i j bound bound' less
      k node k node' rfl
  refine ⟨?_, ?_⟩
  · intro i j n m k first second node node'
    rcases Nat.lt_trichotomy i j with less | same | less
    · exact (apart less first second node node').elim
    · exact same
    · exact (apart less second first node' node).elim
  · intro i n k known node
    rw [← Array.getElem?_toList] at known
    exact reserved k (List.mem_filterMap.2 ⟨n, List.mem_of_getElem? known, node⟩)

end Grammar

namespace Tree

/-- The kind of the only child, if that is a token. -/
def onlyToken? : List Tree → Option Kind
  | [.leaf k _] => some k
  | _ => none

/-- What an element counts for in the node around it. -/
def outline : Tree → List Kind
  | .leaf k _ => if k.isTrivia then [] else [k]
  | .node k _ cs =>
    if k = .error then [] else if k = .missing then [(onlyToken? cs).getD .missing] else [k]

def outlines (ts : List Tree) : List Kind := ts.flatMap outline

@[simp] theorem outlines_nil : outlines [] = [] := rfl

@[simp] theorem outlines_cons (t : Tree) (ts : List Tree) :
    outlines (t :: ts) = outline t ++ outlines ts := rfl

@[simp] theorem outlines_append (ts us : List Tree) :
    outlines (ts ++ us) = outlines ts ++ outlines us := by
  simp [outlines]

theorem outline_node {k : Kind} {m : Mark} {cs : List Tree} (notError : k ≠ .error)
    (notMissing : k ≠ .missing) : (node k m cs).outline = [k] := by
  rw [outline, if_neg notError, if_neg notMissing]

/-- If the node is one of a nonterminal, its children are what the nonterminal allows. -/
def ConformsTo (g : Grammar) (t : Tree) : Prop :=
  ∀ (i : Nat) (n : Nonterminal), g.nonterminals[i]? = some n → n.node? = some t.kind →
    ∃ p ∈ g.productions, p.lhs = i ∧ g.Expands p.rhs (outlines t.children)

/-- All nodes conform. -/
def AllConform (g : Grammar) (t : Tree) : Prop := ∀ u ∈ t.nodes, u.ConformsTo g

def AllConformIn (g : Grammar) (ts : List Tree) : Prop := ∀ u ∈ nodesAll ts, u.ConformsTo g

variable {g : Grammar}

@[simp] theorem allConform_leaf (k : Kind) (text : String) : (leaf k text).AllConform g := by
  simp [AllConform, nodes]

@[simp] theorem allConformIn_nil : AllConformIn g [] := by simp [AllConformIn, nodesAll]

@[simp] theorem allConformIn_cons (t : Tree) (ts : List Tree) :
    AllConformIn g (t :: ts) ↔ t.AllConform g ∧ AllConformIn g ts := by
  simp only [AllConformIn, AllConform, nodesAll, List.mem_append, or_imp, forall_and]

@[simp] theorem allConformIn_append (ts us : List Tree) :
    AllConformIn g (ts ++ us) ↔ AllConformIn g ts ∧ AllConformIn g us := by
  simp only [AllConformIn, nodesAll_append, List.mem_append, or_imp, forall_and]

theorem allConform_node {k : Kind} {m : Mark} {cs : List Tree} :
    (node k m cs).AllConform g ↔ (node k m cs).ConformsTo g ∧ AllConformIn g cs := by
  simp only [AllConform, AllConformIn, nodes, List.forall_mem_cons]

/-- A node that belongs to no nonterminal. -/
theorem conformsTo_reserved (names : g.NamesNodes) {k : Kind} {m : Mark} {cs : List Tree}
    (reserved : k = .error ∨ k = .missing ∨ k = .sourceFile) : (node k m cs).ConformsTo g := by
  intro i n known is
  obtain ⟨notError, notMissing, notRoot⟩ := names.reserved known is
  rcases reserved with is | is | is
  · exact absurd is notError
  · exact absurd is notMissing
  · exact absurd is notRoot

/-! Numbering changes neither outlines nor what conforms. -/

theorem onlyToken?_cons_cons (t u : Tree) (us : List Tree) : onlyToken? (t :: u :: us) = none := by
  cases t <;> rfl

theorem onlyToken?_numberAllFrom (next : Nat) (ts : List Tree) :
    onlyToken? (numberAllFrom next ts).1 = onlyToken? ts := by
  cases ts with
  | nil => rfl
  | cons t ts =>
    cases ts with
    | nil =>
      cases t with
      | leaf k text => rfl
      | node k m cs =>
        simp only [numberAllFrom, numberFrom]
        split <;> rfl
    | cons u us => simp only [numberAllFrom, onlyToken?_cons_cons]

theorem outline_numberFrom (next : Nat) (t : Tree) : (numberFrom next t).1.outline = t.outline := by
  cases t with
  | leaf k text => rfl
  | node k m cs =>
    rw [numberFrom]
    split
    · rfl
    · simp only [outline, onlyToken?_numberAllFrom]

theorem outlines_numberAllFrom (next : Nat) (ts : List Tree) :
    outlines (numberAllFrom next ts).1 = outlines ts := by
  induction ts generalizing next with
  | nil => rfl
  | cons t ts ih =>
    rw [numberAllFrom]
    dsimp only
    rw [outlines_cons, outline_numberFrom, ih, outlines_cons]

theorem outlines_children_numberFrom (next : Nat) (t : Tree) :
    outlines (numberFrom next t).1.children = outlines t.children := by
  cases t with
  | leaf k text => rfl
  | node k m cs =>
    rw [numberFrom]
    split
    · rfl
    · exact outlines_numberAllFrom (next + 1) cs

mutual

theorem allConform_numberFrom (next : Nat) (t : Tree) (h : t.AllConform g) :
    (numberFrom next t).1.AllConform g := by
  cases t with
  | leaf k text => exact h
  | node k m cs =>
    obtain ⟨own, below⟩ := allConform_node.1 h
    rw [numberFrom]
    split
    · exact allConform_node.2 ⟨own, below⟩
    · refine allConform_node.2 ⟨?_, allConformIn_numberAllFrom (next + 1) cs below⟩
      intro i n known is
      obtain ⟨p, production, lhs, expands⟩ := own i n known is
      refine ⟨p, production, lhs, ?_⟩
      rw [children, outlines_numberAllFrom]
      exact expands

theorem allConformIn_numberAllFrom (next : Nat) (ts : List Tree) (h : AllConformIn g ts) :
    AllConformIn g (numberAllFrom next ts).1 := by
  cases ts with
  | nil => exact h
  | cons t ts =>
    obtain ⟨first, others⟩ := (allConformIn_cons t ts).1 h
    rw [numberAllFrom]
    dsimp only
    exact (allConformIn_cons _ _).2 ⟨allConform_numberFrom next t first,
      allConformIn_numberAllFrom _ ts others⟩

end

mutual

theorem nodes_of_placedNodes {offset start : Nat} {t u : Tree}
    (member : (start, u) ∈ placedNodes offset t) : u.nodes ⊆ t.nodes := by
  cases t with
  | leaf k text => simp [placedNodes] at member
  | node k m cs =>
    rw [placedNodes] at member
    rcases List.mem_cons.mp member with is | member
    · obtain ⟨_, rfl⟩ := Prod.mk.inj is
      exact List.Subset.refl _
    · rw [nodes]
      exact fun v inside => .tail _ (nodes_of_placedNodesAll member inside)

theorem nodes_of_placedNodesAll {offset start : Nat} {ts : List Tree} {u : Tree}
    (member : (start, u) ∈ placedNodesAll offset ts) : u.nodes ⊆ nodesAll ts := by
  cases ts with
  | nil => simp [placedNodesAll] at member
  | cons t ts =>
    rw [placedNodesAll] at member
    rw [nodesAll]
    rcases List.mem_append.mp member with first | others
    · exact fun v inside => List.mem_append_left _ (nodes_of_placedNodes first inside)
    · exact fun v inside => List.mem_append_right _ (nodes_of_placedNodesAll others inside)

end

end Tree

end ShaderTree
