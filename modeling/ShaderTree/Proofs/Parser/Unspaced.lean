import Mathlib.Order.MinMax
import ShaderTree.Proofs.Parser.Placed
import ShaderTree.Proofs.Tree.Shape

/-! Texts, trees, diagnostics and stacks with their blanks and comments left out, and how offsets move
when that is done. -/
namespace ShaderTree

open Token (Label label chars hasText)

namespace Token

def isBlank (l : Label) : Bool := l.1.isTrivia

/-- Labels without blanks and comments. -/
def unspaced (ls : List Label) : List Label := ls.filter (!isBlank ·)

@[simp] theorem unspaced_append (ls ls' : List Label) :
    unspaced (ls ++ ls') = unspaced ls ++ unspaced ls' :=
  List.filter_append ..

theorem unspaced_cons_of_blank {l : Label} (blank : l.1.isTrivia = true) (ls : List Label) :
    unspaced (l :: ls) = unspaced ls :=
  List.filter_cons_of_neg (by simp [isBlank, blank])

theorem unspaced_cons {l : Label} (word : l.1.isTrivia = false) (ls : List Label) :
    unspaced (l :: ls) = l :: unspaced ls :=
  List.filter_cons_of_pos (by simp [isBlank, word])

@[simp] theorem unspaced_unspaced (ls : List Label) : unspaced (unspaced ls) = unspaced ls := by
  simp [unspaced]

theorem filter_hasText_unspaced (ls : List Label) :
    (unspaced ls).filter hasText = unspaced (ls.filter hasText) :=
  List.filter_filter.trans ((List.filter_congr fun _ _ => Bool.and_comm ..).trans List.filter_filter.symm)

/-- Where an offset comes to lie when the blanks and comments in front of it are left out. -/
def closeUp : List Label → Nat → Nat
  | [], _ => 0
  | l :: ls, offset =>
    if offset = 0 then 0
    else (if l.1.isTrivia then 0 else l.2.utf8ByteSize) + closeUp ls (offset - l.2.utf8ByteSize)

theorem closeUp_mono (ls : List Label) : Monotone (closeUp ls) := by
  induction ls with
  | nil => exact fun _ _ _ => le_rfl
  | cons l ls ih =>
    intro a b le
    by_cases zero : a = 0
    · simp [closeUp, zero]
    · have some : b ≠ 0 := by omega
      simp only [closeUp, zero, some, if_false]
      exact Nat.add_le_add_left (ih (Nat.sub_le_sub_right le _)) _

/-- The end of some tokens moves to where they end without blanks. -/
theorem closeUp_size {xs ys : List Label} (texts : ∀ l ∈ xs, hasText l = true) :
    closeUp (xs ++ ys) (Text.size (chars xs)) = Text.size (chars (unspaced xs)) := by
  induction xs with
  | nil => cases ys <;> rfl
  | cons l xs ih =>
    obtain ⟨own, others⟩ := List.forall_mem_cons.1 texts
    have positive := size_pos_of_hasText own
    have size : Text.size (chars (l :: xs)) = l.2.utf8ByteSize + Text.size (chars xs) := by
      rw [chars_cons, Text.size_append, Text.size_toList]
    have some : Text.size (chars (l :: xs)) ≠ 0 := by omega
    rw [List.cons_append, closeUp, if_neg some, size, Nat.add_sub_cancel_left, ih others]
    cases blank : l.1.isTrivia with
    | true => rw [unspaced_cons_of_blank blank, if_pos rfl, Nat.zero_add]
    | false => rw [unspaced_cons blank, chars_cons, Text.size_append, Text.size_toList, if_neg (by simp)]

end Token

open Token (unspaced closeUp)

def ByteRange.moved (f : Nat → Nat) (r : ByteRange) : ByteRange := ⟨f r.start, f r.stop⟩

/-- The same diagnostic with its places moved. -/
def Diagnostic.moved (f : Nat → Nat) (d : Diagnostic) : Diagnostic :=
  { d with
    range := d.range.moved f
    related := d.related.map fun r => { r with range := r.range.moved f } }

theorem ByteRange.cover_moved {f : Nat → Nat} (mono : Monotone f) (r s : ByteRange) :
    (r.cover s).moved f = (r.moved f).cover (s.moved f) := by
  simp only [moved, cover, mono.map_min, mono.map_max]

namespace Tree

mutual

/-- What a tree leaves of itself among others: a blank or a comment nothing. -/
def kept : Tree → List Tree
  | leaf k text => if k.isTrivia then [] else [leaf k text]
  | node k m cs => [node k m (bareAll cs)]

/-- Trees without blanks and comments. -/
def bareAll : List Tree → List Tree
  | [] => []
  | t :: ts => kept t ++ bareAll ts

end

/-- A tree without its blanks and comments. -/
def bare : Tree → Tree
  | leaf k text => leaf k text
  | node k m cs => node k m (bareAll cs)

/-- Trees without blanks, comments and marks. -/
def gist (ts : List Tree) : List Tree := plainAll (bareAll ts)

variable {k : Kind} {ts us : List Tree}

@[simp] theorem gist_nil : gist [] = [] := by simp [gist, bareAll, plainAll]

theorem gist_blank (blank : k.isTrivia = true) (text : String) (ts : List Tree) :
    gist (leaf k text :: ts) = gist ts := by
  rw [gist, bareAll, kept, if_pos blank, List.nil_append, gist]

theorem gist_leaf (word : k.isTrivia = false) (text : String) (ts : List Tree) :
    gist (leaf k text :: ts) = leaf k text :: gist ts := by
  rw [gist, bareAll, kept, if_neg (by simp [word]), List.singleton_append, plainAll, plain, gist]

theorem gist_node (k : Kind) (m : Mark) (cs ts : List Tree) :
    gist (node k m cs :: ts) = node k {} (gist cs) :: gist ts := by
  rw [gist, bareAll, kept, List.singleton_append, plainAll, plain, gist, gist]

@[simp] theorem gist_append (ts us : List Tree) : gist (ts ++ us) = gist ts ++ gist us := by
  induction ts with
  | nil => simp
  | cons t ts ih =>
    cases t with
    | leaf k text =>
      cases blank : k.isTrivia with
      | true => rw [List.cons_append, gist_blank blank, gist_blank blank, ih]
      | false => rw [List.cons_append, gist_leaf blank, gist_leaf blank, ih, List.cons_append]
    | node k m cs => rw [List.cons_append, gist_node, gist_node, ih, List.cons_append]

theorem plain_bare_node (k : Kind) (m : Mark) (cs : List Tree) :
    (node k m cs).bare.plain = node k {} (gist cs) := by
  rw [bare, plain, gist]

theorem gist_map_leaf {tokens : List Token} (blank : ∀ t ∈ tokens, t.kind.isTrivia = true) :
    gist (tokens.map Config.leaf) = [] := by
  induction tokens with
  | nil => exact gist_nil
  | cons t ts ih =>
    obtain ⟨own, others⟩ := List.forall_mem_cons.1 blank
    exact (gist_blank own _ _).trans (ih others)

mutual

/-- Leaving blanks out of trees leaves them out of the leaves. -/
theorem leavesAll_gist_singleton (t : Tree) : leavesAll (gist [t]) = unspaced t.leaves := by
  cases t with
  | leaf k text =>
    cases blank : k.isTrivia with
    | true =>
      rw [gist_blank blank, gist_nil, leaves, Token.unspaced_cons_of_blank blank]
      rfl
    | false =>
      rw [gist_leaf blank, gist_nil, leaves, Token.unspaced_cons blank]
      rfl
  | node k m cs =>
    have below := leavesAll_gist cs
    rw [gist_node, gist_nil, leaves, ← below]
    exact List.append_nil _

theorem leavesAll_gist (ts : List Tree) : leavesAll (gist ts) = unspaced (leavesAll ts) := by
  cases ts with
  | nil =>
    rw [gist_nil]
    rfl
  | cons t ts =>
    have first := leavesAll_gist_singleton t
    have others := leavesAll_gist ts
    rw [← List.singleton_append, gist_append, leavesAll_append, first, others, leavesAll_append,
      Token.unspaced_append]
    exact congrArg (unspaced · ++ _) (List.append_nil _).symm

end

end Tree

end ShaderTree
