import ShaderTree.Fault

/-!
Texts measured and cut in UTF-8 bytes. A cut falls on a character boundary or is refused; putting
the two sides of a cut together gives the text back.
-/
namespace ShaderTree.Text

def size : List Char → Nat
  | [] => 0
  | c :: cs => c.utf8Size + size cs

def cut? : Nat → List Char → Option (List Char × List Char)
  | 0, cs => some ([], cs)
  | _ + 1, [] => none
  | n + 1, c :: cs =>
    if c.utf8Size ≤ n + 1 then
      (cut? (n + 1 - c.utf8Size) cs).map fun (before, after) => (c :: before, after)
    else none

/-- Cuts at the first boundary at or after byte `n`, at the end if there is none. -/
def cutFrom : Nat → List Char → List Char × List Char
  | 0, cs => ([], cs)
  | _ + 1, [] => ([], [])
  | n + 1, c :: cs =>
    let (before, after) := cutFrom (n + 1 - c.utf8Size) cs
    (c :: before, after)

def slice? (s : String) (start stop : Nat) : Option String := do
  guard (start ≤ stop)
  let (_, rest) ← cut? start s.toList
  let (middle, _) ← cut? (stop - start) rest
  return String.ofList middle

def splice? (s : String) (start stop : Nat) (replacement : String) : Option String := do
  guard (start ≤ stop)
  let (before, rest) ← cut? start s.toList
  let (_, after) ← cut? (stop - start) rest
  return String.ofList before ++ replacement ++ String.ofList after

@[simp] theorem size_nil : size [] = 0 := rfl

@[simp] theorem size_cons (c : Char) (cs : List Char) : size (c :: cs) = c.utf8Size + size cs := rfl

@[simp] theorem size_append (a b : List Char) : size (a ++ b) = size a + size b := by
  induction a with
  | nil => simp
  | cons c cs ih => simp [ih, Nat.add_assoc]

theorem size_ofList (cs : List Char) : (String.ofList cs).utf8ByteSize = size cs := by
  induction cs with
  | nil => simp [String.ofList_nil]
  | cons c cs ih =>
    have hs : String.ofList (c :: cs) = String.singleton c ++ String.ofList cs := by
      rw [String.singleton_eq_ofList, ← String.ofList_append, List.singleton_append]
    rw [hs, String.utf8ByteSize_append, String.utf8ByteSize_singleton, ih, size_cons]

@[simp] theorem size_toList (s : String) : size s.toList = s.utf8ByteSize := by
  rw [← size_ofList, String.ofList_toList]

theorem length_le_size (cs : List Char) : cs.length ≤ size cs := by
  induction cs with
  | nil => simp
  | cons c cs ih =>
    have h := c.utf8Size_pos
    rw [List.length_cons, size_cons]
    omega

theorem append_of_cut? {n : Nat} {cs a b : List Char} (h : cut? n cs = some (a, b)) :
    a ++ b = cs ∧ size a = n := by
  fun_induction cut? n cs generalizing a b with
  | case1 => simp_all
  | case2 => simp at h
  | case3 n c cs hc ih =>
    obtain ⟨⟨p, q⟩, hp, he⟩ := Option.map_eq_some_iff.1 h
    obtain ⟨rfl, rfl⟩ := Prod.mk.inj he
    obtain ⟨h1, h2⟩ := ih hp
    refine ⟨by simp [h1], ?_⟩
    simp [h2]; omega
  | case4 => simp at h

theorem append_cutFrom (n : Nat) (cs : List Char) : (cutFrom n cs).1 ++ (cutFrom n cs).2 = cs := by
  fun_induction cutFrom n cs <;> simp_all

end ShaderTree.Text
