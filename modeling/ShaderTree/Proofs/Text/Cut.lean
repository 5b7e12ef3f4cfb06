import Mathlib.Data.Option.Basic
import ShaderTree.Text.Bytes

/-! Cuts at the border of two known parts of a text. -/
namespace ShaderTree.Text

@[simp] theorem cut?_size_append (a b : List Char) : cut? (size a) (a ++ b) = some (a, b) := by
  induction a with
  | nil => simp [cut?]
  | cons c a ih =>
    have positive := c.utf8Size_pos
    obtain ⟨n, eq⟩ : ∃ n, size (c :: a) = n + 1 := ⟨size (c :: a) - 1, by rw [size_cons]; omega⟩
    have rest : n + 1 - c.utf8Size = size a := by rw [← eq, size_cons]; omega
    have fits : c.utf8Size ≤ n + 1 := by rw [← eq, size_cons]; omega
    rw [eq, List.cons_append, cut?, if_pos fits, rest, ih]
    rfl

@[simp] theorem cutFrom_size_append (a b : List Char) : cutFrom (size a) (a ++ b) = (a, b) := by
  induction a with
  | nil => simp [cutFrom]
  | cons c a ih =>
    have positive := c.utf8Size_pos
    obtain ⟨n, eq⟩ : ∃ n, size (c :: a) = n + 1 := ⟨size (c :: a) - 1, by rw [size_cons]; omega⟩
    have rest : n + 1 - c.utf8Size = size a := by rw [← eq, size_cons]; omega
    rw [eq, List.cons_append, cutFrom, rest, ih]

theorem eq_nil_of_size {a : List Char} (h : size a = 0) : a = [] := by
  have short := length_le_size a
  exact List.length_eq_zero_iff.1 (by omega)

/-- Of two cuts of one text the later one cuts behind the earlier one. -/
theorem exists_of_append_eq {p q p' q' : List Char} (same : p ++ q = p' ++ q')
    (short : size p ≤ size p') : ∃ m, p' = p ++ m ∧ q = m ++ q' := by
  rcases List.append_eq_append_iff.1 same with ⟨m, rfl, rfl⟩ | ⟨m, rfl, rfl⟩
  · exact ⟨m, rfl, rfl⟩
  · rw [size_append] at short
    obtain rfl : m = [] := eq_nil_of_size (by omega)
    exact ⟨[], by simp⟩

theorem eq_of_append_eq {p q p' q' : List Char} (same : p ++ q = p' ++ q')
    (length : size p = size p') : p = p' ∧ q = q' := by
  obtain ⟨m, rfl, rfl⟩ := exists_of_append_eq same (Nat.le_of_eq length)
  rw [size_append] at length
  obtain rfl : m = [] := eq_nil_of_size (by omega)
  simp

theorem size_le_of_length_le {p q p' q' : List Char} (same : p ++ q = p' ++ q')
    (short : size p ≤ size p') : p.length ≤ p'.length := by
  obtain ⟨m, rfl, _⟩ := exists_of_append_eq same short
  simp

/-- A cut at the next border is not in front of the offset. -/
theorem le_size_cutFrom (n : Nat) (cs : List Char) : min n (size cs) ≤ size (cutFrom n cs).1 := by
  fun_induction cutFrom n cs with
  | case1 => omega
  | case2 => simp
  | case3 n c cs before after cut ih =>
    rw [cut] at ih
    simp only [size_cons] at ih ⊢
    omega

/-- No border between the offset and the cut is left out. -/
theorem size_cutFrom_le {n : Nat} {cs a b : List Char} (border : cs = a ++ b)
    (behind : min n (size cs) ≤ size a) : size (cutFrom n cs).1 ≤ size a := by
  fun_induction cutFrom n cs generalizing a with
  | case1 => exact Nat.zero_le _
  | case2 => exact Nat.zero_le _
  | case3 n c cs before after cut ih =>
    have positive := c.utf8Size_pos
    simp only [size_cons] at behind ⊢
    cases a with
    | nil =>
      rw [size_nil] at behind
      omega
    | cons d a =>
      obtain ⟨rfl, rfl⟩ := List.cons.inj border
      rw [size_cons] at behind ⊢
      have rest := ih rfl (by omega)
      rw [cut] at rest
      exact Nat.add_le_add_left rest _

/-- The text between two borders. -/
theorem slice?_size_append {s : String} {a b c : List Char} (whole : s.toList = a ++ (b ++ c)) :
    slice? s (size a) (size (a ++ b)) = some (String.ofList b) := by
  simp [slice?, whole, guard, pure, bind]

end ShaderTree.Text
