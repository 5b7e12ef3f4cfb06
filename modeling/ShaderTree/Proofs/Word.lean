import Mathlib.Algebra.Group.Int.Defs
import Mathlib.Algebra.Group.Nat.Defs
import ShaderTree.Word

/-! When a sum or a difference is a word. -/
namespace ShaderTree.Word

theorem signed_eq (n : Nat) : signed n = ((n : Int) + 2 ^ 63) % 2 ^ 64 - 2 ^ 63 := rfl

theorem unsigned_eq (i : Int) : unsigned i = (i % 2 ^ 64).toNat := rfl

theorem add_eq (bits a b : Nat) :
    add bits a b = if a + b < 2 ^ bits then .ok (a + b) else .error .overflow := rfl

theorem sub_eq (bits a b : Nat) :
    sub bits a b = if b ≤ a ∧ a < 2 ^ bits then .ok (a - b) else .error .overflow := rfl

theorem checkSigned_eq (i : Int) :
    checkSigned i = if -2 ^ 63 ≤ i ∧ i < 2 ^ 63 then .ok i else .error .overflow := rfl

theorem add_eq_ok {bits a b c : Nat} : add bits a b = .ok c ↔ a + b < 2 ^ bits ∧ a + b = c := by
  rw [add_eq]
  split
  · rename_i fits
    simp [fits]
  · rename_i far
    simp [far]

theorem add_eq_error {bits a b : Nat} {f : Fault} :
    add bits a b = .error f ↔ 2 ^ bits ≤ a + b ∧ .overflow = f := by
  rw [add_eq]
  split
  · rename_i fits
    simp [Nat.not_le.2 fits]
  · rename_i far
    simp [Nat.le_of_not_lt far]

theorem sub_eq_ok {bits a b c : Nat} :
    sub bits a b = .ok c ↔ b ≤ a ∧ a < 2 ^ bits ∧ a - b = c := by
  rw [sub_eq]
  split
  · rename_i fits
    simp [fits]
  · rename_i far
    simp only [reduceCtorEq, false_iff]
    exact fun ⟨order, word, _⟩ => far ⟨order, word⟩

theorem checkSigned_eq_ok {i j : Int} : checkSigned i = .ok j ↔ -2 ^ 63 ≤ i ∧ i < 2 ^ 63 ∧ i = j := by
  rw [checkSigned_eq]
  split
  · rename_i fits
    rw [Except.ok.injEq]
    exact ⟨fun same => ⟨fits.1, fits.2, same⟩, fun h => h.2.2⟩
  · rename_i far
    simp only [reduceCtorEq, false_iff]
    exact fun ⟨lower, upper, _⟩ => far ⟨lower, upper⟩

end ShaderTree.Word
