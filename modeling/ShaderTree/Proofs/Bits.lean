import Mathlib.Data.Nat.Bitwise

/-! Sets of numbers as the bits of one number, and tables of such sets in the bits of one number
again. A union or a comparison of them is a single step where a proof is checked by evaluation, so
that facts about a whole grammar can be. -/
namespace ShaderTree.Bits

def subset (s t : Nat) : Bool := Nat.beq (s &&& t) s

theorem testBit_of_subset {s t i : Nat} (subset : subset s t = true)
    (member : s.testBit i = true) : t.testBit i = true := by
  have both : (s &&& t).testBit i = true := by rwa [Nat.eq_of_beq_eq_true subset]
  rw [Nat.testBit_and, member, Bool.true_and] at both
  exact both

def disjoint (s t : Nat) : Bool := Nat.beq (s &&& t) 0

theorem not_disjoint {s t i : Nat} (left : s.testBit i = true) (right : t.testBit i = true) :
    disjoint s t = false := by
  cases is : disjoint s t with
  | false => rfl
  | true =>
    have none : (s &&& t).testBit i = false := by
      rw [Nat.eq_of_beq_eq_true is, Nat.zero_testBit]
    rw [Nat.testBit_and, left, right] at none
    cases none

/-- Whether a number is in a set. -/
def has (s i : Nat) : Bool := Nat.beq (Nat.land (Nat.shiftRight s i) 1) 1

@[simp] theorem has_eq (s i : Nat) : has s i = s.testBit i := by
  have same : Nat.land (Nat.shiftRight s i) 1 = (s.testBit i).toNat := by
    change s >>> i &&& 1 = _
    rw [Nat.and_one_is_mod, Nat.toNat_testBit, Nat.shiftRight_eq_div_pow]
  rw [has, same]
  cases s.testBit i <;> rfl

/-- The set at a place of a table whose sets have `size` bits each. -/
def row (size table i : Nat) : Nat := (table >>> (i * size)) % 2 ^ size

/-- Adds a set to the one at a place of a table. -/
def addRow (size table i s : Nat) : Nat := table ||| s <<< (i * size)

/-- A fold that knows each number before it goes on to the next element. It is written with the
recursors themselves, which take fewer steps to evaluate than a recursive definition. -/
def foldNow {α : Type} (f : Nat → α → Nat) (xs : List α) : Nat → Nat :=
  List.rec (fun s => s) (fun x _ go s => Nat.casesOn (f s x) (go 0) fun n => go (n + 1)) xs

theorem all_of_parts {α : Type} {f : α → Bool} {xs : List α} (n : Nat)
    (front : (xs.take n).all f = true) (back : (xs.drop n).all f = true) : xs.all f = true := by
  rw [← List.take_append_drop n xs, List.all_append, front, back]
  rfl

/-- Repeats a step until it changes nothing. -/
def saturate (step : Nat → Nat) : Nat → Nat → Nat
  | 0, s => s
  | rounds + 1, s => bif Nat.beq (step s) s then s else saturate step rounds (step s)

end ShaderTree.Bits
