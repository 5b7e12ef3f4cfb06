/-!
Why an operation has no answer: its arguments break a promise that its callers make.
-/
namespace ShaderTree

inductive Fault where
  | reversedRange
  | badCut
  | outsideTree
  /-- A tree node's kind where a token's is needed. -/
  | notTerminal
  | noToken
  /-- A reduction that the table gives no way on from. -/
  | noGoto
  | overflow
  /-- More steps than the bound computed from the input. -/
  | outOfFuel
  deriving DecidableEq

theorem bind_eq_ok {α β ε : Type} {x : Except ε α} {f : α → Except ε β} {b : β} :
    (x >>= f) = .ok b ↔ ∃ a, x = .ok a ∧ f a = .ok b := by
  cases x <;> simp [bind, Except.bind]

theorem bind_eq_error {α β ε : Type} {x : Except ε α} {f : α → Except ε β} {e : ε} :
    (x >>= f) = .error e ↔ x = .error e ∨ ∃ a, x = .ok a ∧ f a = .error e := by
  cases x <;> simp [bind, Except.bind]

end ShaderTree
