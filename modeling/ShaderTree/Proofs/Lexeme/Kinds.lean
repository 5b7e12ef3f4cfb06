import ShaderTree.Proofs.Lexeme.Boundary

/-! Every lexeme makes a token of a terminal kind, and none makes the end of input. -/
namespace ShaderTree

/-- A kind that the lexer gives to tokens. -/
def Kind.IsLexical (k : Kind) : Prop := k.index < Kind.eof.index

namespace Kind

instance : DecidablePred IsLexical := fun k => inferInstanceAs (Decidable (k.index < eof.index))

theorem IsLexical.isTerminal {k : Kind} (h : k.IsLexical) : k.isTerminal = true :=
  decide_eq_true (Nat.lt_succ_of_lt h)

theorem IsLexical.ne_eof {k : Kind} (h : k.IsLexical) : k ≠ .eof := by
  rintro rfl
  exact Nat.lt_irrefl _ h

theorem isLexical_of_word? {k : Kind} {word : String} (h : k.word? = some word) :
    k.IsLexical := by
  cases k <;> first | (simp [word?] at h; done) | decide

end Kind

namespace Lexeme

theorem isLexical_wordKind (word : String) : (wordKind word).IsLexical := by
  unfold wordKind keyword?
  split
  · rename_i k found
    exact Kind.isLexical_of_word? (by simpa using List.find?_some found)
  · split <;> decide

theorem isLexical_number (first : Char) (cs : List Char) : (number first cs).1.IsLexical := by
  have int : Kind.intNumber.IsLexical := by decide
  have float : Kind.floatNumber.IsLexical := by decide
  unfold number
  dsimp only
  split
  · exact int
  · split
    · exact float
    · split
      · exact int
      · exact float

theorem isLexical_point (cs : List Char) : (point cs).1.IsLexical := by
  have dot : Kind.dot.IsLexical := by decide
  have float : Kind.floatNumber.IsLexical := by decide
  unfold point
  dsimp only
  split
  · exact dot
  · exact float

theorem isLexical_mark {c : Char} {cs : List Char} {k : Kind} (h : (mark c cs).1 = some k) :
    k.IsLexical := by
  have listed : ∀ m ∈ marks, m.2.index < Kind.eof.index := by decide
  unfold mark at h
  split at h
  · rename_i text k' found
    obtain rfl : k' = k := by simpa using h
    exact listed _ (List.mem_of_find?_eq_some found)
  · simp at h

theorem isLexical_slashed {cs : List Char} {k : Kind} (h : (slashed cs).1 = some k) :
    k.IsLexical := by
  unfold slashed at h
  split at h
  · obtain rfl : Kind.lineComment = k := by simpa using h
    decide
  · split at h
    · obtain rfl : Kind.blockComment = k := by simpa using h
      decide
    · obtain rfl : Kind.error = k := by simpa using h
      decide
  · exact isLexical_mark h

theorem isLexical_stringLiteral {cs : List Char} {k : Kind}
    (h : (stringLiteral cs).1 = some k) : k.IsLexical := by
  unfold stringLiteral at h
  dsimp only at h
  split at h
  · obtain rfl : Kind.string = k := by simpa using h
    decide
  · obtain rfl : Kind.error = k := by simpa using h
    decide

theorem isLexical_charLiteral {cs : List Char} {k : Kind}
    (h : (charLiteral cs).1 = some k) : k.IsLexical := by
  unfold charLiteral at h
  dsimp only at h
  split at h
  · obtain rfl : Kind.char = k := by simpa using h
    decide
  · simp at h
  · simp at h

theorem isLexical_munch {c : Char} {cs : List Char} {k : Kind} (h : (munch c cs).1 = some k) :
    k.IsLexical := by
  unfold munch at h
  split_ifs at h
  · obtain rfl : Kind.whitespace = k := by simpa using h
    decide
  · rw [← Option.some.inj h]
    exact isLexical_wordKind _
  · rw [← Option.some.inj h]
    exact isLexical_number _ _
  · rw [← Option.some.inj h]
    exact isLexical_point _
  · exact isLexical_stringLiteral h
  · exact isLexical_charLiteral h
  · obtain rfl : Kind.preprocessor = k := by simpa using h
    decide
  · exact isLexical_slashed h
  · exact isLexical_mark h

theorem isLexical_split {cs : List Char} {l : Lexeme} {k : Kind} (member : l ∈ split cs)
    (h : l.kind? = some k) : k.IsLexical := by
  fun_induction split cs with
  | case1 => simp at member
  | case2 c cs k' n found ih =>
    rcases List.mem_cons.mp member with rfl | member
    · exact isLexical_munch (show (munch c cs).1 = some k by rw [found]; exact h)
    · exact ih member

/-- Joining adds no kinds. -/
theorem kind?_joinFailures {ls : List Lexeme} {l : Lexeme} {k : Kind}
    (member : l ∈ joinFailures ls) (h : l.kind? = some k) : ∃ m ∈ ls, m.kind? = some k := by
  induction ls with
  | nil => simp [joinFailures] at member
  | cons m ms ih =>
    rcases joinFailures_cons m ms with ⟨x, rest, joined, _, _, merged⟩ | ⟨_, kept⟩
    · rw [merged] at member
      rcases List.mem_cons.mp member with rfl | member
      · simp at h
      · obtain ⟨n, member, same⟩ := ih (by rw [joined]; exact .tail _ member)
        exact ⟨n, .tail _ member, same⟩
    · rw [kept] at member
      rcases List.mem_cons.mp member with rfl | member
      · exact ⟨l, .head _, h⟩
      · obtain ⟨n, member, same⟩ := ih member
        exact ⟨n, .tail _ member, same⟩

theorem isLexical_joined {cs : List Char} {l : Lexeme} (member : l ∈ joined cs)
    (next : Option Char) : (l.kindBefore next).IsLexical := by
  have known {k : Kind} (h : l.kind? = some k) : k.IsLexical := by
    obtain ⟨m, member, same⟩ := kind?_joinFailures member h
    exact isLexical_split member same
  unfold kindBefore
  split
  · decide
  · split <;> decide
  · split <;> decide
  · rename_i k _ _ found
    exact known found

end Lexeme

end ShaderTree
