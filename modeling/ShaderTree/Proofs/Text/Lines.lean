import ShaderTree.Proofs.Text.Cut
import ShaderTree.Text.LineIndex

/-! The start of the line of an offset is known from the text in front of the offset. -/
namespace ShaderTree.LineIndex

open Text

theorem lt_of_mem_startsAfterBreaks {offset s : Nat} {cs : List Char}
    (member : s ∈ startsAfterBreaks offset cs) : offset < s := by
  induction cs generalizing offset with
  | nil => simp [startsAfterBreaks] at member
  | cons c cs ih =>
    have positive := c.utf8Size_pos
    simp only [startsAfterBreaks] at member
    split at member
    · rcases List.mem_cons.mp member with rfl | member
      · omega
      · have := ih member
        omega
    · have := ih member
      omega

/-- The line starts up to an offset are those of the text in front of it. -/
theorem takeWhile_startsAfterBreaks (offset : Nat) (before behind : List Char) :
    (startsAfterBreaks offset (before ++ behind)).takeWhile (· ≤ offset + size before) =
      startsAfterBreaks offset before := by
  induction before generalizing offset with
  | nil =>
    rw [List.nil_append, startsAfterBreaks]
    cases starts : startsAfterBreaks offset behind with
    | nil => rfl
    | cons s ss =>
      have later : offset < s := lt_of_mem_startsAfterBreaks (starts ▸ List.mem_cons_self)
      have refused : ¬ s ≤ offset := by omega
      simp [refused]
  | cons c cs ih =>
    have rest := ih (offset + c.utf8Size)
    have same : offset + size (c :: cs) = offset + c.utf8Size + size cs := by
      rw [size_cons]; omega
    simp only [List.cons_append, startsAfterBreaks, same]
    split
    · rw [List.takeWhile_cons_of_pos (by simp), rest]
    · exact rest

/-- The last line start of a text stands behind its last break. -/
theorem getLast?_startsAfterBreaks {offset s : Nat} {cs : List Char}
    (last : (startsAfterBreaks offset cs).getLast? = some s) :
    ∃ a r, cs = a ++ '\n' :: r ∧ s = offset + size a + 1 := by
  induction cs generalizing offset with
  | nil => simp [startsAfterBreaks] at last
  | cons c cs ih =>
    simp only [startsAfterBreaks] at last
    split at last
    · rename_i isBreak
      subst isBreak
      cases starts : startsAfterBreaks (offset + Char.utf8Size '\n') cs with
      | nil =>
        rw [starts] at last
        refine ⟨[], cs, rfl, ?_⟩
        have is := Option.some.inj last
        rw [← is, size_nil]
        rfl
      | cons t ts =>
        rw [starts, List.getLast?_cons_cons, ← starts] at last
        obtain ⟨a, r, rfl, rfl⟩ := ih last
        exact ⟨'\n' :: a, r, rfl, by rw [size_cons]; omega⟩
    · obtain ⟨a, r, rfl, rfl⟩ := ih last
      exact ⟨c :: a, r, rfl, by rw [size_cons]; omega⟩

/-- The line of an offset starts at 0 or behind the last break in front of the offset. -/
theorem lineStart?_lineCol {text : String} {before behind : List Char}
    (whole : text.toList = before ++ behind) :
    ((ofText text).lineStart? ((ofText text).lineCol (size before)).line).getD 0 =
      (startsAfterBreaks 0 before).getLast?.getD 0 := by
  have length : min (size before) text.utf8ByteSize = size before := by
    rw [← size_toList, whole, size_append]
    omega
  have upTo := takeWhile_startsAfterBreaks 0 before behind
  rw [Nat.zero_add] at upTo
  simp only [lineCol, ofText, lineStart?, length, whole]
  rw [List.takeWhile_cons_of_pos (by simp), upTo, List.length_cons, Nat.add_sub_cancel]
  rw [← List.takeWhile_append_dropWhile (p := fun s => decide (s ≤ size before))
    (l := startsAfterBreaks 0 (before ++ behind)), upTo, ← List.cons_append,
    List.getElem?_append_left (by simp)]
  cases starts : startsAfterBreaks 0 before with
  | nil => rfl
  | cons s ss => rw [List.getLast?_eq_getElem?]; rfl

end ShaderTree.LineIndex
