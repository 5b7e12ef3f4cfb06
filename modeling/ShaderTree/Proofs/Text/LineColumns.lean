import Mathlib.Data.List.Basic
import Mathlib.Data.List.TakeWhile
import Mathlib.Data.Option.Basic
import ShaderTree.Proofs.Text.Lines
import ShaderTree.Proofs.Word
import ShaderTree.Text.Position

/-! Offsets as lines and columns, and back. An offset stands in the last line that starts up to it, and
its column leads back to it. The start of a line is reached from the line in front of it as well, by the
column behind the break, and nothing else is reached twice. -/
namespace ShaderTree.LineIndex

open Text

/-- Lines start in order, the first at 0 and none behind the end of the text. -/
structure Ordered (i : LineIndex) : Prop where
  first : i.lineStart? 0 = some 0
  increasing : i.starts.Pairwise (· < ·)
  inside : ∀ s ∈ i.starts, s ≤ i.length

theorem le_of_mem_startsAfterBreaks {offset s : Nat} {cs : List Char}
    (member : s ∈ startsAfterBreaks offset cs) : s ≤ offset + size cs := by
  induction cs generalizing offset with
  | nil => simp [startsAfterBreaks] at member
  | cons c cs ih =>
    rw [size_cons]
    simp only [startsAfterBreaks] at member
    split at member
    · rcases List.mem_cons.mp member with rfl | member
      · omega
      · have := ih member
        omega
    · have := ih member
      omega

theorem pairwise_startsAfterBreaks (offset : Nat) (cs : List Char) :
    (startsAfterBreaks offset cs).Pairwise (· < ·) := by
  induction cs generalizing offset with
  | nil => exact .nil
  | cons c cs ih =>
    simp only [startsAfterBreaks]
    split
    · exact .cons (fun s member => lt_of_mem_startsAfterBreaks member) (ih _)
    · exact ih _

theorem ordered_ofText (text : String) : (ofText text).Ordered where
  first := rfl
  increasing := .cons (fun _ member => lt_of_mem_startsAfterBreaks member)
    (pairwise_startsAfterBreaks 0 _)
  inside := by
    intro s member
    rcases List.mem_cons.mp member with rfl | member
    · exact Nat.zero_le _
    · have bound := le_of_mem_startsAfterBreaks member
      rwa [Nat.zero_add, size_toList] at bound

/-- The place is in its line, in front of the next one, and has the offset. -/
def Locates (i : LineIndex) (p : LineCol) (offset : Nat) : Prop :=
  ∃ start, i.lineStart? p.line = some start ∧ start + p.col = offset ∧
    ∀ next, i.lineStart? (p.line + 1) = some next → offset < next

section

variable {i : LineIndex} {offset : Nat} {p q : LineCol}

theorem Ordered.lt (ordered : i.Ordered) {m n a b : Nat} (lower : i.lineStart? m = some a)
    (upper : i.lineStart? n = some b) (before : m < n) : a < b := by
  obtain ⟨inside, rfl⟩ := List.getElem?_eq_some_iff.1 lower
  obtain ⟨inside', rfl⟩ := List.getElem?_eq_some_iff.1 upper
  exact List.pairwise_iff_getElem.1 ordered.increasing m n inside inside' before

/-- The line starts up to an offset are the first ones. -/
theorem Ordered.exists_last (ordered : i.Ordered) (offset : Nat) :
    ∃ front start behind, i.starts = front ++ start :: behind ∧
      i.starts.takeWhile (· ≤ offset) = front ++ [start] ∧ start ≤ offset ∧
      ∀ next ∈ behind.head?, offset < next := by
  have whole := List.takeWhile_append_dropWhile (p := fun s => decide (s ≤ offset)) (l := i.starts)
  have some : i.starts.takeWhile (· ≤ offset) ≠ [] := by
    obtain ⟨rest, starts⟩ := List.head?_eq_some_iff.1
      ((List.head?_eq_getElem? (l := i.starts)).trans ordered.first)
    simp [starts]
  obtain ⟨front, start, upTo⟩ := (List.eq_nil_or_concat' _).resolve_left some
  refine ⟨front, start, i.starts.dropWhile (· ≤ offset), ?_, upTo, ?_, fun next found => ?_⟩
  · rw [upTo, List.append_assoc] at whole
    exact whole.symm
  · have member : start ∈ i.starts.takeWhile (· ≤ offset) := by simp [upTo]
    simpa using List.mem_takeWhile_imp member
  · have refused := List.head?_dropWhile_not (fun s => decide (s ≤ offset)) i.starts
    rw [Option.mem_def.1 found] at refused
    simpa using refused

theorem locates_lineCol (ordered : i.Ordered) (inside : offset ≤ i.length) :
    i.Locates (i.lineCol offset) offset := by
  obtain ⟨front, start, behind, starts, upTo, before, ends⟩ := ordered.exists_last offset
  simp only [Locates, lineCol, lineStart?, Nat.min_eq_left inside, upTo]
  rw [starts]
  refine ⟨start, by simp, ?_, fun next found => ends next ?_⟩
  · rw [List.getLast?_append, List.getLast?_singleton]
    exact Nat.add_sub_cancel' before
  · simpa [List.head?_eq_getElem?, List.getElem?_append_right] using found

/-- No two places have the same offset. -/
theorem Locates.unique (ordered : i.Ordered) (here : i.Locates p offset) (there : i.Locates q offset) :
    p = q := by
  obtain ⟨start, line, col, ends⟩ := here
  obtain ⟨start', line', col', ends'⟩ := there
  have least {m n a : Nat} (upper : i.lineStart? n = some a) (before : m < n)
      (upTo : a ≤ offset) (ends : ∀ next, i.lineStart? (m + 1) = some next → offset < next) :
      False := by
    obtain ⟨inside, _⟩ := List.getElem?_eq_some_iff.1 upper
    have bound : m + 1 < i.starts.length := by omega
    have next : i.lineStart? (m + 1) = some i.starts[m + 1] := List.getElem?_eq_getElem bound
    have apart := ends _ next
    rcases Nat.lt_or_eq_of_le before with before | rfl
    · have := ordered.lt next upper before
      omega
    · have := Option.some.inj (next.symm.trans upper)
      omega
  have same : p.line = q.line := by
    rcases Nat.lt_trichotomy p.line q.line with before | same | behind
    · exact (least line' before (by omega) ends).elim
    · exact same
    · exact (least line behind (by omega) ends').elim
  rw [same] at line
  obtain rfl := Option.some.inj (line.symm.trans line')
  cases p
  cases q
  simp only [LineCol.mk.injEq]
  exact ⟨same, by simp only at col col'; omega⟩

theorem lineCol_eq_iff (ordered : i.Ordered) (inside : offset ≤ i.length) :
    i.lineCol offset = p ↔ i.Locates p offset :=
  ⟨fun is => is ▸ locates_lineCol ordered inside, (locates_lineCol ordered inside).unique ordered⟩

theorem offset?_eq_some : i.offset? p = .ok (some offset) ↔
    ∃ start, i.lineStart? p.line = some start ∧ start + p.col = offset ∧ offset < 2 ^ 32 ∧
      offset ≤ (i.lineStart? (p.line + 1)).getD i.length := by
  unfold offset?
  cases i.lineStart? p.line with
  | none => simp [pure, Except.pure]
  | some start =>
    simp only [bind_eq_ok, Word.add_eq_ok, pure, Except.pure, Except.ok.injEq,
      Option.ite_none_right_eq_some, Option.some.injEq, exists_eq_left']
    constructor
    · rintro ⟨_, ⟨word, rfl⟩, within, rfl⟩
      exact ⟨rfl, word, within⟩
    · rintro ⟨rfl, word, within⟩
      exact ⟨_, ⟨word, rfl⟩, within, rfl⟩

theorem offset?_eq_error {f : Fault} : i.offset? p = .error f ↔
    f = .overflow ∧ ∃ start, i.lineStart? p.line = some start ∧ 2 ^ 32 ≤ start + p.col := by
  unfold offset?
  cases i.lineStart? p.line with
  | none => simp [pure, Except.pure]
  | some start =>
    simp only [bind_eq_error, Word.add_eq_error, pure, Except.pure, reduceCtorEq, and_false,
      exists_false, or_false, Option.some.injEq, exists_eq_left']
    exact ⟨fun ⟨far, is⟩ => ⟨is.symm, far⟩, fun ⟨is, far⟩ => ⟨far, is.symm⟩⟩

end

/-- Reading a text counts its breaks, and the bytes behind the last one. -/
theorem advance_eq (p : Position) (offset : Nat) (cs : List Char) :
    p.advance cs = ⟨p.line + (startsAfterBreaks offset cs).length,
      match (startsAfterBreaks offset cs).getLast? with
      | some start => offset + size cs - start
      | none => p.column + size cs⟩ := by
  induction cs generalizing p offset with
  | nil => rfl
  | cons c cs ih =>
    rw [Position.advance, List.foldl_cons, ← Position.advance, ih (p.next c) (offset + c.utf8Size)]
    have whole : offset + c.utf8Size + size cs = offset + size (c :: cs) := by rw [size_cons]; omega
    simp only [startsAfterBreaks, whole, Position.next]
    by_cases isBreak : c = '\n'
    · subst isBreak
      simp only [if_true, List.length_cons, Nat.zero_add]
      cases starts : startsAfterBreaks (offset + Char.utf8Size '\n') cs with
      | nil =>
        simp only [List.getLast?_nil, List.getLast?_singleton, List.length_nil, ← whole,
          Nat.add_sub_cancel_left, Nat.zero_add]
      | cons s ss =>
        rw [List.getLast?_cons_cons]
        cases last : (s :: ss).getLast? with
        | none => simp at last
        | some start =>
          simp only [List.length_cons, Position.mk.injEq, and_true]
          omega
    · simp only [isBreak, if_false]
      cases starts : (startsAfterBreaks (offset + c.utf8Size) cs).getLast? with
      | none => simp only [size_cons, Nat.add_assoc]
      | some s => rfl

/-- Line and column of an offset are those of the position that reading up to there leads to. -/
theorem lineCol_size {text : String} {before behind : List Char}
    (whole : text.toList = before ++ behind) :
    (ofText text).lineCol (size before) =
      ⟨(Position.zero.advance before).line, (Position.zero.advance before).column⟩ := by
  have length : min (size before) text.utf8ByteSize = size before := by
    rw [← size_toList, whole, size_append]
    omega
  have upTo := takeWhile_startsAfterBreaks 0 before behind
  rw [Nat.zero_add] at upTo
  simp only [lineCol, ofText, length, whole]
  rw [List.takeWhile_cons_of_pos (by simp), upTo, advance_eq _ 0, List.length_cons,
    Nat.add_sub_cancel]
  simp only [Position.zero, Nat.zero_add, LineCol.mk.injEq, true_and]
  cases starts : startsAfterBreaks 0 before with
  | nil => rfl
  | cons s ss =>
    rw [List.getLast?_cons_cons]
    cases last : (s :: ss).getLast? with
    | none => simp at last
    | some start => rfl

/-- The place behind the break of the line in front of the one that starts at the offset. -/
def BehindBreak (i : LineIndex) (p : LineCol) (offset : Nat) : Prop :=
  i.lineCol offset = ⟨p.line + 1, 0⟩ ∧ ∃ start, i.lineStart? p.line = some start ∧ start + p.col = offset

/-- What leads to an offset is the line and column of the offset, and for the start of a line also the
column behind the break of the line in front of it. Every offset of the text that is a word is reached by
its line and column. There is no answer only where the sum of a line start and a column is no word. -/
theorem offset?_lineCol (text : String) :
    (∀ p offset, (ofText text).offset? p = .ok (some offset) ↔
      offset < 2 ^ 32 ∧ offset ≤ text.utf8ByteSize ∧
        ((ofText text).lineCol offset = p ∨ (ofText text).BehindBreak p offset)) ∧
    (∀ offset ≤ text.utf8ByteSize, offset < 2 ^ 32 →
      (ofText text).offset? ((ofText text).lineCol offset) = .ok (some offset)) ∧
    ∀ p f, (ofText text).offset? p = .error f ↔ f = .overflow ∧
      ∃ start, (ofText text).lineStart? p.line = some start ∧ 2 ^ 32 ≤ start + p.col := by
  have ordered := ordered_ofText text
  have both (p : LineCol) (offset : Nat) : (ofText text).offset? p = .ok (some offset) ↔
      offset < 2 ^ 32 ∧ offset ≤ text.utf8ByteSize ∧
        ((ofText text).lineCol offset = p ∨ (ofText text).BehindBreak p offset) := by
    rw [offset?_eq_some]
    constructor
    · rintro ⟨start, line, col, word, within⟩
      refine ⟨word, ?_⟩
      cases next : (ofText text).lineStart? (p.line + 1) with
      | none =>
        rw [next, Option.getD_none] at within
        refine ⟨within, .inl ((lineCol_eq_iff ordered within).2 ⟨start, line, col, ?_⟩)⟩
        rw [next]
        exact fun _ => nofun
      | some stop =>
        rw [next, Option.getD_some] at within
        have inside : offset ≤ text.utf8ByteSize :=
          Nat.le_trans within (ordered.inside stop (List.mem_of_getElem? next))
        refine ⟨inside, ?_⟩
        rcases Nat.lt_or_eq_of_le within with before | rfl
        · refine .inl ((lineCol_eq_iff ordered inside).2 ⟨start, line, col, fun s is => ?_⟩)
          obtain rfl := Option.some.inj (next.symm.trans is)
          exact before
        · refine .inr ⟨(lineCol_eq_iff ordered inside).2 ⟨offset, next, rfl, fun s is => ?_⟩,
            start, line, col⟩
          exact ordered.lt next is (Nat.lt_succ_self _)
    · rintro ⟨word, inside, here | ⟨behind, start, line, col⟩⟩
      · obtain ⟨start, line, col, ends⟩ := (lineCol_eq_iff ordered inside).1 here
        refine ⟨start, line, col, word, ?_⟩
        cases next : (ofText text).lineStart? (p.line + 1) with
        | none => exact inside
        | some stop => exact Nat.le_of_lt (ends stop next)
      · obtain ⟨stop, next, is, _⟩ := (lineCol_eq_iff ordered inside).1 behind
        refine ⟨start, line, col, word, ?_⟩
        rw [next, Option.getD_some, ← is]
        exact Nat.le_refl _
  exact ⟨both, fun offset inside word => (both _ _).2 ⟨word, inside, .inl rfl⟩,
    fun p f => offset?_eq_error⟩

/-- Behind a last break there is one more line, and a column of its own leads out of the words. -/
theorem offset?_lineCol_last_break : 2 ≤ "a\n".utf8ByteSize ∧
    (ofText "a\n").lineCol 2 = ⟨1, 0⟩ ∧ (ofText "a\n").offset? ⟨1, 0⟩ = .ok (some 2) ∧
    (ofText "a\n").offset? ⟨1, 4294967295⟩ = .error .overflow := by
  have inside : 2 ≤ "a\n".utf8ByteSize := by decide
  have place : (ofText "a\n").lineCol 2 = ⟨1, 0⟩ := by decide
  obtain ⟨_, back, far⟩ := offset?_lineCol "a\n"
  exact ⟨inside, place, place ▸ back 2 inside (by decide), (far _ _).2 ⟨rfl, 2, by decide, by decide⟩⟩

/-- Two places lead to the start of the second line of one line break. -/
theorem offset?_behind_break : (ofText "\n").offset? ⟨0, 1⟩ = .ok (some 1) ∧
    (ofText "\n").lineCol 1 ≠ ⟨0, 1⟩ ∧ (ofText "\n").offset? ⟨1, 0⟩ = .ok (some 1) := by
  decide

end ShaderTree.LineIndex
