import ShaderTree.Proofs.Parser.Bound

/-! Edits that do not lead from the old text to the new one. Only lengths are compared: where the edits
cannot be made in texts of these lengths, they are left out of account, or they speak of offsets that no
text has and a sum over them is no word. Other edits are taken at their word, and the old tokens need not
fit what the new text has in their places. -/
namespace ShaderTree

open Text (size)

/-- Edits that can be made one after the other, going by the lengths of the texts alone. -/
inductive Edit.Lead : Nat → List Edit → Nat → Prop
  | done (length : Nat) : Lead length [] length
  | step {length final : Nat} {e : Edit} {es : List Edit} (ordered : e.isWellFormed = true)
      (inside : e.oldEnd ≤ length) (others : Lead (length + e.newEnd - e.oldEnd) es final) :
      Lead length (e :: es) final

/-- Edits whose offsets, and the lengths that they give a text, are offsets in texts: these take fewer
than `2 ^ 63` bytes. -/
def Edit.Fit (length : Int) : List Edit → Prop
  | [] => True
  | e :: es => length < 2 ^ 63 ∧ e.oldEnd < 2 ^ 63 ∧ e.newEnd < 2 ^ 63 ∧
      -2 ^ 63 ≤ length + (e.newEnd - e.oldEnd) ∧ length + (e.newEnd - e.oldEnd) < 2 ^ 63 ∧
        Fit (length + (e.newEnd - e.oldEnd)) es

/-! Sums that fail are no words -/

theorem Word.eq_overflow_of_checkSigned {i : Int} {f : Fault} (h : checkSigned i = .error f) :
    f = .overflow := by
  unfold checkSigned at h
  split at h
  · cases h
  · exact (Except.error.inj h).symm

theorem Word.eq_overflow_of_sub {bits a b : Nat} {f : Fault} (h : sub bits a b = .error f) :
    f = .overflow := by
  unfold sub at h
  split at h
  · cases h
  · exact (Except.error.inj h).symm

theorem Word.eq_overflow_of_add {bits a b : Nat} {f : Fault} (h : add bits a b = .error f) :
    f = .overflow := (add_eq_error.1 h).2.symm

namespace EditMap

theorem eq_overflow_of_unchangedToOld {before : List Segment} {offset : Nat} {f : Fault}
    (h : unchangedToOld before offset = .error f) : f = .overflow := by
  unfold unchangedToOld at h
  split at h
  · rcases bind_eq_error.1 h with h | ⟨_, _, h⟩
    · exact Word.eq_overflow_of_sub h
    · exact Word.eq_overflow_of_add h
  · cases h

theorem eq_overflow_of_join {before touched : List Segment} {e : Edit} {f : Fault}
    (h : join before touched e = .error f) : f = .overflow := by
  unfold join at h
  split at h
  · rcases bind_eq_error.1 h with h | ⟨_, _, h⟩
    · exact Word.eq_overflow_of_sub h
    · rcases bind_eq_error.1 h with h | ⟨_, _, h⟩
      · exact Word.eq_overflow_of_add h
      · cases h
  · rcases bind_eq_error.1 h with h | ⟨_, _, h⟩
    · exact eq_overflow_of_unchangedToOld h
    · rcases bind_eq_error.1 h with h | ⟨_, _, h⟩
      · exact eq_overflow_of_unchangedToOld h
      · cases h

theorem eq_overflow_of_moved {d : Int} {offset : Nat} {f : Fault} (h : moved d offset = .error f) :
    f = .overflow := by
  unfold moved at h
  rcases bind_eq_error.1 h with h | ⟨_, _, h⟩
  · exact Word.eq_overflow_of_checkSigned h
  · cases h

theorem eq_overflow_of_movedAll {d : Int} {ss : List Segment} {f : Fault}
    (h : movedAll d ss = .error f) : f = .overflow := by
  induction ss with
  | nil => cases h
  | cons s ss ih =>
    unfold movedAll at h
    rcases bind_eq_error.1 h with h | ⟨_, _, h⟩
    · exact eq_overflow_of_moved h
    · rcases bind_eq_error.1 h with h | ⟨_, _, h⟩
      · exact eq_overflow_of_moved h
      · rcases bind_eq_error.1 h with h | ⟨_, _, h⟩
        · exact ih h
        · cases h

theorem eq_overflow_of_add {m : EditMap} {e : Edit} {f : Fault} (h : m.add e = .error f) :
    f = .overflow := by
  unfold add at h
  rcases bind_eq_error.1 h with h | ⟨_, _, h⟩
  · exact eq_overflow_of_join h
  · rcases bind_eq_error.1 h with h | ⟨_, _, h⟩
    · exact Word.eq_overflow_of_checkSigned h
    · rcases bind_eq_error.1 h with h | ⟨_, _, h⟩
      · exact eq_overflow_of_moved h
      · rcases bind_eq_error.1 h with h | ⟨_, _, h⟩
        · exact eq_overflow_of_movedAll h
        · cases h

theorem eq_overflow_of_addAll? {m : EditMap} {length : Nat} {edits : List Edit} {f : Fault}
    (h : addAll? m length edits = .error f) : f = .overflow := by
  induction edits generalizing m length with
  | nil => cases h
  | cons e es ih =>
    rw [addAll?] at h
    split at h
    · rcases bind_eq_error.1 h with h | ⟨_, _, h⟩
      · exact Word.eq_overflow_of_sub h
      · rcases bind_eq_error.1 h with h | ⟨_, _, h⟩
        · exact Word.eq_overflow_of_add h
        · rcases bind_eq_error.1 h with h | ⟨_, _, h⟩
          · split at h
            · cases h
            · exact eq_overflow_of_add h
          · exact ih h
    · cases h

end EditMap

/-! Edits whose offsets are those of texts can be made in some text of the length -/

/-- A text of some bytes. -/
def Text.dots (n : Nat) : List Char := List.replicate n '.'

@[simp] theorem Text.size_dots (n : Nat) : size (dots n) = n := by
  induction n with
  | zero => rfl
  | succ n ih =>
    rw [dots, List.replicate_succ, size_cons]
    change 1 + size (dots n) = n + 1
    omega

theorem Text.dots_add (m n : Nat) : dots (m + n) = dots m ++ dots n := by
  simp [dots]

theorem EditMap.exists_addAll? {m : EditMap} {length : Nat} {edits : List Edit} {old : List Char}
    (h : m.Describes (Text.dots length) old) (fit : Edit.Fit length edits) :
    ∃ map?, addAll? m length edits = .ok map? := by
  induction edits generalizing m length with
  | nil => exact ⟨_, rfl⟩
  | cons e es ih =>
    obtain ⟨short, _, _, _, short', others⟩ := fit
    by_cases fits : e.isWellFormed && e.oldEnd ≤ length
    · obtain ⟨wellFormed, inside⟩ : e.isWellFormed = true ∧ e.oldEnd ≤ length := by simpa using fits
      have bounds := wellFormed
      simp only [Edit.isWellFormed, Bool.and_eq_true, decide_eq_true_eq] at bounds
      have before : Text.dots length = Text.dots e.start ++
          (Text.dots (e.oldEnd - e.start) ++ Text.dots (length - e.oldEnd)) := by
        rw [← Text.dots_add, ← Text.dots_add]
        congr 1
        omega
      have after : Text.dots e.start ++ (Text.dots (e.newEnd - e.start) ++
          Text.dots (length - e.oldEnd)) = Text.dots (length + e.newEnd - e.oldEnd) := by
        rw [← Text.dots_add, ← Text.dots_add]
        congr 1
        omega
      rw [before] at h
      obtain ⟨m', added, describes⟩ := h.exists_edit (e := e) (y := Text.dots (e.newEnd - e.start))
        (by simp) (by simp; omega) (by simp; omega) (by rw [← before]; simp; omega)
        (by rw [after]; simp; omega)
      rw [after] at describes
      rw [addAll?_cons wellFormed inside (by omega) (by omega) added]
      refine ih describes ?_
      have length' : ((length + e.newEnd - e.oldEnd : Nat) : Int) = length + (e.newEnd - e.oldEnd) := by
        omega
      rwa [length']
    · rw [addAll?, if_neg fits]
      exact ⟨_, rfl⟩

/-- One change leaves what is in front of its edit and behind. -/
theorem Edit.parts_of_changes {text changed : String} {changes : List Change} {e : Edit}
    (applied : Change.applyAll text changes = .ok ([e], changed)) :
    ∃ p x y q, text.toList = p ++ (x ++ q) ∧ changed.toList = p ++ (y ++ q) ∧
      e.start = size p ∧ e.oldEnd = e.start + size x := by
  cases changes with
  | nil => cases applied
  | cons c cs =>
    obtain ⟨_, next, _, first, others, is⟩ := Change.exists_of_applyAll_cons applied
    obtain ⟨rfl, rfl⟩ := List.cons.inj is
    obtain ⟨⟨p, x, q, whole, result, start, stop, _⟩, _⟩ := EditMap.edit_apply first
    cases cs with
    | nil =>
      obtain rfl : next = changed := (Prod.mk.inj (Except.ok.inj others)).2
      exact ⟨p, x, _, q, whole, result, start, stop⟩
    | cons c cs =>
      obtain ⟨_, _, _, _, _, is⟩ := Change.exists_of_applyAll_cons others
      cases is


namespace Parser

variable {p : Parser} {old : Document} {edits : List Edit} {newText : String} {map : EditMap}

theorem lengthAfter_cons {n final : Int} {e : Edit} {es : List Edit} :
    lengthAfter n (e :: es) = .ok final ↔ ∃ d next, e.delta = .ok d ∧
      Word.checkSigned (n + d) = .ok next ∧ lengthAfter next es = .ok final := by
  rw [lengthAfter, List.foldlM_cons]
  simp only [bind_eq_ok]
  constructor
  · rintro ⟨next, ⟨d, delta, sum⟩, rest⟩
    exact ⟨d, next, delta, sum, rest⟩
  · rintro ⟨d, next, delta, sum, rest⟩
    exact ⟨next, ⟨d, delta, sum⟩, rest⟩

theorem lt_of_lengthAfter {n final : Int} (some : edits ≠ [])
    (total : lengthAfter n edits = .ok final) : final < 2 ^ 63 := by
  induction edits generalizing n with
  | nil => exact absurd rfl some
  | cons e es ih =>
    obtain ⟨d, next, _, sum, rest⟩ := lengthAfter_cons.1 total
    cases es with
    | nil =>
      obtain rfl := Except.ok.inj rest
      have short := (Word.checkSigned_eq_ok.1 sum).2.1
      rwa [(Word.checkSigned_eq_ok.1 sum).2.2] at short
    | cons e' es => exact ih (by simp) rest

/-- Lengths are summed up as signed words, which are whole numbers but for multiples of the words. -/
theorem lead_of_addAll? {m : EditMap} {length final : Nat} {n : Int}
    (same : (n - length) % 2 ^ 64 = 0) (total : lengthAfter n edits = .ok (final : Int))
    (accepted : EditMap.addAll? m length edits = .ok (some map)) (word : length < 2 ^ 64)
    (word' : final < 2 ^ 64) : Edit.Lead length edits final := by
  induction edits generalizing m length n with
  | nil =>
    obtain rfl := Except.ok.inj total
    obtain rfl : length = final := by omega
    exact .done length
  | cons e es ih =>
    obtain ⟨m', wellFormed, inside, _, next, _, others⟩ := EditMap.exists_of_addAll?_cons accepted
    obtain ⟨d, n', delta, sum, rest⟩ := lengthAfter_cons.1 total
    refine .step wellFormed inside (ih ?_ rest others next)
    obtain ⟨-, -, rfl⟩ := Word.checkSigned_eq_ok.1 sum
    rw [Edit.delta, Word.checkSigned_eq_ok] at delta
    obtain ⟨-, -, rfl⟩ := delta
    clear ih total accepted rest others sum
    simp only [Word.signed_eq]
    omega

theorem lead_of_editMap? (mapped : editMap? old edits newText = .ok (some map)) :
    Edit.Lead old.text.utf8ByteSize edits newText.utf8ByteSize := by
  obtain ⟨total, found⟩ := ofEdits?_of_editMap? mapped
  cases edits with
  | nil =>
    have length : old.text.utf8ByteSize = newText.utf8ByteSize := Int.ofNat.inj (Except.ok.inj total)
    exact length ▸ .done _
  | cons e es =>
    obtain ⟨_, _, _, word, _, _, _⟩ := EditMap.exists_of_addAll?_cons found
    have short := lt_of_lengthAfter (by simp) total
    exact lead_of_addAll? (by simp) total found word (by omega)

theorem eq_overflow_of_lengthAfter {n : Int} {f : Fault} (failed : lengthAfter n edits = .error f) :
    f = .overflow := by
  induction edits generalizing n with
  | nil => cases failed
  | cons e es ih =>
    rw [lengthAfter, List.foldlM_cons] at failed
    rcases bind_eq_error.1 failed with failed | ⟨_, _, failed⟩
    · rcases bind_eq_error.1 failed with failed | ⟨_, _, failed⟩
      · exact Word.eq_overflow_of_checkSigned failed
      · exact Word.eq_overflow_of_checkSigned failed
    · exact ih failed

theorem eq_overflow_of_editMap? {f : Fault} (failed : editMap? old edits newText = .error f) :
    f = .overflow := by
  unfold editMap? at failed
  rcases bind_eq_error.1 failed with failed | ⟨_, _, failed⟩
  · exact eq_overflow_of_lengthAfter failed
  · rcases bind_eq_error.1 failed with failed | ⟨_, _, failed⟩
    · exact EditMap.eq_overflow_of_addAll? failed
    · cases failed

theorem exists_lengthAfter {n : Int} (fit : Edit.Fit n edits) :
    ∃ final, lengthAfter n edits = .ok final := by
  induction edits generalizing n with
  | nil => exact ⟨_, rfl⟩
  | cons e es ih =>
    obtain ⟨_, oldEnd, newEnd, lower, upper, others⟩ := fit
    obtain ⟨final, rest⟩ := ih others
    exact ⟨final, lengthAfter_cons.2 ⟨_, _, Edit.delta_eq oldEnd newEnd,
      Word.checkSigned_eq_ok.2 ⟨lower, upper, rfl⟩, rest⟩⟩

theorem exists_editMap? (fit : Edit.Fit old.text.utf8ByteSize edits) :
    ∃ map?, editMap? old edits newText = .ok map? := by
  obtain ⟨final, total⟩ := exists_lengthAfter fit
  obtain ⟨map?, added⟩ := EditMap.exists_addAll? (EditMap.describes_empty _) fit
  rw [editMap?, total, EditMap.ofEdits?, added]
  exact ⟨_, rfl⟩

end Parser

/-! The built-in language -/

/-- Where the edits cannot be made in any text as long as the old one so that the new length comes out,
they are left out of account: the new text is parsed afresh, unless a sum over them is no word, which does
not happen as long as they speak of offsets in texts. -/
theorem Metal.reparse_of_mismatch {p : Parser} (built : Metal.table = .ok p.language.table)
    {old : Document} {edits : List Edit} {newText : String}
    (mismatch : ¬ Edit.Lead old.text.utf8ByteSize edits newText.utf8ByteSize) :
    ∃ d, p.parse newText = .ok d ∧ (p.reparse old edits newText = .ok d ∨
      p.reparse old edits newText = .error .overflow ∧
        ¬ Edit.Fit old.text.utf8ByteSize edits) := by
  obtain ⟨d, parsed⟩ := exists_parseTokens built (fun _ => Token.isLexical_of_mem_readAll) newText
  refine ⟨d, parsed, ?_⟩
  unfold Parser.reparse
  split
  · exact .inl parsed
  · cases mapped : Parser.editMap? old edits newText with
    | error f =>
      obtain rfl := Parser.eq_overflow_of_editMap? mapped
      refine .inr ⟨rfl, fun fit => ?_⟩
      obtain ⟨map?, ok⟩ := Parser.exists_editMap? fit
      exact nomatch mapped.symm.trans ok
    | ok map? =>
      cases map? with
      | none => exact .inl parsed
      | some map => exact absurd (Parser.lead_of_editMap? mapped) mismatch

/-- An edit that takes the text for one byte longer than it is, and one that puts in more bytes than there
are. -/
theorem Metal.reparse_of_mismatch_blank : ∃ (p : Parser) (old : Document),
    Metal.table = .ok p.language.table ∧ p.parse " " = .ok old ∧
      p.reparse old [⟨0, 2, 2⟩] " " = .ok old ∧
      p.reparse old [⟨0, 0, 18446744073709551615⟩] " " = .error .overflow := by
  obtain ⟨t, built⟩ := Metal.exists_table
  have blank : ∀ u ∈ Token.readAll " ", u.kind.isTrivia = true := by with_unfolding_all decide
  have parsed := Parser.runOn_blank (p := ⟨⟨"metal", t, 0⟩, {}⟩) built Metal.isRule_program
    (Metal.action_start_eof built) blank " " none
  have lead : ¬ Edit.Lead " ".utf8ByteSize [⟨0, 2, 2⟩] " ".utf8ByteSize :=
    fun | .step _ inside _ => absurd inside (by decide)
  have fit : Edit.Fit 1 [⟨0, 2, 2⟩] := by simp [Edit.Fit]
  have sum (old : Document) (text : old.text = " ") :
      Parser.editMap? old [⟨0, 0, 18446744073709551615⟩] " " = .error .overflow := by
    rw [Parser.editMap?, text]
    decide +kernel
  refine ⟨_, _, built, parsed, ?_, ?_⟩
  · obtain ⟨d, parsed', same | ⟨_, far⟩⟩ := @reparse_of_mismatch ⟨⟨"metal", t, 0⟩, {}⟩ built
      ⟨_, " ", _, _⟩ _ _ lead
    · exact same.trans (parsed'.symm.trans parsed)
    · exact absurd fit far
  · rw [Parser.reparse, if_neg (by simp), sum _ rfl]
    rfl

/-- What a parse makes of a blank, an empty comment and a line break. -/
def Document.emptyComment : Document where
  root := .node .sourceFile {} ((Token.readAll " //\n").map Config.leaf)
  text := " //\n"
  diagnostics := []
  table := 0

theorem Document.parse_emptyComment {t : Table} (built : Metal.table = .ok t) :
    (Parser.mk ⟨"metal", t, 0⟩ {}).parse " //\n" = .ok emptyComment := by
  have blank : ∀ u ∈ Token.readAll " //\n", u.kind.isTrivia = true := by with_unfolding_all decide
  exact Parser.runOn_blank (p := ⟨⟨"metal", t, 0⟩, {}⟩) built Metal.isRule_program
    (Metal.action_start_eof built) blank " //\n" none

/-- The old comment is laid over the first byte of a character, which cannot be cut: no changes of
the old text are this edit and give the new text, and yet it is not left out of account. -/
theorem Metal.reparse_cuts_character : ∃ (p : Parser) (old : Document),
    Metal.table = .ok p.language.table ∧ p.parse " //\n" = .ok old ∧
      (∀ changes, Change.applyAll " //\n" changes ≠ .ok ([⟨0, 1, 1⟩], "x;é")) ∧
      p.reparse old [⟨0, 1, 1⟩] "x;é" = .error .badCut ∧
      p.reparse old [⟨0, 1, 1⟩] "x;é" ≠ p.parse "x;é" := by
  obtain ⟨t, built⟩ := Metal.exists_table
  have mapped : Parser.editMap? .emptyComment [⟨0, 1, 1⟩] "x;é" = .ok (some ⟨[⟨0, 1, 0, 1⟩]⟩) := by
    decide +kernel
  have relexed : (match Relex.tokens .emptyComment ⟨[⟨0, 1, 0, 1⟩]⟩ "x;é" with
      | .error f => decide (f = .badCut)
      | .ok _ => false) = true := by
    with_unfolding_all decide
  have broken :
      Parser.reparse ⟨⟨"metal", t, 0⟩, {}⟩ .emptyComment [⟨0, 1, 1⟩] "x;é" = .error .badCut := by
    unfold Parser.reparse
    rw [mapped, if_neg (by simp [Document.emptyComment])]
    split at relexed
    · rename_i f failed
      obtain rfl := of_decide_eq_true relexed
      simp only [bind, Except.bind, failed]
    · cases relexed
  refine ⟨_, _, built, Document.parse_emptyComment built, fun changes applied => ?_, broken,
    fun same => ?_⟩
  · obtain ⟨p, x, y, q, whole, result, start, stop⟩ := Edit.parts_of_changes applied
    obtain rfl := Text.eq_nil_of_size start.symm
    have old : " //\n".toList = [' '] ++ ['/', '/', '\n'] := by decide
    have new : "x;é".toList = ['x', ';', 'é'] := by decide
    have length : Text.size [' '] = Text.size x := by
      rw [← Nat.zero_add (Text.size x)]
      exact stop
    rw [List.nil_append] at whole
    obtain ⟨rfl, rfl⟩ := Text.eq_of_append_eq (old.symm.trans whole) length
    have ends := congrArg List.getLast? (new.symm.trans result)
    simp at ends
  · obtain ⟨d, parsed⟩ := exists_parseTokens (p := ⟨⟨"metal", t, 0⟩, {}⟩) built
      (fun _ => Token.isLexical_of_mem_readAll) "x;é"
    exact nomatch parsed.symm.trans (same.symm.trans broken)

end ShaderTree
