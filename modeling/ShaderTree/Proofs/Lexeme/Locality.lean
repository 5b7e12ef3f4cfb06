import Mathlib.Data.List.Find
import ShaderTree.Lexeme.Basic

/-! How far a lexeme looks. What stands behind a line break matters only to a lexeme that takes the
break in, so the lexemes in front of a break are the same whatever follows it. -/
namespace ShaderTree.Lexeme

theorem run_cons (p : Char → Bool) (c : Char) (cs : List Char) :
    run p (c :: cs) = if p c then run p cs + 1 else 0 := by
  by_cases h : p c <;> simp [run, h]

theorem run_le_length (p : Char → Bool) (cs : List Char) : run p cs ≤ cs.length :=
  (List.takeWhile_prefix p).length_le

theorem run_break (p : Char → Bool) {a r : List Char} (r' : List Char)
    (short : run p (a ++ '\n' :: r) ≤ a.length) :
    run p (a ++ '\n' :: r') = run p (a ++ '\n' :: r) := by
  induction a with
  | nil =>
    by_cases h : p '\n'
    · simp [run_cons, h] at short
    · simp [run_cons, h]
  | cons c a ih =>
    simp only [List.cons_append, run_cons] at short ⊢
    by_cases h : p c
    · simp only [h, ite_true, List.length_cons] at short ⊢
      rw [ih (by omega)]
    · simp [h]

/-! Readers that never take a break in see it as the end of the text. -/

theorem run_append_break {p : Char → Bool} (h : p '\n' = false) (a r : List Char) :
    run p (a ++ '\n' :: r) = run p a := by
  induction a with
  | nil => simp [run, h]
  | cons c a ih => simp only [List.cons_append, run_cons, ih]

theorem optional_append_break {p : Char → Bool} (h : p '\n' = false) (a r : List Char) :
    optional p (a ++ '\n' :: r) = optional p a := by
  cases a <;> simp [optional, h]

theorem optional_le_length (p : Char → Bool) (cs : List Char) : optional p cs ≤ cs.length := by
  cases cs with
  | nil => simp [optional]
  | cons c cs => simp only [optional, List.length_cons]; split <;> omega

theorem drop_append_break {n : Nat} {a : List Char} (r : List Char) (h : n ≤ a.length) :
    (a ++ '\n' :: r).drop n = a.drop n ++ '\n' :: r :=
  List.drop_append_of_le_length h

theorem exponent_append_break (a r : List Char) : exponent (a ++ '\n' :: r) = exponent a := by
  cases a with
  | nil => simp [exponent]
  | cons c a =>
    simp only [List.cons_append, exponent]
    rw [optional_append_break (by decide), drop_append_break r (optional_le_length _ a),
      run_append_break (by decide)]

theorem exponent_le_length (cs : List Char) : exponent cs ≤ cs.length := by
  cases cs with
  | nil => simp [exponent]
  | cons c cs =>
    have sign := optional_le_length (fun c => c = '+' || c = '-') cs
    have digits := run_le_length Char.isDigit
      (cs.drop (optional (fun c => c = '+' || c = '-') cs))
    simp only [List.length_drop] at digits
    simp only [exponent, List.length_cons]
    split
    · split <;> omega
    · omega

theorem exponentAndSuffix_append_break (a r : List Char) :
    exponentAndSuffix (a ++ '\n' :: r) = exponentAndSuffix a := by
  simp only [exponentAndSuffix, floatSuffix, exponent_append_break]
  rw [drop_append_break r (exponent_le_length a), optional_append_break (by decide)]

theorem hexadecimal_append_break (a r : List Char) :
    hexadecimal (a ++ '\n' :: r) = hexadecimal a := by
  cases a with
  | nil => simp [hexadecimal]
  | cons c a =>
    simp only [List.cons_append, hexadecimal, unsignedSuffix]
    rw [run_append_break (by decide), drop_append_break r (run_le_length _ a),
      optional_append_break (by decide)]

theorem number_append_break (first : Char) (a r : List Char) :
    number first (a ++ '\n' :: r) = number first a := by
  have places := run_le_length Char.isDigit a
  simp only [number, hexadecimal_append_break]
  rw [run_append_break (by decide), drop_append_break r places]
  cases h : a.drop (run Char.isDigit a) with
  | nil => simp [exponent, unsignedSuffix, optional]
  | cons c rest =>
    by_cases point : c = '.'
    · subst point
      simp only [List.cons_append]
      rw [run_append_break (by decide), drop_append_break r (run_le_length _ rest),
        exponentAndSuffix_append_break]
    · have whole := exponent_append_break (c :: rest) r
      have tail := exponentAndSuffix_append_break (c :: rest) r
      have suffix : unsignedSuffix (c :: rest ++ '\n' :: r) = unsignedSuffix (c :: rest) :=
        optional_append_break (by decide) _ _
      simp only [List.cons_append] at whole tail suffix ⊢
      simp [point, whole, tail, suffix]

theorem point_append_break (a r : List Char) : point (a ++ '\n' :: r) = point a := by
  simp only [point]
  rw [run_append_break (by decide), drop_append_break r (run_le_length _ a),
    exponentAndSuffix_append_break]

theorem literalBody_append_break (quote : Char) (a r : List Char) :
    literalBody quote (a ++ '\n' :: r) = literalBody quote a := by
  have none (r : List Char) : literalBody quote ('\n' :: r) = 0 := by
    cases r <;> simp [literalBody]
  fun_induction literalBody quote a with
  | case1 => exact none r
  | case2 c =>
    rename_i stop
    simp only [List.cons_append, List.nil_append, literalBody, none]
    simp only [Bool.or_eq_true, decide_eq_true_eq] at stop
    grind
  | case3 c =>
    rename_i go
    simp only [List.cons_append, List.nil_append, literalBody, none]
    simp only [Bool.or_eq_true, decide_eq_true_eq] at go
    grind
  | case4 => simp [literalBody]
  | case5 d cs _ ih => simp_all [literalBody]
  | case6 => simp_all [literalBody]
  | case7 c d cs _ _ ih => simp_all [literalBody]

theorem literalBody_le_length (quote : Char) (cs : List Char) :
    literalBody quote cs ≤ cs.length := by
  fun_induction literalBody quote cs <;> simp_all

theorem stringLiteral_append_break (a r : List Char) :
    stringLiteral (a ++ '\n' :: r) = stringLiteral a := by
  simp only [stringLiteral, literalBody_append_break]
  rw [drop_append_break r (literalBody_le_length _ a)]
  cases a.drop (literalBody '"' a) with
  | nil => simp
  | cons c rest => by_cases quote : c = '"' <;> simp [quote]

theorem charLiteral_append_break (a r : List Char) :
    charLiteral (a ++ '\n' :: r) = charLiteral a := by
  simp only [charLiteral, literalBody_append_break]
  rw [drop_append_break r (literalBody_le_length _ a)]
  cases a.drop (literalBody '\'' a) with
  | nil => simp
  | cons c rest =>
    by_cases quote : c = '\''
    · simp [quote]
    · by_cases slash : c = '\\' <;> simp [quote, slash]

theorem isPrefixOf_append_break {mark : List Char} (h : '\n' ∉ mark) (a r : List Char) :
    mark.isPrefixOf (a ++ '\n' :: r) = mark.isPrefixOf a := by
  induction mark generalizing a with
  | nil => simp
  | cons c mark ih =>
    simp only [List.mem_cons, not_or] at h
    cases a with
    | nil => simp [List.isPrefixOf, Ne.symm h.1]
    | cons d a => simp [List.isPrefixOf, ih h.2]

theorem mark_append_break (c : Char) (a r : List Char) : mark c (a ++ '\n' :: r) = mark c a := by
  have plain : ∀ m ∈ marks, '\n' ∉ m.1.toList := by decide
  have same : marks.find? (fun m => m.1.toList.isPrefixOf (c :: (a ++ '\n' :: r)))
      = marks.find? (fun m => m.1.toList.isPrefixOf (c :: a)) := by
    apply List.find?_congr
    intro m member
    exact isPrefixOf_append_break (plain m member) (c :: a) r
  simp only [mark, same]

/-! Readers that may take a break in. -/

theorem directive_cons {c : Char} (cs : List Char) (slash : c ≠ '\\') (line : c ≠ '\n') :
    directive (c :: cs) = directive cs + 1 := by
  rw [directive]
  · simp [slash, line]
  · simp [slash]

theorem directive_break {a r : List Char} (r' : List Char)
    (short : directive (a ++ '\n' :: r) ≤ a.length) :
    directive (a ++ '\n' :: r') = directive (a ++ '\n' :: r) := by
  fun_induction directive a with
  | case1 => simp [directive]
  | case2 d cs ih =>
    simp only [List.cons_append, directive, List.length_cons] at short ⊢
    rw [ih (by omega)]
  | case3 c cs _ stop =>
    simp only [Bool.or_eq_true, decide_eq_true_eq] at stop
    rcases stop with slash | line
    · subst slash
      cases cs with
      | nil => simp [directive] at short
      | cons d cs => simp_all
    · simp [directive, line]
  | case4 c cs _ go ih =>
    simp only [Bool.or_eq_true, decide_eq_true_eq, not_or] at go
    simp only [List.cons_append, directive_cons _ go.1 go.2, List.length_cons] at short ⊢
    rw [ih (by omega)]

theorem commentEnd?_cons (c : Char) (cs : List Char) :
    commentEnd? (c :: cs) =
      if c = '*' ∧ cs.head? = some '/' then some 2 else (commentEnd? cs).map (· + 1) := by
  by_cases close : c = '*' ∧ cs.head? = some '/'
  · obtain ⟨rfl, next⟩ := close
    obtain ⟨rest, rfl⟩ := List.head?_eq_some_iff.1 next
    simp [commentEnd?]
  · rw [if_neg close]
    cases cs with
    | nil => simp [commentEnd?]
    | cons d cs =>
      rw [commentEnd?]
      · simp
      · rintro rest rfl next
        exact close ⟨rfl, by simp [next]⟩

theorem commentEnd?_break {n : Nat} {a r : List Char} (r' : List Char)
    (found : commentEnd? (a ++ '\n' :: r) = some n) (short : n ≤ a.length) :
    commentEnd? (a ++ '\n' :: r') = some n := by
  induction a generalizing n with
  | nil =>
    simp only [List.nil_append, commentEnd?_cons, Char.reduceEq, false_and, ite_false] at found
    obtain ⟨m, _, rfl⟩ := Option.map_eq_some_iff.1 found
    simp at short
  | cons c a ih =>
    have head (r : List Char) : (a ++ '\n' :: r).head? = some '/' ↔ a.head? = some '/' := by
      cases a <;> simp
    simp only [List.cons_append, commentEnd?_cons, head] at found ⊢
    split at found
    · rename_i close
      rw [if_pos close, found]
    · rename_i on
      rw [if_neg on]
      obtain ⟨m, inner, rfl⟩ := Option.map_eq_some_iff.1 found
      rw [ih inner (by simpa using short), Option.map_some]

theorem slashed_break {a r : List Char} (r' : List Char)
    (short : (slashed (a ++ '\n' :: r)).2 ≤ a.length) :
    slashed (a ++ '\n' :: r') = slashed (a ++ '\n' :: r) := by
  cases a with
  | nil => exact (mark_append_break '/' [] r').trans (mark_append_break '/' [] r).symm
  | cons d a =>
    by_cases line : d = '/'
    · subst line
      simp only [List.cons_append, slashed, List.length_cons, Nat.add_le_add_iff_right] at short ⊢
      rw [run_break _ r' short]
    by_cases star : d = '*'
    · subst star
      simp only [List.cons_append, slashed] at short ⊢
      cases found : commentEnd? (a ++ '\n' :: r) with
      | none =>
        simp only [found, List.length_append, List.length_cons] at short
        omega
      | some n =>
        simp only [found, List.length_cons, Nat.add_le_add_iff_right] at short
        rw [commentEnd?_break r' found short]
    · simpa [slashed, line, star] using
        (mark_append_break '/' (d :: a) r').trans (mark_append_break '/' (d :: a) r).symm

/-- A lexeme that ends in front of a break is the same whatever follows the break. -/
theorem munch_break (c : Char) {a r : List Char} (r' : List Char)
    (short : (munch c (a ++ '\n' :: r)).2 ≤ a.length) :
    munch c (a ++ '\n' :: r') = munch c (a ++ '\n' :: r) := by
  unfold munch at short ⊢
  by_cases space : isSpace c
  · simp only [space, ite_true] at short ⊢
    rw [run_break _ r' short]
  by_cases word : isWordStart c
  · simp only [space, word, ite_true, Bool.false_eq_true, ite_false] at short ⊢
    rw [run_append_break (by decide), run_append_break (by decide),
      List.take_append_of_le_length (run_le_length _ a),
      List.take_append_of_le_length (run_le_length _ a)]
  by_cases hash : c = '#'
  · subst hash
    simp only [Char.reduceEq, ite_false, ite_true, show isSpace '#' = false by decide,
      show isWordStart '#' = false by decide, show '#'.isDigit = false by decide,
      Bool.false_eq_true] at short ⊢
    rw [directive_break r' short]
  by_cases slash : c = '/'
  · subst slash
    simp only [Char.reduceEq, ite_false, ite_true, show isSpace '/' = false by decide,
      show isWordStart '/' = false by decide, show '/'.isDigit = false by decide,
      Bool.false_eq_true] at short ⊢
    exact slashed_break r' short
  simp only [space, word, hash, slash, Bool.false_eq_true, ite_false, number_append_break,
    point_append_break, stringLiteral_append_break, charLiteral_append_break, mark_append_break]

theorem charLiteral_short {a : List Char} (failed : (charLiteral a).1 = none) :
    (charLiteral a).2 ≤ a.length := by
  have body := literalBody_le_length '\'' a
  simp only [charLiteral] at failed ⊢
  split <;> simp_all
  rename_i rest back
  have := congrArg List.length back
  simp only [List.length_drop, List.length_cons] at this
  omega

theorem mark_failed {c : Char} {cs : List Char} (failed : (mark c cs).1 = none) :
    (mark c cs).2 = 0 := by
  simp only [mark] at failed ⊢
  split <;> simp_all

theorem slashed_failed {cs : List Char} (failed : (slashed cs).1 = none) :
    (slashed cs).2 = 0 := by
  unfold slashed at failed ⊢
  split
  · simp at failed
  · split <;> simp_all
  · exact mark_failed (by simp_all)

/-- A failed lexeme takes no break in. -/
theorem munch_failed_short {c : Char} {a r : List Char}
    (failed : (munch c (a ++ '\n' :: r)).1 = none) :
    (munch c (a ++ '\n' :: r)).2 ≤ a.length := by
  simp only [munch, charLiteral_append_break] at failed ⊢
  split at failed
  · simp at failed
  split at failed
  · simp at failed
  split at failed
  · simp at failed
  split at failed
  · simp at failed
  split at failed
  · simp only [stringLiteral] at failed
    split at failed <;> simp at failed
  split at failed
  · simp_all [charLiteral_short failed]
  split at failed
  · simp at failed
  split at failed
  · simp_all [slashed_failed failed]
  · simp_all [mark_failed failed]

theorem munch_failed_break {c : Char} {a : List Char} (r r' : List Char)
    (failed : (munch c (a ++ '\n' :: r)).1 = none) :
    (munch c (a ++ '\n' :: r')).1 = none := by
  rw [munch_break c r' (munch_failed_short failed), failed]

end ShaderTree.Lexeme
