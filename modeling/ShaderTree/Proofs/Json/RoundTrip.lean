import Mathlib.Tactic.IntervalCases
import ShaderTree.Json.Printer
import ShaderTree.Json.Reader

/-! What is written as JSON is read back, strings of any characters included. A number that is not
a plain natural number is kept as it is written, and is left out of account here. -/
namespace ShaderTree.JsonValue

/-! Strings -/

theorem hexValue?_hexDigit {n : Nat} (small : n < 16) : hexValue? (hexDigit n) = some n := by
  interval_cases n <;> rfl

theorem escape_ne_nil (c : Char) : escape c ≠ [] := by
  unfold escape
  split_ifs <;> simp

theorem stringBody?_backslash {c : Char} {cs rest : List Char} (escaped : escaped? cs = some (c, rest))
    (fuel : Nat) : stringBody? (fuel + 1) ('\\' :: cs) =
      (stringBody? fuel rest).map fun r => (c :: r.1, r.2) := by
  simp [stringBody?, escaped, Option.map_eq_bind]

/-- The four digits of a control character. -/
theorem escaped?_control {c : Char} (control : c.toNat < 32) (rest : List Char) :
    escaped? ('u' :: '0' :: '0' :: hexDigit (c.toNat / 16) :: hexDigit (c.toNat % 16) :: rest) =
      some (c, rest) := by
  have zero : hexValue? '0' = some 0 := rfl
  have high : hexValue? (hexDigit (c.toNat / 16)) = some (c.toNat / 16) :=
    hexValue?_hexDigit (by omega)
  have low : hexValue? (hexDigit (c.toNat % 16)) = some (c.toNat % 16) :=
    hexValue?_hexDigit (by omega)
  have whole : c.toNat / 16 * 16 + c.toNat % 16 = c.toNat := by omega
  have noPair : ¬ 55296 ≤ c.toNat := by omega
  have noPair' : c.toNat < 56320 := by omega
  simp [escaped?, numbered?, unit?, zero, high, low, whole, noPair, noPair', guard]

/-- An escaped character is read as one character. -/
theorem stringBody?_escape (fuel : Nat) (c : Char) (cs : List Char) :
    stringBody? (fuel + 1) (escape c ++ cs) =
      (stringBody? fuel cs).map fun r => (c :: r.1, r.2) := by
  unfold escape
  split_ifs with quote backslash newline carriage tab backspace feed control
  · exact stringBody?_backslash (by subst quote; rfl) fuel
  · exact stringBody?_backslash (by subst backslash; rfl) fuel
  · exact stringBody?_backslash (by subst newline; rfl) fuel
  · exact stringBody?_backslash (by subst carriage; rfl) fuel
  · exact stringBody?_backslash (by subst tab; rfl) fuel
  · exact stringBody?_backslash (by subst backspace; rfl) fuel
  · exact stringBody?_backslash (by subst feed; rfl) fuel
  · exact stringBody?_backslash (escaped?_control control cs) fuel
  · simp [stringBody?, quote, backslash, control, Option.map_eq_bind]

theorem stringBody?_flatMap (s rest : List Char) {fuel : Nat} (enough : s.length < fuel) :
    stringBody? fuel (s.flatMap escape ++ '"' :: rest) = some (s, rest) := by
  induction s generalizing fuel with
  | nil =>
    obtain ⟨fuel, rfl⟩ := Nat.exists_eq_add_one_of_ne_zero (Nat.ne_zero_of_lt enough)
    simp [stringBody?]
  | cons c s ih =>
    obtain ⟨fuel, rfl⟩ := Nat.exists_eq_add_one_of_ne_zero (Nat.ne_zero_of_lt enough)
    rw [List.flatMap_cons, List.append_assoc, stringBody?_escape,
      ih (Nat.lt_of_succ_lt_succ enough)]
    rfl

theorem length_le_flatMap_escape (s : List Char) : s.length ≤ (s.flatMap escape).length := by
  induction s with
  | nil => exact Nat.le_refl 0
  | cons c s ih =>
    have some := List.length_pos_iff.2 (escape_ne_nil c)
    rw [List.flatMap_cons, List.length_append, List.length_cons]
    omega

theorem readString?_writeString (s : String) (rest : List Char) :
    readString? (writeString s ++ rest) = some (s, rest) := by
  have longer := length_le_flatMap_escape s.toList
  have read : stringBody? ((s.toList.flatMap escape ++ '"' :: rest).length + 1)
      (s.toList.flatMap escape ++ '"' :: rest) = some (s.toList, rest) := by
    refine stringBody?_flatMap s.toList rest ?_
    rw [List.length_append]
    omega
  unfold writeString readString?
  simp only [List.cons_append, List.append_assoc, List.nil_append, read, Option.bind_eq_bind,
    Option.bind_some, String.ofList_toList, Option.pure_def]

/-! Numbers -/

theorem head?_toDigits {n : Nat} (positive : 0 < n) : (Nat.toDigits 10 n).head? ≠ some '0' := by
  induction n using Nat.strong_induction_on with
  | _ n ih =>
    rw [Nat.toDigits_eq_if (by decide)]
    split
    · rename_i small
      interval_cases n <;> decide
    · rename_i large
      have shorter := ih (n / 10) (by omega) (by omega)
      rwa [List.head?_append, Option.or_of_isSome (List.isSome_head?.2 Nat.toDigits_ne_nil)]

theorem isInteger_toDigits (n : Nat) : isInteger (Nat.toDigits 10 n) = true := by
  have digits : ∀ c ∈ Nat.toDigits 10 n, c.isDigit = true := fun c =>
    Nat.isDigit_of_mem_toDigits (by decide) (by decide)
  rcases Nat.eq_zero_or_pos n with rfl | positive
  · rfl
  · have front := head?_toDigits positive
    cases written : Nat.toDigits 10 n with
    | nil => exact absurd written Nat.toDigits_ne_nil
    | cons c cs =>
      rw [written] at front digits
      have notZero : c ≠ '0' := by simpa using front
      unfold isInteger
      split
      · contradiction
      · rfl
      · rename_i d ds _ same
        obtain ⟨rfl, rfl⟩ := List.cons.inj same
        simp only [digits c (.head _), Bool.true_and, Bool.and_eq_true, decide_eq_true_eq]
        exact ⟨notZero, List.all_eq_true.2 fun d inside => digits d (.tail _ inside)⟩

theorem decimal_toDigits (n : Nat) : decimal (Nat.toDigits 10 n) = n := by
  have value : Nat.ofDigitChars 10 (Nat.toDigits 10 n) 0 = n := Nat.ofDigitChars_ten_toDigits
  rw [Nat.ofDigitChars_eq_foldl] at value
  simpa only [decimal, Nat.mul_comm] using value

theorem number?_toDigits (n : Nat) : number? (Nat.toDigits 10 n) = some (natural n) := by
  unfold number?
  rw [isInteger_toDigits, if_pos rfl, decimal_toDigits]

/-! Values -/

mutual

/-- All numbers are natural numbers. -/
def isPlain : JsonValue → Bool
  | number _ => false
  | array xs => arePlain xs
  | object ms => memberPlain ms
  | _ => true

def arePlain : List JsonValue → Bool
  | [] => true
  | x :: xs => isPlain x && arePlain xs

def memberPlain : List (String × JsonValue) → Bool
  | [] => true
  | (_, x) :: ms => isPlain x && memberPlain ms

end

/-- Text that no number goes on with. -/
def EndsNumber (cs : List Char) : Prop := ∀ c ∈ cs.head?, isNumberPart c = false

variable {fuel : Nat} {rest : List Char}

theorem takeWhile_toDigits (n : Nat) (ends : EndsNumber rest) :
    (Nat.toDigits 10 n ++ rest).takeWhile isNumberPart = Nat.toDigits 10 n ∧
      (Nat.toDigits 10 n ++ rest).dropWhile isNumberPart = rest := by
  have digits : ∀ c ∈ Nat.toDigits 10 n, isNumberPart c = true := fun c member => by
    unfold isNumberPart
    rw [Nat.isDigit_of_mem_toDigits (by decide) (by decide) member]
    rfl
  rw [List.takeWhile_append_of_pos digits, List.dropWhile_append_of_pos digits]
  cases rest with
  | nil => simp
  | cons c cs =>
    have stops := ends c rfl
    simp [stops]

theorem ne_of_digit {c d : Char} (digit : c.isDigit = true) (other : d.isDigit = false) : c ≠ d := by
  rintro rfl
  simp [other] at digit

theorem keyword?_digit {c : Char} (digit : c.isDigit = true) (cs : List Char) :
    keyword? (c :: cs) = none := by
  unfold keyword?
  split
  · rename_i same
    exact absurd (List.cons.inj same).1 (ne_of_digit digit rfl)
  · rename_i same
    exact absurd (List.cons.inj same).1 (ne_of_digit digit rfl)
  · rename_i same
    exact absurd (List.cons.inj same).1 (ne_of_digit digit rfl)
  · rfl

theorem skipBlanks_cons {c : Char} (dark : isBlank c = false) (cs : List Char) :
    skipBlanks (c :: cs) = c :: cs := by
  simp [skipBlanks, dark]

theorem isBlank_digit {c : Char} (digit : c.isDigit = true) : isBlank c = false := by
  cases blank : isBlank c with
  | false => rfl
  | true =>
    simp only [isBlank, Bool.or_eq_true, decide_eq_true_eq] at blank
    rcases blank with ((rfl | rfl) | rfl) | rfl <;> cases digit

theorem value?_natural (n : Nat) (ends : EndsNumber rest) :
    value? (fuel + 1) (Nat.toDigits 10 n ++ rest) = some (natural n, rest) := by
  obtain ⟨takes, drops⟩ := takeWhile_toDigits n ends
  have number := number?_toDigits n
  have digits : ∀ c ∈ Nat.toDigits 10 n, c.isDigit = true := fun c =>
    Nat.isDigit_of_mem_toDigits (by decide) (by decide)
  cases written : Nat.toDigits 10 n with
  | nil => exact absurd written Nat.toDigits_ne_nil
  | cons c cs =>
    rw [written] at takes drops number digits
    have digit := digits c (.head _)
    rw [List.cons_append] at takes drops ⊢
    rw [value?, skipBlanks_cons (isBlank_digit digit)]
    split
    · rename_i same
      exact absurd (List.cons.inj same).1 (ne_of_digit digit rfl)
    · rename_i same
      exact absurd (List.cons.inj same).1 (ne_of_digit digit rfl)
    · rename_i same
      exact absurd (List.cons.inj same).1 (ne_of_digit digit rfl)
    · rw [keyword?_digit digit, takes, drops, number]
      rfl

theorem endsNumber_cons {c : Char} (stops : isNumberPart c = false) (cs : List Char) :
    EndsNumber (c :: cs) := by
  rintro d ⟨⟩
  exact stops

theorem endsNumber_writeElements (xs : List JsonValue) :
    EndsNumber (writeElements xs ++ rest) := by
  cases xs with
  | nil => exact endsNumber_cons rfl _
  | cons x xs => exact endsNumber_cons rfl _

theorem endsNumber_writeMembers (ms : List (String × JsonValue)) :
    EndsNumber (writeMembers ms ++ rest) := by
  cases ms with
  | nil => exact endsNumber_cons rfl _
  | cons m ms => exact endsNumber_cons rfl _

/-- What is written starts with no blank and closes nothing. -/
theorem write_front (v : JsonValue) (plain : v.isPlain = true) :
    ∃ c cs, v.write = c :: cs ∧ isBlank c = false ∧ c ≠ ']' ∧ c ≠ '\x7d' := by
  cases v with
  | null => exact ⟨'n', _, rfl, rfl, by decide, by decide⟩
  | bool b =>
    cases b with
    | true => exact ⟨'t', _, rfl, rfl, by decide, by decide⟩
    | false => exact ⟨'f', _, rfl, rfl, by decide, by decide⟩
  | natural n =>
    cases written : Nat.toDigits 10 n with
    | nil => exact absurd written Nat.toDigits_ne_nil
    | cons c cs =>
      have digit : c.isDigit = true :=
        Nat.isDigit_of_mem_toDigits (b := 10) (n := n) (by decide) (by decide) (by simp [written])
      exact ⟨c, cs, by rw [write, written], isBlank_digit digit, ne_of_digit digit rfl,
        ne_of_digit digit rfl⟩
  | number w => cases plain
  | string s => exact ⟨'"', _, by rw [write, writeString, List.cons_append], rfl, by decide, by decide⟩
  | array xs =>
    cases xs with
    | nil => exact ⟨'[', _, by rw [write], rfl, by decide, by decide⟩
    | cons x xs => exact ⟨'[', _, by rw [write, List.cons_append], rfl, by decide, by decide⟩
  | object ms =>
    cases ms with
    | nil => exact ⟨'\x7b', _, by rw [write], rfl, by decide, by decide⟩
    | cons m ms =>
      obtain ⟨key, x⟩ := m
      exact ⟨'\x7b', _, by rw [write]; rfl, rfl, by decide, by decide⟩

theorem member?_write {key : String} {x : JsonValue} {rest' : List Char}
    (value : value? fuel rest = some (x, rest')) :
    member? (fuel + 1) (writeString key ++ ':' :: rest) = some ((key, x), rest') := by
  have front : skipBlanks (writeString key ++ ':' :: rest) = writeString key ++ ':' :: rest := by
    unfold writeString
    simp only [List.cons_append]
    exact skipBlanks_cons rfl _
  rw [member?, front, readString?_writeString]
  simp only [Option.bind_eq_bind, Option.bind_some, skipBlanks_cons (c := ':') rfl, value,
    Option.pure_def]

mutual

/-- A value is read back, with as much fuel as it has characters. -/
theorem value?_write (v : JsonValue) (plain : v.isPlain = true) {fuel : Nat} {rest : List Char}
    (enough : v.write.length ≤ fuel) (ends : EndsNumber rest) :
    value? fuel (v.write ++ rest) = some (v, rest) := by
  obtain ⟨c, cs, written, _⟩ := write_front v plain
  have positive : 0 < fuel := by
    rw [written] at enough
    exact Nat.lt_of_lt_of_le (Nat.succ_pos _) enough
  obtain ⟨fuel, rfl⟩ := Nat.exists_eq_add_one_of_ne_zero (Nat.ne_of_gt positive)
  cases v with
  | null => rw [write, value?]; rfl
  | bool b =>
    cases b with
    | true => rw [write, value?]; rfl
    | false => rw [write, value?]; rfl
  | natural n =>
    rw [write]
    exact value?_natural n ends
  | number w => cases plain
  | string s =>
    have read := readString?_writeString s rest
    rw [write]
    unfold writeString at read ⊢
    rw [List.cons_append, List.cons_append] at read ⊢
    rw [value?, skipBlanks_cons rfl]
    simp only [read, Option.bind_eq_bind, Option.bind_some, Option.pure_def]
  | array xs =>
    cases xs with
    | nil => rw [write, value?]; rfl
    | cons x xs =>
      rw [isPlain, arePlain, Bool.and_eq_true] at plain
      rw [write] at enough ⊢
      rw [List.length_append, List.length_cons] at enough
      have first : value? fuel (x.write ++ (writeElements xs ++ rest)) =
          some (x, writeElements xs ++ rest) :=
        value?_write x plain.1 (by omega) (endsNumber_writeElements xs)
      have others : elements? fuel (writeElements xs ++ rest) = some (xs, rest) :=
        elements?_write xs plain.2 (by omega)
      obtain ⟨d, ds, front, dark, notClosed, _⟩ := write_front x plain.1
      rw [List.cons_append, List.cons_append, List.append_assoc, value?, skipBlanks_cons rfl]
      rw [front, List.cons_append] at first ⊢
      simp only [skipBlanks_cons dark]
      split
      · rename_i same
        exact absurd (List.cons.inj same).1 notClosed
      · simp only [first, others, Option.bind_eq_bind, Option.bind_some, Option.pure_def]
  | object ms =>
    cases ms with
    | nil => rw [write, value?]; rfl
    | cons m ms =>
      obtain ⟨key, x⟩ := m
      rw [isPlain, memberPlain, Bool.and_eq_true] at plain
      rw [write] at enough ⊢
      simp only [List.length_append, List.length_cons] at enough
      obtain ⟨less, rfl⟩ : ∃ less, fuel = less + 1 :=
        Nat.exists_eq_add_one_of_ne_zero (by omega)
      have value : value? less (x.write ++ (writeMembers ms ++ rest)) =
          some (x, writeMembers ms ++ rest) :=
        value?_write x plain.1 (by omega) (endsNumber_writeMembers ms)
      have first := @member?_write _ _ key _ _ value
      have others : members? (less + 1) (writeMembers ms ++ rest) = some (ms, rest) :=
        members?_write ms plain.2 (by omega)
      have quoted : ∃ ds, writeString key = '"' :: ds := ⟨_, rfl⟩
      obtain ⟨ds, front⟩ := quoted
      simp only [List.cons_append, List.append_assoc]
      rw [value?, skipBlanks_cons rfl]
      rw [front, List.cons_append] at first ⊢
      simp only [skipBlanks_cons (c := '"') rfl]
      split
      · rename_i same
        cases (List.cons.inj same).1
      · simp only [first, others, Option.bind_eq_bind, Option.bind_some, Option.pure_def]

theorem elements?_write (xs : List JsonValue) (plain : arePlain xs = true) {fuel : Nat}
    {rest : List Char} (enough : (writeElements xs).length ≤ fuel) :
    elements? fuel (writeElements xs ++ rest) = some (xs, rest) := by
  cases xs with
  | nil =>
    rw [writeElements] at enough ⊢
    obtain ⟨less, rfl⟩ := Nat.exists_eq_add_of_le' enough
    rw [List.length_singleton, elements?]
    rfl
  | cons x xs =>
    rw [arePlain, Bool.and_eq_true] at plain
    rw [writeElements] at enough ⊢
    rw [List.length_append, List.length_cons] at enough
    obtain ⟨less, rfl⟩ : ∃ less, fuel = less + 1 :=
      Nat.exists_eq_add_one_of_ne_zero (by omega)
    have first : value? less (x.write ++ (writeElements xs ++ rest)) =
        some (x, writeElements xs ++ rest) :=
      value?_write x plain.1 (by omega) (endsNumber_writeElements xs)
    have others : elements? less (writeElements xs ++ rest) = some (xs, rest) :=
      elements?_write xs plain.2 (by omega)
    rw [List.cons_append, List.cons_append, List.append_assoc, elements?, skipBlanks_cons rfl]
    simp only [first, others, Option.bind_eq_bind, Option.bind_some, Option.pure_def]

theorem members?_write (ms : List (String × JsonValue)) (plain : memberPlain ms = true) {fuel : Nat}
    {rest : List Char} (enough : (writeMembers ms).length ≤ fuel) :
    members? fuel (writeMembers ms ++ rest) = some (ms, rest) := by
  cases ms with
  | nil =>
    rw [writeMembers] at enough ⊢
    obtain ⟨less, rfl⟩ := Nat.exists_eq_add_of_le' enough
    rw [List.length_singleton, members?]
    rfl
  | cons m ms =>
    obtain ⟨key, x⟩ := m
    rw [memberPlain, Bool.and_eq_true] at plain
    rw [writeMembers] at enough ⊢
    simp only [List.length_append, List.length_cons] at enough
    obtain ⟨less, rfl⟩ : ∃ less, fuel = less + 2 := Nat.exists_eq_add_of_le' (by omega)
    have value : value? less (x.write ++ (writeMembers ms ++ rest)) =
        some (x, writeMembers ms ++ rest) :=
      value?_write x plain.1 (by omega) (endsNumber_writeMembers ms)
    have first := @member?_write _ _ key _ _ value
    have others : members? (less + 1) (writeMembers ms ++ rest) = some (ms, rest) :=
      members?_write ms plain.2 (by omega)
    simp only [List.cons_append, List.append_assoc]
    rw [members?, skipBlanks_cons rfl]
    simp only [first, others, Option.bind_eq_bind, Option.bind_some, Option.pure_def]

end

/-- A text that was written is read as the value it was written for. -/
theorem parse?_render (v : JsonValue) (plain : v.isPlain = true) : parse? v.render = some v := by
  have read : value? (2 * v.write.length + 2) (v.write ++ []) = some (v, []) :=
    value?_write v plain (by omega) (by rintro c ⟨⟩)
  rw [List.append_nil] at read
  unfold parse? render
  simp only [String.toList_ofList, read, Option.bind_eq_bind, Option.bind_some]
  rfl

end ShaderTree.JsonValue
