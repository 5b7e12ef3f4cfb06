import ShaderTree.Proofs.Lexeme.Locality
import ShaderTree.Token

/-! Lexing can start again at the border of two tokens: what follows depends on the text behind the
border alone. In front of a line break it does not depend on the text behind the break. -/
namespace ShaderTree.Lexeme

/-- Characters of lexemes in a row. -/
def texts (ls : List Lexeme) : List Char := (ls.map (·.text)).flatten

@[simp] theorem texts_nil : texts [] = [] := rfl

@[simp] theorem texts_cons (l : Lexeme) (ls : List Lexeme) :
    texts (l :: ls) = l.text ++ texts ls := rfl

@[simp] theorem texts_append (ls ls' : List Lexeme) : texts (ls ++ ls') = texts ls ++ texts ls' := by
  simp [texts]

theorem texts_split (cs : List Char) : texts (split cs) = cs := flatten_split cs

theorem texts_joinFailures (ls : List Lexeme) : texts (joinFailures ls) = texts ls :=
  flatten_joinFailures ls

theorem split_cons (c : Char) (cs : List Char) :
    split (c :: cs) =
      ⟨(munch c cs).1, c :: cs.take (munch c cs).2⟩ :: split (cs.drop (munch c cs).2) := by
  rw [split]

theorem text_ne_nil {cs : List Char} {l : Lexeme} (member : l ∈ split cs) : l.text ≠ [] := by
  fun_induction split cs with
  | case1 => simp at member
  | case2 c cs k n _ ih =>
    rcases List.mem_cons.mp member with rfl | member
    · simp
    · exact ih member

/-- Reading goes on from the text behind a lexeme as if it started there. -/
theorem split_texts {cs : List Char} {ls ls' : List Lexeme} (h : split cs = ls ++ ls') :
    split (texts ls') = ls' := by
  induction ls generalizing cs with
  | nil =>
    have whole := texts_split cs
    rw [h, List.nil_append] at whole
    rw [whole, h, List.nil_append]
  | cons l ls ih =>
    cases cs with
    | nil => simp [split] at h
    | cons c cs =>
      rw [split_cons, List.cons_append] at h
      exact ih (List.cons.inj h).2

/-- Lexemes that end in front of a line break stay when the text behind the break changes. -/
theorem split_break {a r : List Char} {ls ls' : List Lexeme} (r' : List Char)
    (h : split (a ++ '\n' :: r) = ls ++ ls') (short : (texts ls).length ≤ a.length) :
    split (a ++ '\n' :: r') = ls ++ split (a.drop (texts ls).length ++ '\n' :: r') := by
  induction ls generalizing a with
  | nil => simp
  | cons l ls ih =>
    cases a with
    | nil =>
      have member : l ∈ split ('\n' :: r) := by simpa using h ▸ .head _
      have empty := text_ne_nil member
      simp_all
    | cons c a =>
      rw [List.cons_append, split_cons, List.cons_append] at h
      obtain ⟨rfl, rest⟩ := List.cons.inj h
      simp only [texts_cons, List.cons_append, List.length_cons, List.length_append,
        List.length_take] at short
      have inside : (munch c (a ++ '\n' :: r)).2 ≤ a.length := by omega
      have taken (q : List Char) :
          (a ++ '\n' :: q).take (munch c (a ++ '\n' :: r)).2 = a.take (munch c (a ++ '\n' :: r)).2 :=
        List.take_append_of_le_length inside
      rw [drop_append_break r inside] at rest
      rw [List.cons_append, split_cons, munch_break c r' inside, drop_append_break r' inside,
        ih rest (by rw [List.length_drop]; omega)]
      simp only [taken, texts_cons, List.cons_append, List.length_cons, List.length_append,
        List.length_take, List.drop_succ_cons, Nat.min_eq_left inside, List.drop_drop]

/-- The lexeme at a border in front of a line break fails or not, whatever follows the break. -/
theorem head_failed_break {a : List Char} (r r' : List Char) {l : Lexeme}
    (first : (split (a ++ '\n' :: r)).head? = some l) (failed : l.kind? = none) :
    ∃ l', (split (a ++ '\n' :: r')).head? = some l' ∧ l'.kind? = none := by
  cases a with
  | nil =>
    rw [List.nil_append, split_cons, List.head?_cons, Option.some.injEq] at first
    subst first
    simp [munch, isSpace] at failed
  | cons c a =>
    rw [List.cons_append, split_cons, List.head?_cons, Option.some.injEq] at first
    subst first
    exact ⟨_, by rw [List.cons_append, split_cons, List.head?_cons], munch_failed_break r r' failed⟩

/-! Failures in a row -/

/-- No failure on the left of the border continues on the right. -/
def Apart (ls ls' : List Lexeme) : Prop :=
  ∀ l ∈ ls.getLast?, ∀ l' ∈ ls'.head?, l.kind? = none → l'.kind? = none → False

theorem joinFailures_merge {l x : Lexeme} {ls rest : List Lexeme}
    (joined : joinFailures ls = x :: rest) (failed : l.kind? = none) (more : x.kind? = none) :
    joinFailures (l :: ls) = ⟨none, l.text ++ x.text⟩ :: rest := by
  obtain ⟨k, text⟩ := x
  subst more
  simp [joinFailures, failed, joined]

theorem joinFailures_keep {l : Lexeme} {ls : List Lexeme} (apart : Apart [l] (joinFailures ls)) :
    joinFailures (l :: ls) = l :: joinFailures ls := by
  rw [joinFailures]
  split
  · rename_i text rest failed joined
    exact absurd (apart l (by simp) ⟨none, text⟩ (by simp [joined]) failed rfl) id
  · rfl

theorem joinFailures_cons (l : Lexeme) (ls : List Lexeme) :
    (∃ x rest, joinFailures ls = x :: rest ∧ l.kind? = none ∧ x.kind? = none ∧
      joinFailures (l :: ls) = ⟨none, l.text ++ x.text⟩ :: rest) ∨
    (Apart [l] (joinFailures ls) ∧ joinFailures (l :: ls) = l :: joinFailures ls) := by
  by_cases apart : Apart [l] (joinFailures ls)
  · exact .inr ⟨apart, joinFailures_keep apart⟩
  · simp only [Apart, not_forall] at apart
    obtain ⟨y, last, x, first, failed, more, -⟩ := apart
    obtain rfl : l = y := by simpa using last
    obtain ⟨rest, joined⟩ := List.head?_eq_some_iff.1 first
    exact .inl ⟨x, rest, joined, failed, more, joinFailures_merge joined failed more⟩

theorem apart_cons {l : Lexeme} {ls : List Lexeme} {xs : List Lexeme} :
    Apart (l :: xs) ls ↔ if xs = [] then Apart [l] ls else Apart xs ls := by
  cases xs <;> simp [Apart]

/-- Joining keeps whether the first lexeme failed. -/
theorem head?_joinFailures (ls : List Lexeme) :
    (joinFailures ls).head?.map (·.kind?) = ls.head?.map (·.kind?) := by
  cases ls with
  | nil => rfl
  | cons l ls =>
    rcases joinFailures_cons l ls with ⟨x, rest, _, failed, _, eq⟩ | ⟨_, eq⟩
    · simp [eq, failed]
    · simp [eq]

theorem apart_joinFailures {xs ls : List Lexeme} :
    Apart xs (joinFailures ls) ↔ Apart xs ls := by
  have head := head?_joinFailures ls
  unfold Apart
  cases joined : (joinFailures ls).head? with
  | none =>
    rw [joined, Option.map_none] at head
    have := Option.map_eq_none_iff.1 head.symm
    simp [this]
  | some x =>
    rw [joined, Option.map_some] at head
    obtain ⟨y, first, same⟩ := Option.map_eq_some_iff.1 head.symm
    simp [first, same]

theorem joinFailures_append {ls ls' : List Lexeme} (apart : Apart ls ls') :
    joinFailures (ls ++ ls') = joinFailures ls ++ joinFailures ls' := by
  induction ls with
  | nil => rfl
  | cons l ls ih =>
    by_cases last : ls = []
    · subst last
      have alone : joinFailures [l] = [l] := joinFailures_keep (by simp [Apart, joinFailures])
      rw [alone]
      exact joinFailures_keep (apart_joinFailures.2 apart)
    · rw [apart_cons, if_neg last] at apart
      have rest := ih apart
      rcases joinFailures_cons l ls with ⟨x, more, joined, failed, failedX, eq⟩ | ⟨front, eq⟩
      · rw [eq, List.cons_append, List.cons_append]
        exact joinFailures_merge (by rw [rest, joined, List.cons_append]) failed failedX
      · rw [eq, List.cons_append, List.cons_append, ← rest]
        apply joinFailures_keep
        rw [rest]
        intro y hy x first
        apply front y hy x
        cases joined : joinFailures ls with
        | nil =>
          have := texts_joinFailures ls
          cases ls with
          | nil => exact absurd rfl last
          | cons m ms => rcases joinFailures_cons m ms with ⟨_, _, _, _, _, eq⟩ | ⟨_, eq⟩ <;> simp_all
        | cons z zs => simpa [joined] using first

/-- A border of the joined lexemes is one of the lexemes. -/
theorem exists_of_joinFailures_eq_append {ls xs ys : List Lexeme}
    (h : joinFailures ls = xs ++ ys) :
    ∃ as bs, ls = as ++ bs ∧ joinFailures as = xs ∧ joinFailures bs = ys ∧ Apart as bs := by
  induction ls generalizing xs with
  | nil =>
    obtain ⟨rfl, rfl⟩ := List.append_eq_nil_iff.1 h.symm
    exact ⟨[], [], rfl, rfl, rfl, by simp [Apart]⟩
  | cons l ls ih =>
    cases xs with
    | nil => exact ⟨[], l :: ls, rfl, rfl, h, by simp [Apart]⟩
    | cons x xs =>
      rcases joinFailures_cons l ls with ⟨y, rest, joined, failed, failedY, eq⟩ | ⟨front, eq⟩
      · rw [eq] at h
        obtain ⟨rfl, rfl⟩ := List.cons.inj h
        obtain ⟨as, bs, rfl, joinedAs, joinedBs, apart⟩ := ih (joined.trans (List.cons_append ..).symm)
        have some : as ≠ [] := by rintro rfl; simp [joinFailures] at joinedAs
        exact ⟨l :: as, bs, rfl, joinFailures_merge joinedAs failed failedY, joinedBs,
          by rwa [apart_cons, if_neg some]⟩
      · rw [eq] at h
        obtain ⟨rfl, rest⟩ := List.cons.inj h
        obtain ⟨as, bs, rfl, joinedAs, joinedBs, apart⟩ := ih rest
        refine ⟨l :: as, bs, rfl, ?_, joinedBs, ?_⟩
        · rw [← joinedAs]
          apply joinFailures_keep
          rw [joinedAs]
          intro y hy z hz
          rw [rest] at front
          exact front y hy z (by cases xs <;> simp_all)
        · rw [apart_cons]
          split
          · rename_i nil
            subst nil
            exact apart_joinFailures.1 front
          · exact apart

/-! The joined lexemes of a text -/

def joined (cs : List Char) : List Lexeme := joinFailures (split cs)

theorem texts_joined (cs : List Char) : texts (joined cs) = cs := by
  rw [joined, texts_joinFailures, texts_split]

theorem joined_text_ne_nil {cs : List Char} {l : Lexeme} (member : l ∈ joined cs) :
    l.text ≠ [] := by
  obtain ⟨xs, ys, eq⟩ := List.append_of_mem member
  obtain ⟨as, bs, whole, _, back, _⟩ := exists_of_joinFailures_eq_append eq
  cases bs with
  | nil => simp [joinFailures] at back
  | cons b bs =>
    have member : b ∈ split cs := by simp [whole]
    have some : b.text ≠ [] := text_ne_nil member
    rcases joinFailures_cons b bs with ⟨x, rest, _, _, _, merged⟩ | ⟨_, kept⟩
    · rw [merged] at back
      rw [← (List.cons.inj back).1]
      simp [some]
    · rw [kept] at back
      rwa [← (List.cons.inj back).1]

/-- What stands behind a border depends on the text behind it alone. -/
theorem joined_texts {cs : List Char} {xs ys : List Lexeme} (h : joined cs = xs ++ ys) :
    joined (texts ys) = ys := by
  obtain ⟨as, bs, whole, _, back, _⟩ := exists_of_joinFailures_eq_append h
  rw [← back, texts_joinFailures, joined, split_texts whole]

/-- What stands in front of a border stays when the text behind a later line break changes, and
what stands behind it is read as a text of its own. -/
theorem joined_break {a r : List Char} {xs ys : List Lexeme} (r' : List Char)
    (h : joined (a ++ '\n' :: r) = xs ++ ys) (short : (texts xs).length ≤ a.length) :
    joined (a ++ '\n' :: r') =
      xs ++ joined (a.drop (texts xs).length ++ '\n' :: r') := by
  obtain ⟨as, bs, whole, front, back, apart⟩ := exists_of_joinFailures_eq_append h
  have same : texts as = texts xs := by rw [← front, texts_joinFailures]
  rw [← same] at short ⊢
  have behind : bs = split (a.drop (texts as).length ++ '\n' :: r) := by
    have rest := split_break r whole short
    rw [whole] at rest
    exact List.append_cancel_left rest
  rw [joined, split_break r' whole short, joinFailures_append, front, joined]
  intro l last l' first failed failed'
  obtain ⟨m, firstOld, failedOld⟩ := head_failed_break r' r first failed'
  exact apart l last m (by rw [behind]; exact firstOld) failed failedOld

end ShaderTree.Lexeme
