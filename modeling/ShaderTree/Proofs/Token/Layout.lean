import ShaderTree.Proofs.Lexeme.Kinds

/-! The tokens of a text are kinds and texts laid out from its start. Kinds and texts behind a border
of two tokens are those of the text behind it, so only the layout carries offsets. -/
namespace ShaderTree.Token

/-- Kind and text. -/
abbrev Label := Kind × String

/-- Characters of labels in a row. -/
def chars (ls : List Label) : List Char := ls.flatMap (·.2.toList)

@[simp] theorem chars_nil : chars [] = [] := rfl

@[simp] theorem chars_cons (l : Label) (ls : List Label) :
    chars (l :: ls) = l.2.toList ++ chars ls := rfl

@[simp] theorem chars_append (ls ls' : List Label) : chars (ls ++ ls') = chars ls ++ chars ls' := by
  simp [chars]

def label (t : Token) : Label := (t.kind, t.text)

def hasText (l : Label) : Bool := l.2 ≠ ""

theorem eq_empty_of_not_hasText {l : Label} (none : ¬ hasText l = true) : l.2 = "" := by
  by_contra some
  exact none (decide_eq_true some)

theorem size_pos_of_hasText {l : Label} (some : hasText l = true) : 0 < l.2.utf8ByteSize := by
  have nonempty : l.2 ≠ "" := of_decide_eq_true some
  rw [Nat.pos_iff_ne_zero]
  exact fun empty => nonempty (String.utf8ByteSize_eq_zero_iff.1 empty)

/-- Labels of lexemes in front of others. -/
def labelsBefore (rest : List Lexeme) : List Lexeme → List Label
  | [] => []
  | l :: ls =>
    (l.kindBefore ((ls ++ rest).head?.bind (·.text.head?)), String.ofList l.text)
      :: labelsBefore rest ls

theorem labelsBefore_append (rest ls ls' : List Lexeme) :
    labelsBefore rest (ls ++ ls') = labelsBefore (ls' ++ rest) ls ++ labelsBefore rest ls' := by
  induction ls with
  | nil => rfl
  | cons l ls ih => simp [labelsBefore, ih]

/-- Only the first character behind them matters to labels. -/
theorem labelsBefore_congr {rest rest' : List Lexeme}
    (same : rest.head?.bind (·.text.head?) = rest'.head?.bind (·.text.head?))
    (ls : List Lexeme) : labelsBefore rest ls = labelsBefore rest' ls := by
  induction ls with
  | nil => rfl
  | cons l ls ih =>
    simp only [labelsBefore, ih]
    cases ls with
    | nil => simp only [List.nil_append, same]
    | cons m ms => rfl

theorem chars_labelsBefore (rest ls : List Lexeme) :
    chars (labelsBefore rest ls) = Lexeme.texts ls := by
  induction ls with
  | nil => rfl
  | cons l ls ih => simp [labelsBefore, ih]

theorem labelsBefore_eq_append {rest ls : List Lexeme} {xs ys : List Label}
    (h : labelsBefore rest ls = xs ++ ys) :
    ∃ as bs, ls = as ++ bs ∧ labelsBefore (bs ++ rest) as = xs ∧ labelsBefore rest bs = ys := by
  induction ls generalizing xs with
  | nil =>
    obtain ⟨rfl, rfl⟩ := List.append_eq_nil_iff.1 h.symm
    exact ⟨[], [], rfl, rfl, rfl⟩
  | cons l ls ih =>
    cases xs with
    | nil => exact ⟨[], l :: ls, rfl, rfl, h⟩
    | cons x xs =>
      obtain ⟨first, back⟩ := List.cons.inj h
      obtain ⟨as, bs, rfl, rfl, rfl⟩ := ih back
      exact ⟨l :: as, bs, rfl, by simp [labelsBefore, ← first], rfl⟩

theorem place_eq_layOut (start : Nat) (p : Position) (ls : List Lexeme) :
    place start p ls = layOut start p (labelsBefore [] ls) := by
  induction ls generalizing start p with
  | nil => rfl
  | cons l ls ih =>
    simp only [place, labelsBefore, layOut, ih, Text.size_ofList, String.toList_ofList,
      List.append_nil]

theorem layOut_append (start : Nat) (p : Position) (ls ls' : List Label) :
    layOut start p (ls ++ ls') =
      layOut start p ls ++ layOut (start + Text.size (chars ls)) (p.advance (chars ls)) ls' := by
  induction ls generalizing start p with
  | nil => rfl
  | cons l ls ih =>
    simp only [List.cons_append, layOut, ih, chars_cons, Text.size_append, Text.size_toList,
      Position.advance_append, Nat.add_assoc]

theorem map_label_layOut (start : Nat) (p : Position) (ls : List Label) :
    (layOut start p ls).map label = ls := by
  induction ls generalizing start p with
  | nil => rfl
  | cons l ls ih => simp [layOut, label, ih]

theorem chars_filter_hasText (ls : List Label) : chars (ls.filter hasText) = chars ls := by
  induction ls with
  | nil => rfl
  | cons l ls ih =>
    by_cases some : hasText l
    · rw [List.filter_cons_of_pos some, chars_cons, ih, chars_cons]
    · rw [List.filter_cons_of_neg some, ih, chars_cons, eq_empty_of_not_hasText some]
      rfl

/-- The label that holds an offset inside. -/
theorem exists_label_at {ls : List Label} {offset : Nat} (inside : offset < Text.size (chars ls)) :
    ∃ xs y ys, ls = xs ++ y :: ys ∧ Text.size (chars xs) ≤ offset ∧
      offset < Text.size (chars xs) + y.2.utf8ByteSize := by
  induction ls generalizing offset with
  | nil => simp at inside
  | cons l ls ih =>
    rw [chars_cons, Text.size_append, Text.size_toList] at inside
    by_cases here : offset < l.2.utf8ByteSize
    · exact ⟨[], l, ls, rfl, Nat.zero_le _, by simpa using here⟩
    · have rest : offset - l.2.utf8ByteSize < Text.size (chars ls) := by omega
      obtain ⟨xs, y, ys, rfl, before, behind⟩ := ih rest
      refine ⟨l :: xs, y, ys, rfl, ?_, ?_⟩
      · rw [chars_cons, Text.size_append, Text.size_toList]; omega
      · rw [chars_cons, Text.size_append, Text.size_toList]; omega

/-- Kinds and texts of the tokens of a text. -/
def labels (cs : List Char) : List Label := labelsBefore [] (Lexeme.joined cs)

theorem readAll_eq_layOut (text : String) :
    readAll text = layOut 0 .zero (labels text.toList) := by
  simp [readAll, readFrom, Text.cutFrom, place_eq_layOut, labels, Lexeme.joined, Position.advance]

theorem map_label_readAll (text : String) : (readAll text).map label = labels text.toList := by
  rw [readAll_eq_layOut, map_label_layOut]

theorem chars_labels (cs : List Char) : chars (labels cs) = cs := by
  rw [labels, chars_labelsBefore, Lexeme.texts_joined]

theorem label_of_labelsBefore {rest ls : List Lexeme} {x : Label}
    (member : x ∈ labelsBefore rest ls) :
    ∃ l ∈ ls, ∃ next, x = (l.kindBefore next, String.ofList l.text) := by
  induction ls with
  | nil => simp [labelsBefore] at member
  | cons l ls ih =>
    rcases List.mem_cons.mp member with rfl | member
    · exact ⟨l, .head _, _, rfl⟩
    · obtain ⟨m, inside, next, eq⟩ := ih member
      exact ⟨m, .tail _ inside, next, eq⟩

theorem hasText_of_mem_labels {cs : List Char} {x : Label} (member : x ∈ labels cs) :
    hasText x = true := by
  obtain ⟨l, inside, _, rfl⟩ := label_of_labelsBefore member
  refine decide_eq_true ?_
  intro empty
  exact Lexeme.joined_text_ne_nil inside (String.ofList_injective (by simpa using empty))

theorem label_isLexical {cs : List Char} {x : Label} (member : x ∈ labels cs) :
    x.1.IsLexical := by
  obtain ⟨l, inside, next, rfl⟩ := label_of_labelsBefore member
  exact Lexeme.isLexical_joined inside next

theorem isLexical_of_mem_readAll {text : String} {t : Token} (member : t ∈ readAll text) :
    t.kind.IsLexical := by
  have inside : label t ∈ labels text.toList := by
    rw [← map_label_readAll]
    exact List.mem_map_of_mem member
  exact label_isLexical inside

theorem hasText_of_mem_readAll {text : String} {t : Token} (member : t ∈ readAll text) :
    hasText (label t) = true := by
  have inside : label t ∈ labels text.toList := by
    rw [← map_label_readAll]
    exact List.mem_map_of_mem member
  exact hasText_of_mem_labels inside

theorem start_le_of_mem_layOut {start : Nat} {p : Position} {ls : List Label} {t : Token}
    (member : t ∈ layOut start p ls) : t.start ≤ start + Text.size (chars ls) := by
  induction ls generalizing start p with
  | nil => cases member
  | cons l ls ih =>
    rw [chars_cons, Text.size_append, Text.size_toList]
    rcases List.mem_cons.mp member with rfl | member
    · exact Nat.le_add_right _ _
    · have bound := ih member
      omega

theorem start_le_of_mem_readAll {text : String} {t : Token} (member : t ∈ readAll text) :
    t.start ≤ Text.size text.toList := by
  rw [readAll_eq_layOut] at member
  have bound := start_le_of_mem_layOut member
  rwa [chars_labels, Nat.zero_add] at bound

/-- The labels behind a border are those of the text behind it. -/
theorem labels_chars {cs : List Char} {xs ys : List Label} (h : labels cs = xs ++ ys) :
    labels (chars ys) = ys := by
  obtain ⟨as, bs, whole, _, back⟩ := labelsBefore_eq_append h
  rw [← back, chars_labelsBefore, labels, Lexeme.joined_texts whole]

/-- The first character of a text is that of its first lexeme. -/
theorem head?_joined (cs : List Char) :
    (Lexeme.joined cs).head?.bind (·.text.head?) = cs.head? := by
  have whole := Lexeme.texts_joined cs
  cases eq : Lexeme.joined cs with
  | nil => simp_all
  | cons l ls =>
    have member : l ∈ Lexeme.joined cs := by simp [eq]
    have some : l.text ≠ [] := Lexeme.joined_text_ne_nil member
    rw [eq, Lexeme.texts_cons] at whole
    cases text : l.text with
    | nil => exact absurd text some
    | cons c t => simp [← whole, text]

/-- The labels in front of a border stay when the text behind a later line break changes. -/
theorem labels_break {a r : List Char} {xs ys : List Label} (r' : List Char)
    (h : labels (a ++ '\n' :: r) = xs ++ ys) (short : (chars xs).length ≤ a.length) :
    labels (a ++ '\n' :: r') = xs ++ labels (a.drop (chars xs).length ++ '\n' :: r') := by
  obtain ⟨as, bs, whole, front, _⟩ := labelsBefore_eq_append h
  have same : chars xs = Lexeme.texts as := by rw [← front, chars_labelsBefore]
  rw [same] at short ⊢
  have behind : Lexeme.texts bs = a.drop (Lexeme.texts as).length ++ '\n' :: r := by
    have texts := Lexeme.texts_joined (a ++ '\n' :: r)
    rw [whole, Lexeme.texts_append] at texts
    have dropped := congrArg (List.drop (Lexeme.texts as).length) texts
    rwa [List.drop_left, List.drop_append_of_le_length short] at dropped
  rw [labels, Lexeme.joined_break r' whole short, labelsBefore_append, List.append_nil, ← front,
    List.append_nil]
  congr 1
  apply labelsBefore_congr
  rw [head?_joined, ← Lexeme.joined_texts whole, head?_joined, behind]
  cases a.drop (Lexeme.texts as).length <;> rfl

/-- The tokens lie side by side between two offsets. -/
def Abreast (stop : Nat) : Nat → List Token → Prop
  | start, [] => start = stop
  | start, t :: ts => t.start = start ∧ Abreast stop t.stop ts

variable {start mid stop : Nat} {xs ys : List Token} {t : Token}

/-- Bytes of the texts of tokens. -/
def width (tokens : List Token) : Nat := Text.size (chars (tokens.map label))

theorem width_cons (t : Token) (ts : List Token) :
    width (t :: ts) = t.text.utf8ByteSize + width ts := by
  simp [width, label]

theorem Abreast.stop_eq (abreast : Abreast stop start xs) : stop = start + width xs := by
  induction xs generalizing start with
  | nil => exact abreast.symm
  | cons t ts ih =>
    obtain ⟨rfl, rest⟩ := abreast
    rw [width_cons, ← Nat.add_assoc]
    exact ih rest

theorem abreast_append :
    Abreast stop start (xs ++ ys) ↔ Abreast (start + width xs) start xs ∧
      Abreast stop (start + width xs) ys := by
  induction xs generalizing start with
  | nil => exact ⟨fun abreast => ⟨rfl, abreast⟩, fun abreast => abreast.2⟩
  | cons t ts ih =>
    rw [List.cons_append, width_cons, ← Nat.add_assoc]
    constructor
    · rintro ⟨rfl, rest⟩
      obtain ⟨first, second⟩ := ih.1 rest
      exact ⟨⟨rfl, first⟩, second⟩
    · rintro ⟨⟨rfl, first⟩, second⟩
      exact ⟨rfl, ih.2 ⟨first, second⟩⟩

/-- Where the last of the tokens ends. -/
theorem Abreast.getLast (abreast : Abreast stop start xs) :
    (xs.getLast?.map Token.stop).getD start = stop := by
  induction xs generalizing start with
  | nil => exact abreast
  | cons t ts ih =>
    obtain ⟨rfl, rest⟩ := abreast
    have last := ih rest
    cases ts with
    | nil => exact last
    | cons u us =>
      rw [List.getLast?_cons_cons]
      rwa [List.getLast?_eq_some_getLast (List.cons_ne_nil u us)] at last ⊢

theorem abreast_layOut (start : Nat) (p : Position) (ls : List Label) :
    Abreast (start + Text.size (chars ls)) start (layOut start p ls) := by
  induction ls generalizing start p with
  | nil => exact (Nat.add_zero _).symm
  | cons l ls ih =>
    rw [chars_cons, Text.size_append, Text.size_toList, ← Nat.add_assoc]
    exact ⟨rfl, ih _ _⟩

/-- The tokens of a text fill it. -/
theorem abreast_readAll (text : String) : Abreast text.utf8ByteSize 0 (readAll text) := by
  have whole := abreast_layOut 0 .zero (labels text.toList)
  rwa [Nat.zero_add, chars_labels, Text.size_toList, ← readAll_eq_layOut] at whole

end ShaderTree.Token
