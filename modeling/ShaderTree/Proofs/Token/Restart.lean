import ShaderTree.Proofs.Text.Cut
import ShaderTree.Proofs.Token.Layout

/-! Reading can start again at every border of the tokens. What is read there depends on the text behind
the border alone: where two texts agree behind a border of each, so do their tokens, moved by the
distance of the borders. -/
namespace ShaderTree.Token

open Text

/-- A token of the text starts or ends at the offset. -/
def Borders (text : String) (offset : Nat) : Prop :=
  ∃ t ∈ readAll text, offset = t.start ∨ offset = t.stop

/-- The tokens that start at the offset or behind it. -/
def behind (text : String) (offset : Nat) : List Token := (readAll text).filter (offset ≤ ·.start)

/-- A cut of the labels of a text is one of its characters and of its tokens. -/
theorem layOut_at {text : String} {xs ys : List Label} (cut : labels text.toList = xs ++ ys) :
    text.toList = chars xs ++ chars ys ∧
      readAll text = layOut 0 .zero xs ++ layOut (size (chars xs)) (Position.zero.advance (chars xs)) ys := by
  refine ⟨?_, ?_⟩
  · rw [← chars_append, ← cut, chars_labels]
  · rw [readAll_eq_layOut, cut, layOut_append, Nat.zero_add]

/-- Reading from a cut gives the tokens behind it. -/
theorem readFrom_size_chars {text : String} {xs ys : List Label} (cut : labels text.toList = xs ++ ys) :
    readFrom text (size (chars xs)) =
      layOut (size (chars xs)) (Position.zero.advance (chars xs)) ys := by
  rw [readFrom, (layOut_at cut).1, cutFrom_size_append]
  dsimp only
  rw [place_eq_layOut]
  exact congrArg _ (labels_chars cut)

theorem le_start_of_mem_layOut {start : Nat} {p : Position} {ls : List Label} {t : Token}
    (member : t ∈ layOut start p ls) : start ≤ t.start := by
  induction ls generalizing start p with
  | nil => cases member
  | cons l ls ih =>
    rcases List.mem_cons.mp member with rfl | member
    · exact Nat.le_refl _
    · exact Nat.le_trans (Nat.le_add_right _ _) (ih member)

theorem stop_le_of_mem_layOut {start : Nat} {p : Position} {ls : List Label} {t : Token}
    (member : t ∈ layOut start p ls) : t.stop ≤ start + size (chars ls) := by
  induction ls generalizing start p with
  | nil => cases member
  | cons l ls ih =>
    rw [chars_cons, size_append, size_toList, ← Nat.add_assoc]
    rcases List.mem_cons.mp member with rfl | member
    · exact Nat.le_add_right _ _
    · exact ih member

/-- The tokens behind a cut are those that start there or later. -/
theorem behind_size_chars {text : String} {xs ys : List Label} (cut : labels text.toList = xs ++ ys) :
    behind text (size (chars xs)) =
      layOut (size (chars xs)) (Position.zero.advance (chars xs)) ys := by
  rw [behind, (layOut_at cut).2, List.filter_append]
  have none : (layOut 0 .zero xs).filter (size (chars xs) ≤ ·.start) = [] := by
    refine List.filter_eq_nil_iff.2 fun t member => ?_
    have ends := stop_le_of_mem_layOut member
    have inside : label t ∈ labels text.toList := by
      rw [cut, ← map_label_layOut 0 .zero xs]
      exact List.mem_append_left _ (List.mem_map_of_mem member)
    have positive := size_pos_of_hasText (hasText_of_mem_labels inside)
    simp only [stop, label] at ends positive
    simp only [decide_eq_true_eq]
    omega
  have all : (layOut (size (chars xs)) (Position.zero.advance (chars xs)) ys).filter
      (size (chars xs) ≤ ·.start) = layOut (size (chars xs)) (Position.zero.advance (chars xs)) ys :=
    List.filter_eq_self.2 fun t member => decide_eq_true (le_start_of_mem_layOut member)
  rw [none, all, List.nil_append]

/-- The token with a number starts behind the labels in front of it. -/
theorem exists_cut_of_getElem? {start : Nat} {p : Position} {ls : List Label} {i : Nat} {t : Token}
    (known : (layOut start p ls)[i]? = some t) :
    ls = ls.take i ++ label t :: ls.drop (i + 1) ∧ t.start = start + size (chars (ls.take i)) := by
  induction ls generalizing start p i with
  | nil => cases known
  | cons l ls ih =>
    cases i with
    | zero =>
      obtain rfl := Option.some.inj known
      exact ⟨rfl, rfl⟩
    | succ i =>
      obtain ⟨whole, starts⟩ := ih known
      refine ⟨congrArg (l :: ·) whole, ?_⟩
      rw [starts, List.take_succ_cons, chars_cons, size_append, size_toList, Nat.add_assoc]

/-- A border is a cut of the labels. -/
theorem Borders.exists_cut {text : String} {offset : Nat} (border : Borders text offset) :
    ∃ xs ys, labels text.toList = xs ++ ys ∧ offset = size (chars xs) := by
  obtain ⟨t, member, at_⟩ := border
  obtain ⟨i, known⟩ := List.mem_iff_getElem?.1 member
  rw [readAll_eq_layOut] at known
  obtain ⟨whole, starts⟩ := exists_cut_of_getElem? known
  rw [Nat.zero_add] at starts
  rcases at_ with rfl | rfl
  · exact ⟨_, _, whole, starts⟩
  · refine ⟨(labels text.toList).take i ++ [label t], (labels text.toList).drop (i + 1), ?_, ?_⟩
    · rw [List.append_assoc]
      exact whole
    · rw [chars_append, size_append, stop, starts]
      simp [label]

/-- Labels that are laid out twice differ by the distance alone. -/
theorem map_layOut_moved {a b start start' : Nat} (moved : start + b = start' + a) (p q : Position)
    (ls : List Label) :
    (layOut start p ls).map (fun t => (label t, t.start + b, t.stop + b)) =
      (layOut start' q ls).map fun t => (label t, t.start + a, t.stop + a) := by
  induction ls generalizing start start' p q with
  | nil => rfl
  | cons l ls ih =>
    have ends : start + l.2.utf8ByteSize + b = start' + l.2.utf8ByteSize + a := by omega
    simp only [layOut, List.map_cons, ih ends _ (q.advance l.2.toList)]
    simp only [label, stop, moved, ends]

/-- Restart: read from the start of one of its tokens, a text gives that token and those behind it, with
the same places. And what stands behind a border of a text depends on the text behind it alone: if two
texts agree behind borders `a` and `b`, they have tokens of the same kinds and texts there, and the
ranges are moved by the distance from `a` to `b`. -/
theorem readFrom_border :
    (∀ text i t, (readAll text)[i]? = some t → readFrom text t.start = (readAll text).drop i) ∧
    ∀ text text' a b, Borders text a → Borders text' b →
      (cutFrom a text.toList).2 = (cutFrom b text'.toList).2 →
        (behind text a).map (fun t => (label t, t.start + b, t.stop + b)) =
          (behind text' b).map fun t => (label t, t.start + a, t.stop + a) := by
  constructor
  · intro text i t known
    rw [readAll_eq_layOut] at known
    obtain ⟨whole, starts⟩ := exists_cut_of_getElem? known
    have inside : i < (labels text.toList).length := by
      have bound := (List.getElem?_eq_some_iff.1 known).1
      rwa [← List.length_map label, map_label_layOut] at bound
    have count : (layOut 0 .zero ((labels text.toList).take i)).length = i := by
      rw [← List.length_map label, map_label_layOut, List.length_take, Nat.min_eq_left (Nat.le_of_lt inside)]
    rw [starts, Nat.zero_add, readFrom_size_chars whole, (layOut_at whole).2,
      List.drop_append_of_le_length (Nat.le_of_eq count.symm), List.drop_of_length_le (Nat.le_of_eq count),
      List.nil_append]
  · intro text text' a b border border' same
    obtain ⟨xs, ys, cut, rfl⟩ := border.exists_cut
    obtain ⟨xs', ys', cut', rfl⟩ := border'.exists_cut
    rw [(layOut_at cut).1, (layOut_at cut').1, cutFrom_size_append, cutFrom_size_append] at same
    have labels : ys = ys' := by
      rw [← labels_chars cut, ← labels_chars cut']
      exact congrArg Token.labels same
    rw [behind_size_chars cut, behind_size_chars cut', labels]
    exact map_layOut_moved (Nat.add_comm _ _) _ _ _

/-- A name in front of a semicolon, and a comment that swallows one. -/
theorem readFrom_border_semicolon : Borders "a;b" 1 ∧ Borders "//;\n;b" 4 ∧
    (cutFrom 1 "a;b".toList).2 = (cutFrom 4 "//;\n;b".toList).2 ∧
    (behind "a;b" 1).map (fun t => (label t, t.start + 4, t.stop + 4)) =
      (behind "//;\n;b" 4).map fun t => (label t, t.start + 1, t.stop + 1) := by
  have border : Borders "a;b" 1 := ⟨⟨.semicolon, ";", 1, ⟨⟨0, 1⟩, ⟨0, 2⟩⟩⟩, by with_unfolding_all decide, .inl rfl⟩
  have border' : Borders "//;\n;b" 4 :=
    ⟨⟨.semicolon, ";", 4, ⟨⟨1, 0⟩, ⟨1, 1⟩⟩⟩, by with_unfolding_all decide, .inl rfl⟩
  have same : (cutFrom 1 "a;b".toList).2 = (cutFrom 4 "//;\n;b".toList).2 := by decide
  exact ⟨border, border', same, readFrom_border.2 _ _ _ _ border border' same⟩

end ShaderTree.Token
