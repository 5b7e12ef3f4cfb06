import ShaderTree.Parser.Relex
import ShaderTree.Proofs.Text.Mapping
import ShaderTree.Proofs.Text.Lines
import ShaderTree.Proofs.Tree.Leaves

/-! Relexing is lexing. The old tokens that are carried over are those of the new text: in front of
the restart no lexeme reads past the line break that starts there, and behind the border where the
old tokens are taken up again both texts are the same. -/
namespace ShaderTree.Relex

open Token (Label chars labels layOut)
open Text (size)

/-- The leaves with text are the tokens of the text. -/
def IsTokenized (d : Document) : Prop := d.root.leaves.filter Token.hasText = labels d.text.toList

/-- Old tokens with given labels, from an offset on. -/
def measure (start : Nat) (ls : List Label) : List OldToken :=
  (Site.offsets start ls).map fun (start, k, text) => ⟨start, k, text.utf8ByteSize⟩

@[simp] theorem measure_cons (start : Nat) (l : Label) (ls : List Label) :
    measure start (l :: ls) =
      ⟨start, l.1, l.2.utf8ByteSize⟩ :: measure (start + l.2.utf8ByteSize) ls := rfl

theorem measure_append (start : Nat) (ls ls' : List Label) :
    measure start (ls ++ ls') = measure start ls ++ measure (start + size (chars ls)) ls' := by
  rw [measure, Site.offsets_append, List.map_append]
  rfl

theorem oldTokens_eq {old : Document} (tokenized : IsTokenized old) :
    oldTokens old = measure 0 (labels old.text.toList) := by
  have place : ∀ l ∈ (Site.root old.root).leaves,
      (⟨l.start, l.kind, l.stop - l.start⟩ : OldToken) =
        (fun (start, k, text) => ⟨start, k, text.utf8ByteSize⟩ : Nat × Label → OldToken) l.place := by
    intro l member
    have size := Site.size_of_mem_leaves member
    simp [Site.place, Site.stop, size]
  have hasText : ∀ l ∈ (Site.root old.root).leaves,
      decide (l.start < l.stop) = Token.hasText l.place.2 := by
    intro l member
    have size := Site.size_of_mem_leaves member
    by_cases some : Token.hasText l.place.2
    · have positive : 0 < l.tree.text.utf8ByteSize := Token.size_pos_of_hasText some
      rw [some, decide_eq_true_eq, Site.stop, size]
      omega
    · have empty : l.tree.text = "" := Token.eq_empty_of_not_hasText some
      simp [some, Site.stop, size, empty]
  rw [oldTokens, List.filter_congr hasText, measure, ← tokenized, ← Site.filter_offsets,
    ← Site.map_place_leaves, List.filter_map, List.map_map]
  apply List.map_congr_left
  intro l member
  exact place l (List.mem_of_mem_filter member)

/-- Tokens carried over to where their labels stand are laid out there. -/
theorem carryOver_measure (start oldStart : Nat) (p : Position) (ls : List Label)
    (more : List Char) :
    carryOver (chars ls ++ more) start p (measure oldStart ls) = .ok (layOut start p ls) := by
  induction ls generalizing start oldStart p with
  | nil => rfl
  | cons l ls ih =>
    have cut := Text.cut?_size_append l.2.toList (chars ls ++ more)
    rw [Text.size_toList, ← List.append_assoc] at cut
    rw [measure_cons, carryOver, Token.chars_cons, cut]
    simp only [ih, bind, Except.bind, pure, Except.pure, String.ofList_toList, layOut]

theorem stop_le_of_mem_measure {start : Nat} {ls : List Label} {t : OldToken}
    (member : t ∈ measure start ls) : t.stop ≤ start + size (chars ls) := by
  induction ls generalizing start with
  | nil => simp [measure, Site.offsets] at member
  | cons l ls ih =>
    rw [Token.chars_cons, Text.size_append, Text.size_toList]
    rcases List.mem_cons.mp member with rfl | member
    · simp only [OldToken.stop]; omega
    · have := ih member
      omega

theorem start_le_of_mem_measure {start : Nat} {ls : List Label} {t : OldToken}
    (member : t ∈ measure start ls) : start ≤ t.start := by
  induction ls generalizing start with
  | nil => simp [measure, Site.offsets] at member
  | cons l ls ih =>
    rcases List.mem_cons.mp member with rfl | member
    · exact Nat.le_refl _
    · have := ih member
      omega

/-- The tokens that end up to a border are those in front of it. -/
theorem takeWhile_measure {xs ys : List Label} (some : ∀ y ∈ ys, Token.hasText y = true) :
    (measure 0 (xs ++ ys)).takeWhile (·.stop ≤ size (chars xs)) = measure 0 xs := by
  have front : ∀ t ∈ measure 0 xs, decide (t.stop ≤ size (chars xs)) = true := by
    intro t member
    have := stop_le_of_mem_measure member
    exact decide_eq_true (by omega)
  rw [measure_append, List.takeWhile_append_of_pos front, Nat.zero_add]
  cases ys with
  | nil => simp [measure, Site.offsets]
  | cons y ys =>
    have positive := Token.size_pos_of_hasText (some y (by simp))
    have refused : ¬ size (chars xs) + y.2.utf8ByteSize ≤ size (chars xs) := by omega
    simp [OldToken.stop, refused]

/-- Old tokens from an offset on, if one starts there. -/
theorem dropWhile_measure (start target : Nat) (ls : List Label) :
    (measure start ls).dropWhile (·.start ≠ target) = [] ∨
      ∃ xs ys, ls = xs ++ ys ∧ start + size (chars xs) = target ∧
        (measure start ls).dropWhile (·.start ≠ target) = measure target ys := by
  induction ls generalizing start with
  | nil => exact .inl rfl
  | cons l ls ih =>
    by_cases here : start = target
    · subst here
      exact .inr ⟨[], l :: ls, rfl, rfl, by simp⟩
    · have skipped : (measure start (l :: ls)).dropWhile (·.start ≠ target) =
          (measure (start + l.2.utf8ByteSize) ls).dropWhile (·.start ≠ target) := by
        simp [here]
      rw [skipped]
      rcases ih (start + l.2.utf8ByteSize) with none | ⟨xs, ys, rfl, there, rest⟩
      · exact .inl none
      · refine .inr ⟨l :: xs, ys, rfl, ?_, rest⟩
        rw [Token.chars_cons, Text.size_append, Text.size_toList]
        omega

section

variable {old : Document} {newText : String}

/-- Tokens in front of the restart are those of the new text, and reading goes on behind them. -/
structure Restart (old new : List Char) (start : Nat) (xs ys : List Label) (rest : List Char) :
    Prop where
  oldLabels : labels old = xs ++ ys
  newLabels : labels new = xs ++ labels rest
  split : new = chars xs ++ rest
  border : start = size (chars xs)

theorem chars_leaves (tokenized : IsTokenized old) :
    chars old.root.leaves = old.text.toList := by
  rw [← Token.chars_filter_hasText, tokenized, Token.chars_labels]

def OldToken.meets (offset : Nat) (t : OldToken) : Bool := t.start ≤ offset && offset ≤ t.stop

theorem leavesAt_eq {offset : Nat} (tokenized : IsTokenized old)
    (inside : offset ≤ size old.text.toList) :
    ∃ sites, (Site.root old.root).leavesAt offset = .ok sites ∧
      sites.map (fun l => (⟨l.start, l.kind, l.stop - l.start⟩ : OldToken)) =
        (oldTokens old).filter (OldToken.meets offset) := by
  have covers : (Site.root old.root).start ≤ offset ∧ offset ≤ (Site.root old.root).stop := by
    simp only [Site.root, Site.stop, Tree.size_eq, chars_leaves tokenized]
    omega
  refine ⟨_, if_pos covers, ?_⟩
  rw [oldTokens, List.filter_map, List.filter_filter]
  congr 1
  apply List.filter_congr
  intro l member
  have order : l.start ≤ l.stop := Nat.le_add_right _ _
  have stop : l.start + (l.stop - l.start) = l.stop := by omega
  simp only [Function.comp_apply, OldToken.meets, OldToken.stop, stop]
  rw [Bool.and_assoc, Bool.and_comm]

/-- The last old token that touches an offset in front of the end holds the next character. -/
theorem getLast?_touching {xs ys : List Label} {y : Label} {offset : Nat}
    (before : size (chars xs) ≤ offset) (behind : offset < size (chars xs) + y.2.utf8ByteSize) :
    ((measure 0 (xs ++ y :: ys)).filter (OldToken.meets offset)).getLast? =
      some ⟨size (chars xs), y.1, y.2.utf8ByteSize⟩ := by
  have others : (measure (size (chars xs) + y.2.utf8ByteSize) ys).filter
      (OldToken.meets offset) = [] := by
    apply List.filter_eq_nil_iff.2
    intro t member meets
    have later := start_le_of_mem_measure member
    simp only [OldToken.meets, Bool.and_eq_true, decide_eq_true_eq] at meets
    omega
  have own : OldToken.meets offset ⟨size (chars xs), y.1, y.2.utf8ByteSize⟩ = true := by
    simp only [OldToken.meets, Bool.and_eq_true, decide_eq_true_eq]
    simp only [OldToken.stop]
    omega
  rw [measure_append, measure_cons, Nat.zero_add, List.filter_append,
    List.filter_cons_of_pos own, others, List.getLast?_append]
  rfl

/-- The restart is in front of the first change and of the line break before it. -/
theorem restartOffset_spec (newTail : List Char) {c oldTail : List Char} (tokenized : IsTokenized old)
    (oldIs : old.text.toList = c ++ oldTail) :
    ∃ start xs ys rest, restartOffset old (size c) = .ok start ∧
      Restart old.text.toList (c ++ newTail) start xs ys rest := by
  have line := LineIndex.lineStart?_lineCol oldIs
  unfold restartOffset Document.lineIndex
  dsimp only
  rw [line]
  cases last : (LineIndex.startsAfterBreaks 0 c).getLast? with
  | none =>
    exact ⟨0, [], labels old.text.toList, c ++ newTail, rfl, rfl, rfl, rfl, rfl⟩
  | some s =>
    obtain ⟨a, r, rfl, rfl⟩ := LineIndex.getLast?_startsAfterBreaks last
    have inside : size a < size (chars (labels old.text.toList)) := by
      rw [Token.chars_labels, oldIs]
      simp only [Text.size_append, Text.size_cons]
      have positive := Char.utf8Size_pos '\n'
      omega
    obtain ⟨xs, y, ys, cut, before, behind⟩ := Token.exists_label_at inside
    have covered : size a ≤ size old.text.toList := by
      rw [Token.chars_labels] at inside
      omega
    obtain ⟨sites, found, are⟩ := leavesAt_eq tokenized covered
    rw [oldTokens_eq tokenized, cut] at are
    have final := congrArg List.getLast? are
    rw [getLast?_touching before behind, List.getLast?_map] at final
    obtain ⟨site, isLast, place⟩ := Option.map_eq_some_iff.1 final
    have start : site.start = size (chars xs) := congrArg OldToken.start place
    have whole := Token.chars_labels old.text.toList
    rw [cut, Token.chars_append, oldIs, List.append_assoc] at whole
    have short := Text.size_le_of_length_le whole before
    rw [oldIs, List.append_assoc, List.cons_append] at cut
    have kept := Token.labels_break (r ++ newTail) cut short
    obtain ⟨m, aIs, _⟩ := Text.exists_of_append_eq whole before
    refine ⟨size (chars xs), xs, y :: ys, m ++ '\n' :: (r ++ newTail), ?_, ?_, ?_, ?_, rfl⟩
    · simp [found, isLast, start, bind, Except.bind, pure, Except.pure]
    · rw [oldIs, List.append_assoc, List.cons_append, cut]
    · rw [List.append_assoc, List.cons_append, kept, aIs, List.drop_left]
    · rw [aIs]
      simp

end

variable {map : EditMap} {old new : List Char} {last : Nat}

/-- Old tokens that start where the new text goes on behind the last change are the tokens of what
is left of it. -/
theorem resumed_spec (describes : map.Describes new old) (isLast : map.lastChange? = some last)
    {xs ys : List Label} (oldLabels : labels old = xs ++ ys) {front rest : List Char} {oldEnd : Nat}
    (whole : new = front ++ rest) (later : last ≤ size front)
    (found : map.toOld? (size front) = .ok (some oldEnd)) :
    (measure (size (chars xs)) ys).dropWhile (·.start ≠ oldEnd) = [] ∨
      (measure (size (chars xs)) ys).dropWhile (·.start ≠ oldEnd) =
        measure oldEnd (labels rest) := by
  obtain ⟨a, a', tail, rfl, newIs, oldIs, toOld⟩ := describes.behind_lastChange isLast
  rcases dropWhile_measure (size (chars xs)) oldEnd ys with none | ⟨zs, ws, rfl, there, resumed⟩
  · exact .inl none
  · right
    rw [resumed]
    rw [newIs] at whole
    obtain ⟨m, rfl, rfl⟩ := Text.exists_of_append_eq whole later
    have is := toOld _ later
    rw [EditMap.walk_of_toOld? found, Option.some.injEq, Text.size_append] at is
    have texts := Token.chars_labels old
    rw [oldLabels, oldIs, ← List.append_assoc, Token.chars_append, ← List.append_assoc] at texts
    have same : chars ws = rest := by
      refine (Text.eq_of_append_eq texts ?_).2
      simp only [Token.chars_append, Text.size_append]
      omega
    rw [← List.append_assoc] at oldLabels
    rw [← same, Token.labels_chars oldLabels]

theorem rejoin_spec (describes : map.Describes new old) (isLast : map.lastChange? = some last)
    {xs ys : List Label} (oldLabels : labels old = xs ++ ys) (zs : List Label) {front : List Char}
    (whole : new = front ++ chars zs) (tail : labels (chars zs) = zs) (p : Position) :
    rejoin map last (measure (size (chars xs)) ys) (chars zs) (layOut (size front) p zs) =
      .ok (layOut (size front) p zs) := by
  induction zs generalizing front p with
  | nil => rfl
  | cons z zs ih =>
    have rest : labels (chars zs) = zs := Token.labels_chars (tail.trans (List.singleton_append ..).symm)
    have whole' : new = (front ++ z.2.toList) ++ chars zs := by rw [whole]; simp
    have behind : (chars (z :: zs)).drop z.2.length = chars zs := by
      rw [Token.chars_cons, ← String.length_toList, List.drop_left]
    have stop : size front + z.2.utf8ByteSize = size (front ++ z.2.toList) := by simp
    have go := ih whole' rest (p.advance z.2.toList)
    rw [layOut, rejoin, behind]
    simp only [Token.stop, stop]
    by_cases early : size (front ++ z.2.toList) < last
    · rw [if_pos early, go]
      rfl
    · have inside : size (front ++ z.2.toList) ≤ size new := by
        rw [whole', Text.size_append _ (chars zs)]
        exact Nat.le_add_right _ _
      have answer := describes.toOld?_eq inside
      rw [if_neg early]
      generalize EditMap.walk (size (front ++ z.2.toList)) 0 0 map.segments = origin at answer
      rw [answer]
      cases origin with
      | none =>
        rw [go]
        rfl
      | some oldEnd =>
        rcases resumed_spec describes isLast oldLabels whole' (by omega) answer with none | resumed
        · simp only [bind, Except.bind, none, go]
          rfl
        · rw [rest] at resumed
          have carried := carryOver_measure (size (front ++ z.2.toList)) oldEnd
            (p.advance z.2.toList) zs []
          rw [List.append_nil] at carried
          simp only [bind, Except.bind, resumed]
          cases measured : measure oldEnd zs with
          | nil =>
            simp only [go]
            rfl
          | cons t ts =>
            simp only [← measured, carried]
            rfl

/-- Tokens of the new text, partly taken from the old tree, are those that reading it gives. -/
theorem tokens_eq_readAll {old : Document} {newText : String} (tokenized : IsTokenized old)
    (describes : map.Describes newText.toList old.text.toList) :
    tokens old map newText = .ok (Token.readAll newText) := by
  unfold tokens
  cases first : map.firstChange? with
  | none => rfl
  | some f =>
    cases isLast : map.lastChange? with
    | none => rfl
    | some last =>
      obtain ⟨c, newTail, oldTail, rfl, newIs, oldIs⟩ := describes.before_firstChange first
      obtain ⟨start, xs, ys, rest, found, restart⟩ := restartOffset_spec newTail tokenized oldIs
      rw [← newIs] at restart
      obtain ⟨oldLabels, newLabels, split, rfl⟩ := restart
      have hasText : ∀ y ∈ ys, Token.hasText y = true := fun y member =>
        Token.hasText_of_mem_labels (oldLabels ▸ List.mem_append_right xs member)
      have all : oldTokens old = measure 0 (xs ++ ys) := by rw [oldTokens_eq tokenized, oldLabels]
      have dropped : (oldTokens old).drop (measure 0 xs).length = measure (size (chars xs)) ys := by
        rw [all, measure_append, List.drop_left, Nat.zero_add]
      have before : carryOver newText.toList 0 .zero (measure 0 xs) = .ok (layOut 0 .zero xs) := by
        rw [split, carryOver_measure]
      have fresh : Token.readFrom newText (size (chars xs)) =
          layOut (size (chars xs)) (Position.zero.advance (chars xs)) (labels rest) := by
        rw [Token.readFrom, split, Text.cutFrom_size_append]
        exact Token.place_eq_layOut _ _ _
      have after := rejoin_spec describes isLast oldLabels (labels rest)
        (by rw [Token.chars_labels, split]) (by rw [Token.chars_labels])
        (Position.zero.advance (chars xs))
      rw [Token.chars_labels] at after
      have kept : (oldTokens old).takeWhile (·.stop ≤ size (chars xs)) = measure 0 xs := by
        rw [all, takeWhile_measure hasText]
      have cut : (Text.cutFrom (size (chars xs)) newText.toList).2 = rest := by
        rw [split, Text.cutFrom_size_append]
      simp only [found, kept, dropped, before, fresh, cut, after, bind, Except.bind, pure,
        Except.pure]
      rw [Token.readAll_eq_layOut, newLabels, Token.layOut_append, Nat.zero_add]

end ShaderTree.Relex
