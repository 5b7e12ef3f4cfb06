import ShaderTree.Proofs.Text.Mapping

/-! Where the bytes of an edited text come from. The map of the edits leads each offset either nowhere
or back to the old byte that stands there now; around the changes, and wherever the edits touched
nothing, it leads back. -/
namespace ShaderTree

/-- Makes an edit in a row of bytes that go by their old offsets. Those put in have none. -/
def Edit.carry (e : Edit) (bytes : List (Option Nat)) : List (Option Nat) :=
  bytes.take e.start ++ (List.replicate (e.newEnd - e.start) none ++ bytes.drop e.oldEnd)

namespace EditMap

open Text

/-- Old offsets of the bytes that edits make of a text with `length` bytes. -/
def origins (length : Nat) (edits : List Edit) : List (Option Nat) :=
  edits.foldl (fun bytes e => e.carry bytes) ((List.range length).map some)

/-- What a map says of bytes that came from a text with `length` bytes. -/
structure Tracks (m : EditMap) (length : Nat) (bytes : List (Option Nat)) : Prop where
  answers : ∀ pos ≤ bytes.length, ∃ origin, m.toOld? pos = .ok origin
  origin : ∀ pos < bytes.length, ∀ i, m.toOld? pos = .ok (some i) → bytes[pos]? = some (some i)
  front : ∀ first, m.firstChange? = some first → ∀ pos < first, ∃ i, m.toOld? pos = .ok (some i)
  back : ∀ last, m.lastChange? = some last → ∀ pos ≤ bytes.length, last ≤ pos →
    ∃ i, m.toOld? pos = .ok (some i)
  ends : m.toOld? bytes.length = .ok (some length)
  increasing : ∀ a b i j, a < b → m.toOld? a = .ok (some i) → m.toOld? b = .ok (some j) → i < j
  /-- What no edit touched is still there in one piece. -/
  spared : ∀ start stop, start < stop → stop ≤ length → m.touches start stop = false →
    ∃ pos, ∀ d < stop - start,
      bytes[pos + d]? = some (some (start + d)) ∧ m.toOld? (pos + d) = .ok (some (start + d))

/-! The map, one segment after the other -/

section Walk

variable {n o pos i : Nat} {ss : List Segment} {new old : List Char}

/-- An offset that leads back lies in a stretch that both texts share, as far from its start. -/
theorem Aligned.shared (h : Aligned n o ss new old) (behind : n ≤ pos) (inside : pos < n + size new)
    (found : walk pos n o ss = some i) :
    ∃ a a' d x y, new = a ++ (d ++ x) ∧ old = a' ++ (d ++ y) ∧ n + size a ≤ pos ∧
      pos < n + size a + size d ∧ i = pos - (n + size a) + (o + size a') := by
  induction h with
  | same n o cs =>
    refine ⟨[], [], cs, [], [], by simp, by simp, behind, inside, ?_⟩
    exact (Option.some.inj found).symm
  | @change n o s ss new old common added removed newStart newEnd oldStart oldEnd rest ih =>
    rw [walk] at found
    split at found
    · rename_i passed
      simp only [size_append] at inside
      obtain ⟨a, a', d, x, y, rfl, rfl, after, before, is⟩ := ih passed (by omega) found
      refine ⟨common ++ (added ++ a), common ++ (removed ++ a'), d, x, y, by simp, by simp, ?_, ?_, ?_⟩
      all_goals simp only [size_append]; omega
    · split at found
      · cases found
      · refine ⟨[], [], common, _, _, rfl, rfl, behind, ?_, (Option.some.inj found).symm⟩
        simp only [size_nil]
        omega

theorem Aligned.le_walk (h : Aligned n o ss new old) (found : walk pos n o ss = some i) : o ≤ i := by
  induction h with
  | same => rw [walk, Option.some.injEq] at found; omega
  | change common added removed newStart newEnd oldStart oldEnd rest ih =>
    rw [walk] at found
    split at found
    · have := ih found
      omega
    · split at found
      · cases found
      · rw [Option.some.injEq] at found
        omega

theorem Aligned.walk_lt (h : Aligned n o ss new old) {pos' j : Nat} (behind : n ≤ pos)
    (further : pos < pos') (found : walk pos n o ss = some i) (found' : walk pos' n o ss = some j) :
    i < j := by
  induction h with
  | same =>
    rw [walk, Option.some.injEq] at found found'
    omega
  | change common added removed newStart newEnd oldStart oldEnd rest ih =>
    rw [walk] at found found'
    split at found
    · rename_i passed
      rw [if_pos (by omega)] at found'
      exact ih passed found found'
    · split at found
      · cases found
      · rw [Option.some.injEq] at found
        split at found'
        · have := rest.le_walk found'
          omega
        · split at found'
          · cases found'
          · rw [Option.some.injEq] at found'
            omega

/-- The end leads back to the end. -/
theorem Aligned.walk_end (h : Aligned n o ss new old) :
    walk (n + size new) n o ss = some (o + size old) := by
  induction h with
  | same => rw [walk, Option.some.injEq]; omega
  | @change n o s ss new old common added removed newStart newEnd oldStart oldEnd rest ih =>
    have atNew : n + size (common ++ (added ++ new)) = s.newEnd + size new := by
      simp only [size_append]; omega
    have atOld : o + size (common ++ (removed ++ old)) = s.oldEnd + size old := by
      simp only [size_append]; omega
    rw [atNew, atOld, walk, if_pos (Nat.le_add_right _ _), ih]

/-- A stretch of the old text that no segment touches has its place in the new one. -/
theorem Aligned.spared (h : Aligned n o ss new old) {start stop : Nat} (behind : o ≤ start)
    (some : start < stop) (inside : stop ≤ o + size old)
    (clear : ∀ s ∈ ss, s.oldEnd ≤ start ∨ stop ≤ s.oldStart) :
    ∃ pos, n ≤ pos ∧ pos + (stop - start) ≤ n + size new ∧
      ∀ d < stop - start, walk (pos + d) n o ss = .some (start + d) := by
  induction h with
  | same n o cs =>
    refine ⟨start - o + n, by omega, by omega, fun d near => ?_⟩
    rw [walk, Option.some.injEq]
    omega
  | @change n o s ss new old common added removed newStart newEnd oldStart oldEnd rest ih =>
    simp only [size_append] at inside ⊢
    rcases clear s List.mem_cons_self with later | sooner
    · obtain ⟨pos, after, before, back⟩ := ih later (by omega)
        fun t member => clear t (List.mem_cons_of_mem _ member)
      refine ⟨pos, by omega, by omega, fun d near => ?_⟩
      rw [walk, if_pos (by omega)]
      exact back d near
    · refine ⟨start - o + n, by omega, by omega, fun d near => ?_⟩
      rw [walk, if_neg (by omega), if_neg (by omega), Option.some.injEq]
      omega

end Walk

/-- A range that is not touched lies in front of each segment or behind it. -/
theorem le_or_le_of_touches {m : EditMap} {start stop : Nat} (clear : m.touches start stop = false) :
    ∀ s ∈ m.segments, s.oldEnd ≤ start ∨ stop ≤ s.oldStart := by
  intro s member
  have own := List.any_eq_false.1 clear s member
  split at own
  · simp only [Bool.and_eq_true, decide_eq_true_eq] at own
    omega
  · simp only [Bool.and_eq_true, decide_eq_true_eq] at own
    omega

/-! Bytes written as letters: a map says the same of all texts with the same origins, so one that has a
letter in one place only tells where that place comes from. -/

/-- Bytes as letters of one byte each, chosen by the old offsets. -/
def letters (f : Nat → Char) (bytes : List (Option Nat)) : List Char :=
  bytes.map fun origin => (origin.map f).getD 'a'

section Letters

variable {f : Nat → Char} {bytes : List (Option Nat)}

theorem utf8Size_letters (narrow : ∀ i, (f i).utf8Size = 1) (bytes : List (Option Nat)) :
    ∀ c ∈ letters f bytes, c.utf8Size = 1 := by
  intro c member
  obtain ⟨origin, _, rfl⟩ := List.mem_map.1 member
  cases origin with
  | none => rfl
  | some i => exact narrow i

theorem size_eq_length {cs : List Char} (narrow : ∀ c ∈ cs, c.utf8Size = 1) :
    size cs = cs.length := by
  induction cs with
  | nil => rfl
  | cons c cs ih =>
    have own := narrow c List.mem_cons_self
    have others := ih fun d member => narrow d (List.mem_cons_of_mem _ member)
    rw [size_cons, List.length_cons]
    omega

theorem size_letters (narrow : ∀ i, (f i).utf8Size = 1) (bytes : List (Option Nat)) :
    size (letters f bytes) = bytes.length := by
  rw [size_eq_length (utf8Size_letters narrow bytes), letters, List.length_map]

theorem letters_carry (e : Edit) : letters f (e.carry bytes) =
    letters f (bytes.take e.start) ++ (letters f (List.replicate (e.newEnd - e.start) none) ++
      letters f (bytes.drop e.oldEnd)) := by
  simp only [letters, Edit.carry, List.map_append]

theorem length_carry {e : Edit} (wellFormed : e.isWellFormed = true)
    (inside : e.oldEnd ≤ bytes.length) :
    (e.carry bytes).length = bytes.length + e.newEnd - e.oldEnd := by
  obtain ⟨starts, ends⟩ : e.start ≤ e.oldEnd ∧ e.start ≤ e.newEnd := by
    simpa [Edit.isWellFormed] using wellFormed
  simp only [Edit.carry, List.length_append, List.length_take, List.length_replicate,
    List.length_drop]
  omega

/-- An edit that is accepted can be made in the letters. -/
theorem describes_carry {m m' : EditMap} {e : Edit} {old : List Char}
    (narrow : ∀ i, (f i).utf8Size = 1) (h : m.Describes (letters f bytes) old)
    (wellFormed : e.isWellFormed = true) (inside : e.oldEnd ≤ bytes.length)
    (before : bytes.length < 2 ^ 64) (after : (e.carry bytes).length < 2 ^ 64)
    (added : (if e.isVoid then pure m else m.add e) = .ok m') :
    m'.Describes (letters f (e.carry bytes)) old := by
  obtain ⟨starts, ends⟩ : e.start ≤ e.oldEnd ∧ e.start ≤ e.newEnd := by
    simpa [Edit.isWellFormed] using wellFormed
  have whole : letters f bytes = letters f (bytes.take e.start) ++
      (letters f ((bytes.take e.oldEnd).drop e.start) ++ letters f (bytes.drop e.oldEnd)) := by
    simp only [letters, ← List.map_append]
    congr 1
    have front : bytes.take e.start = (bytes.take e.oldEnd).take e.start := by
      rw [List.take_take, Nat.min_eq_left starts]
    rw [front, ← List.append_assoc, List.take_append_drop, List.take_append_drop]
  have start : e.start = size (letters f (bytes.take e.start)) := by
    rw [size_letters narrow, List.length_take]
    omega
  have stop : e.oldEnd = e.start + size (letters f ((bytes.take e.oldEnd).drop e.start)) := by
    rw [size_letters narrow, List.length_drop, List.length_take]
    omega
  have newEnd : e.newEnd = e.start + size (letters f (List.replicate (e.newEnd - e.start) none)) := by
    rw [size_letters narrow, List.length_replicate]
    omega
  rw [← size_letters narrow bytes, whole] at before
  rw [← size_letters narrow, letters_carry] at after
  rw [whole] at h
  rw [letters_carry]
  have changed := h.edit start stop newEnd before after
  split at added
  · rename_i void
    rw [if_pos void] at changed
    exact Except.ok.inj added ▸ changed
  · rename_i full
    rw [if_neg full] at changed
    rwa [eq_of_add h.aligned h.separate start stop newEnd after added]

/-- The map of edits describes what the edits make of the letters. -/
theorem describes_foldl {m map : EditMap} {edits : List Edit} {old : List Char}
    (narrow : ∀ i, (f i).utf8Size = 1) (h : m.Describes (letters f bytes) old)
    (accepted : addAll? m bytes.length edits = .ok (some map)) :
    map.Describes (letters f (edits.foldl (fun bytes e => e.carry bytes) bytes)) old := by
  induction edits generalizing m bytes with
  | nil => exact Option.some.inj (Except.ok.inj accepted) ▸ h
  | cons e es ih =>
    obtain ⟨m', wellFormed, inside, word, word', added, others⟩ := exists_of_addAll?_cons accepted
    rw [← length_carry wellFormed inside] at word' others
    exact ih (describes_carry narrow h wellFormed inside word word' added) others

theorem describes_origins {m : EditMap} {length : Nat} {edits : List Edit}
    (narrow : ∀ i, (f i).utf8Size = 1) (accepted : ofEdits? edits length = .ok (some m)) :
    m.Describes (letters f (origins length edits)) (letters f ((List.range length).map some)) := by
  refine describes_foldl narrow (describes_empty _) ?_
  rw [List.length_map, List.length_range]
  exact accepted

end Letters

/-- The length that a sequence of edits gives a text with `length` bytes. -/
def totalLength (length : Int) (edits : List Edit) : Int :=
  edits.foldl (fun n e => n + ((e.newEnd : Int) - e.oldEnd)) length

theorem length_origins {m : EditMap} {length : Nat} {edits : List Edit}
    (accepted : ofEdits? edits length = .ok (some m)) :
    ((origins length edits).length : Int) = totalLength length edits := by
  suffices all : ∀ (edits : List Edit) (m map : EditMap) (bytes : List (Option Nat)),
      addAll? m bytes.length edits = .ok (some map) →
        ((edits.foldl (fun bytes e => e.carry bytes) bytes).length : Int) =
          totalLength bytes.length edits by
    have whole := all edits ⟨[]⟩ m ((List.range length).map some)
      (by rw [List.length_map, List.length_range]; exact accepted)
    rwa [List.length_map, List.length_range] at whole
  intro edits
  induction edits with
  | nil => exact fun _ _ _ _ => rfl
  | cons e es ih =>
    intro m map bytes accepted
    obtain ⟨m', wellFormed, inside, _, _, _, others⟩ := exists_of_addAll?_cons accepted
    rw [← length_carry wellFormed inside] at others
    rw [List.foldl_cons, ih _ _ _ others, length_carry wellFormed inside, totalLength, totalLength,
      List.foldl_cons]
    congr 1
    omega

/-- The letter that stands in one old place only. -/
def marked (i j : Nat) : Char := if j = i then 'b' else 'a'

theorem utf8Size_marked (i j : Nat) : (marked i j).utf8Size = 1 := by
  unfold marked
  split <;> rfl

theorem origin_of_toOld? {m : EditMap} {length pos i : Nat} {edits : List Edit}
    (accepted : ofEdits? edits length = .ok (some m)) (inside : pos < (origins length edits).length)
    (found : m.toOld? pos = .ok (some i)) : (origins length edits)[pos]? = some (some i) := by
  have narrow := utf8Size_marked i
  have h := describes_origins narrow accepted
  obtain ⟨a, a', d, x, y, new, old, after, before, is⟩ := h.aligned.shared (Nat.zero_le pos)
    (by rw [size_letters narrow]; omega) (walk_of_toOld? found)
  have flatNew : ∀ c ∈ a ++ (d ++ x), c.utf8Size = 1 := new ▸ utf8Size_letters narrow _
  have flatOld : ∀ c ∈ a' ++ (d ++ y), c.utf8Size = 1 := old ▸ utf8Size_letters narrow _
  rw [size_eq_length fun c member => flatNew c (by simp [member])] at after before is
  rw [size_eq_length fun c member => flatNew c (by simp [member])] at before
  rw [size_eq_length fun c member => flatOld c (by simp [member])] at is
  have same : (letters (marked i) (origins length edits))[pos]? =
      (letters (marked i) ((List.range length).map some))[i]? := by
    have atNew : (a ++ (d ++ x))[pos]? = d[pos - a.length]? := by
      rw [List.getElem?_append_right (by omega), List.getElem?_append_left (by omega)]
    have atOld : (a' ++ (d ++ y))[i]? = d[pos - a.length]? := by
      rw [List.getElem?_append_right (by omega), List.getElem?_append_left (by omega)]
      congr 1
      omega
    rw [new, old, atNew, atOld]
  have bound : i < length := by
    have lengths := congrArg List.length old
    simp only [letters, List.length_map, List.length_range, List.length_append] at lengths
    omega
  have letter : (letters (marked i) ((List.range length).map some))[i]? = some 'b' := by
    simp [letters, bound, marked]
  rw [letter, letters, List.getElem?_map, Option.map_eq_some_iff] at same
  obtain ⟨origin, there, letter⟩ := same
  rw [there]
  cases origin with
  | none => cases letter
  | some j =>
    simp only [Option.map_some, Option.getD_some, marked] at letter
    split at letter
    · rename_i own
      rw [own]
    · cases letter

/-- Two places do not hold the same old byte. -/
def Apart (x y : Option Nat) : Prop := x = none ∨ x ≠ y

theorem pairwise_carry {e : Edit} {bytes : List (Option Nat)} (wellFormed : e.isWellFormed = true)
    (apart : bytes.Pairwise Apart) : (e.carry bytes).Pairwise Apart := by
  obtain ⟨starts, _⟩ : e.start ≤ e.oldEnd ∧ e.start ≤ e.newEnd := by
    simpa [Edit.isWellFormed] using wellFormed
  have kept : (bytes.take e.start ++ bytes.drop e.oldEnd).Pairwise Apart := by
    refine apart.sublist ?_
    conv_rhs => rw [← List.take_append_drop e.oldEnd bytes]
    exact (List.take_sublist_take_left starts).append_right _
  obtain ⟨front, back, between⟩ := List.pairwise_append.1 kept
  refine List.pairwise_append.2 ⟨front, List.pairwise_append.2 ⟨?_, back, ?_⟩, ?_⟩
  · exact List.pairwise_replicate.2 (.inr (.inl rfl))
  · exact fun x new y _ => .inl (List.eq_of_mem_replicate new)
  · intro x old y member
    rcases List.mem_append.1 member with new | member
    · rw [List.eq_of_mem_replicate new]
      cases x with
      | none => exact .inl rfl
      | some i => exact .inr (by simp)
    · exact between x old y member

theorem pairwise_origins {m : EditMap} {length : Nat} {edits : List Edit}
    (accepted : ofEdits? edits length = .ok (some m)) : (origins length edits).Pairwise Apart := by
  suffices all : ∀ (edits : List Edit) (m map : EditMap) (length : Nat) (bytes : List (Option Nat)),
      addAll? m length edits = .ok (some map) → bytes.Pairwise Apart →
        (edits.foldl (fun bytes e => e.carry bytes) bytes).Pairwise Apart by
    refine all edits ⟨[]⟩ m length _ accepted (List.pairwise_map.2 ?_)
    exact List.nodup_range.imp fun other => .inr fun same => other (Option.some.inj same)
  intro edits
  induction edits with
  | nil => exact fun _ _ _ _ _ apart => apart
  | cons e es ih =>
    intro m map length bytes accepted apart
    obtain ⟨m', wellFormed, _, _, _, _, others⟩ := exists_of_addAll?_cons accepted
    exact ih _ _ _ _ others (pairwise_carry wellFormed apart)

/-- An old byte is in one place only. -/
theorem origins_unique {m : EditMap} {length pos pos' i : Nat} {edits : List Edit}
    (accepted : ofEdits? edits length = .ok (some m)) (here : (origins length edits)[pos]? = some (some i))
    (there : (origins length edits)[pos']? = some (some i)) : pos = pos' := by
  have apart := List.pairwise_iff_getElem.1 (pairwise_origins accepted)
  obtain ⟨inside, here⟩ := List.getElem?_eq_some_iff.1 here
  obtain ⟨inside', there⟩ := List.getElem?_eq_some_iff.1 there
  rcases Nat.lt_trichotomy pos pos' with before | same | behind
  · rcases apart pos pos' inside inside' before with gone | other
    · cases here.symm.trans gone
    · exact absurd (here.trans there.symm) other
  · exact same
  · rcases apart pos' pos inside' inside behind with gone | other
    · cases there.symm.trans gone
    · exact absurd (there.trans here.symm) other

/-- Where text that no edit touched begins, the map leads back to its beginning. -/
theorem toOld?_of_origin {m : EditMap} {length start stop pos : Nat} {edits : List Edit}
    (accepted : ofEdits? edits length = .ok (some m)) (some : start < stop) (inside : stop ≤ length)
    (clear : m.touches start stop = false) (carried : (origins length edits)[pos]? = .some (.some start)) :
    m.toOld? pos = .ok (.some start) := by
  have narrow : ∀ i, (marked 0 i).utf8Size = 1 := utf8Size_marked 0
  have h := describes_origins narrow accepted
  have newLength := size_letters narrow (origins length edits)
  have oldLength : size (letters (marked 0) ((List.range length).map .some)) = length := by
    rw [size_letters narrow, List.length_map, List.length_range]
  obtain ⟨there, _, room, back⟩ := h.aligned.spared (Nat.zero_le start) some (by omega)
    (le_or_le_of_touches clear)
  have walked := back 0 (Nat.sub_pos_of_lt some)
  rw [Nat.add_zero, Nat.add_zero] at walked
  have found : m.toOld? there = .ok (.some start) := by
    rw [h.toOld?_eq (by omega), walked]
  rwa [origins_unique accepted carried (origin_of_toOld? accepted (by omega) found)]

/-- The map of edits leads the bytes of the new text back to where they come from. -/
theorem tracks_origins {m : EditMap} {length : Nat} {edits : List Edit}
    (accepted : ofEdits? edits length = .ok (some m)) :
    ((origins length edits).length : Int) = totalLength length edits ∧
      m.Tracks length (origins length edits) := by
  have narrow : ∀ i, (marked 0 i).utf8Size = 1 := utf8Size_marked 0
  have h := describes_origins narrow accepted
  have newLength := size_letters narrow (origins length edits)
  have oldLength : size (letters (marked 0) ((List.range length).map some)) = length := by
    rw [size_letters narrow, List.length_map, List.length_range]
  have walked (pos : Nat) (inside : pos ≤ (origins length edits).length) :
      m.toOld? pos = .ok (walk pos 0 0 m.segments) := h.toOld?_eq (by omega)
  refine ⟨length_origins accepted, ?_, ?_, ?_, ?_, ?_, ?_, ?_⟩
  · exact fun pos inside => ⟨_, walked pos inside⟩
  · exact fun pos inside i found => origin_of_toOld? accepted inside found
  · intro first is pos sooner
    obtain ⟨s, head, rfl⟩ := Option.map_eq_some_iff.1 is
    obtain ⟨ss, segments⟩ := List.head?_eq_some_iff.1 head
    have order := h.aligned.ordered s (by simp [segments])
    have inside := (h.aligned.inside s (by simp [segments])).1
    rw [walked pos (by omega), segments, walk, if_neg (by omega), if_neg (by omega)]
    exact ⟨_, rfl⟩
  · intro last is pos inside later
    obtain ⟨_, a', _, _, _, _, back⟩ := h.behind_lastChange is
    rw [walked pos inside, back pos later]
    exact ⟨_, rfl⟩
  · have ends := h.aligned.walk_end
    rw [Nat.zero_add, Nat.zero_add, newLength, oldLength] at ends
    rw [walked _ (Nat.le_refl _), ends]
  · intro a b i j further found found'
    exact h.aligned.walk_lt (Nat.zero_le a) further (walk_of_toOld? found) (walk_of_toOld? found')
  · intro start stop some inside clear
    obtain ⟨pos, _, room, back⟩ := h.aligned.spared (Nat.zero_le start) some (by omega)
      (le_or_le_of_touches clear)
    refine ⟨pos, fun d near => ?_⟩
    have found : m.toOld? (pos + d) = .ok (.some (start + d)) := by
      rw [walked _ (by omega), back d near]
    exact ⟨origin_of_toOld? accepted (by omega) found, found⟩

/-- Three bytes put in, and two of them taken out again with the byte before. -/
theorem tracks_origins_overlapping : ∃ m, ofEdits? [⟨5, 5, 8⟩, .delete 4 7] 10 = .ok (some m) ∧
    origins 10 [⟨5, 5, 8⟩, .delete 4 7] =
      [some 0, some 1, some 2, some 3, none, some 5, some 6, some 7, some 8, some 9] ∧
    m.Tracks 10 (origins 10 [⟨5, 5, 8⟩, .delete 4 7]) :=
  ⟨⟨[⟨4, 5, 4, 5⟩]⟩, by decide +kernel, by decide, (tracks_origins (by decide +kernel)).2⟩

end EditMap

end ShaderTree
