import ShaderTree.Proofs.Text.Alignment
import ShaderTree.Proofs.Word

/-! The map of a sequence of edits. Its sums and differences are those of words: where one of them is
made it is exact, and where the texts have the lengths of texts none of them fails. -/
namespace ShaderTree

open Text

theorem Edit.delta_eq {e : Edit} (oldEnd : e.oldEnd < 2 ^ 63) (newEnd : e.newEnd < 2 ^ 63) :
    e.delta = .ok ((e.newEnd : Int) - e.oldEnd) := by
  rw [delta, Word.checkSigned_eq_ok]
  simp only [Word.signed_eq]
  omega

namespace EditMap

/-! Sums that are made -/

theorem unchangedToOld_eq_ok {before : List Segment} {offset o : Nat} :
    unchangedToOld before offset = .ok o ↔ Exact.unchangedToOld before offset = o ∧
      ∀ s ∈ before.getLast?, s.newEnd ≤ offset ∧ offset < 2 ^ 64 ∧ o < 2 ^ 64 := by
  rw [unchangedToOld, Exact.unchangedToOld, behind_eq_getLast?]
  cases before.getLast? with
  | none => simp [pure, Except.pure]
  | some last =>
    simp only [bind_eq_ok, Word.sub_eq_ok, Word.add_eq_ok, Option.mem_def, Option.some.injEq,
      forall_eq']
    constructor
    · rintro ⟨d, ⟨order, word, rfl⟩, sum, rfl⟩
      exact ⟨rfl, order, word, sum⟩
    · rintro ⟨rfl, order, word, sum⟩
      exact ⟨_, ⟨order, word, rfl⟩, sum, rfl⟩

theorem eq_of_join {before touched : List Segment} {e : Edit} {s : Segment}
    (joined : join before touched e = .ok s) : s = Exact.join before touched e := by
  unfold join at joined
  unfold Exact.join
  cases touched with
  | nil =>
    simp only [List.head?_nil, bind_eq_ok] at joined
    obtain ⟨oldStart, start, oldEnd, stop, rest⟩ := joined
    obtain rfl := (unchangedToOld_eq_ok.1 start).1
    obtain rfl := (unchangedToOld_eq_ok.1 stop).1
    exact (Except.ok.inj rest).symm
  | cons a others =>
    simp only [List.head?_cons, List.getLast?_cons, bind_eq_ok] at joined ⊢
    obtain ⟨_, start, _, stop, is⟩ := joined
    obtain ⟨_, _, rfl⟩ := Word.sub_eq_ok.1 start
    obtain ⟨_, rfl⟩ := Word.add_eq_ok.1 stop
    exact (Except.ok.inj is).symm

/-- The sums of a region that lies in the old text. -/
theorem join_eq {before touched : List Segment} {e : Edit} (ordered : e.start ≤ e.oldEnd)
    (word : e.oldEnd < 2 ^ 64) (order : ∀ s ∈ before.getLast?, s.newEnd ≤ e.start)
    (room : ∀ s ∈ touched.head?, s.newStart - e.start ≤ s.oldStart ∧ s.oldStart < 2 ^ 64)
    (inside : (Exact.join before touched e).oldStart ≤ (Exact.join before touched e).oldEnd ∧
      (Exact.join before touched e).oldEnd < 2 ^ 64) :
    join before touched e = .ok (Exact.join before touched e) := by
  unfold Exact.join at inside ⊢
  unfold join
  split
  · rename_i a b first last
    simp only [first, last, Option.mem_def, Option.some.injEq, forall_eq'] at room inside ⊢
    have start := Word.sub_eq_ok.2 ⟨room.1, room.2, rfl⟩
    have stop := Word.add_eq_ok.2 ⟨inside.2, rfl⟩
    rw [start, stop]
    rfl
  · rename_i untouched
    split at inside
    · rename_i a b first last
      exact absurd last (untouched a b first)
    have start : unchangedToOld before e.start = .ok _ := unchangedToOld_eq_ok.2 ⟨rfl, fun s last =>
      ⟨order s last, by omega, Nat.lt_of_le_of_lt inside.1 inside.2⟩⟩
    have stop : unchangedToOld before e.oldEnd = .ok _ := unchangedToOld_eq_ok.2 ⟨rfl, fun s last =>
      ⟨Nat.le_trans (order s last) ordered, word, inside.2⟩⟩
    rw [start, stop]
    rfl

theorem moved_eq_ok {d : Int} {offset n : Nat} : moved d offset = .ok n ↔
    -2 ^ 63 ≤ Word.signed offset + d ∧ Word.signed offset + d < 2 ^ 63 ∧
      Word.unsigned (Word.signed offset + d) = n := by
  simp only [moved, bind_eq_ok, Word.checkSigned_eq_ok, pure, Except.pure, Except.ok.injEq]
  constructor
  · rintro ⟨_, ⟨lower, upper, rfl⟩, is⟩
    exact ⟨lower, upper, is⟩
  · rintro ⟨lower, upper, is⟩
    exact ⟨_, ⟨lower, upper, rfl⟩, is⟩

theorem eq_of_moved {e : Edit} {d : Int} {offset n : Nat} (delta : e.delta = .ok d)
    (behind : e.oldEnd ≤ offset) (word : offset + e.newEnd - e.oldEnd < 2 ^ 64)
    (h : moved d offset = .ok n) : n = offset + e.newEnd - e.oldEnd := by
  rw [Edit.delta, Word.checkSigned_eq_ok] at delta
  obtain ⟨-, -, rfl⟩ := delta
  obtain ⟨-, -, rfl⟩ := moved_eq_ok.1 h
  simp only [Word.unsigned_eq, Word.signed_eq]
  omega

theorem moved_eq {e : Edit} {offset : Nat} (behind : e.oldEnd ≤ offset) (before : offset < 2 ^ 63)
    (after : offset + e.newEnd - e.oldEnd < 2 ^ 63) :
    moved ((e.newEnd : Int) - e.oldEnd) offset = .ok (offset + e.newEnd - e.oldEnd) := by
  rw [moved_eq_ok]
  simp only [Word.unsigned_eq, Word.signed_eq]
  omega

/-- The segments lie behind the edit and end up to an offset. -/
def Behind (e : Edit) (length : Nat) (ss : List Segment) : Prop :=
  ∀ s ∈ ss, e.oldEnd ≤ s.newStart ∧ s.newStart ≤ s.newEnd ∧ s.newEnd ≤ length

theorem Behind.ofSeparate {e : Edit} {length : Nat} {ss : List Segment} (separate : Separate ss)
    (inside : ∀ s ∈ ss, s.newStart ≤ s.newEnd ∧ s.newEnd ≤ length)
    (clear : ∀ s ∈ ss.head?, e.oldEnd < s.newStart) : Behind e length ss := by
  induction ss with
  | nil => exact fun _ => nofun
  | cons s ss ih =>
    obtain ⟨border, rest⟩ := List.isChain_cons.1 separate
    have own := clear s rfl
    have room := inside s List.mem_cons_self
    have others := ih rest (fun t member => inside t (List.mem_cons_of_mem _ member))
      fun t first => Nat.lt_trans (by omega) (border t first)
    exact List.forall_mem_cons.2 ⟨⟨Nat.le_of_lt own, room⟩, others⟩

section

variable {e : Edit} {length : Nat} {ss : List Segment}

theorem eq_of_movedAll {d : Int} {ts : List Segment} (delta : e.delta = .ok d)
    (behind : Behind e length ss) (word : length + e.newEnd - e.oldEnd < 2 ^ 64)
    (h : movedAll d ss = .ok ts) : ts = Exact.movedAll e ss := by
  induction ss generalizing ts with
  | nil => exact (Except.ok.inj h).symm
  | cons s ss ih =>
    obtain ⟨own, others⟩ := List.forall_mem_cons.1 behind
    simp only [movedAll, bind_eq_ok] at h
    obtain ⟨newStart, start, newEnd, stop, rest, all, is⟩ := h
    obtain rfl := eq_of_moved delta (by omega) (by omega) start
    obtain rfl := eq_of_moved delta (by omega) (by omega) stop
    obtain rfl := ih others all
    exact (Except.ok.inj is).symm

theorem movedAll_eq (behind : Behind e length ss) (before : length < 2 ^ 63)
    (after : length + e.newEnd - e.oldEnd < 2 ^ 63) :
    movedAll ((e.newEnd : Int) - e.oldEnd) ss = .ok (Exact.movedAll e ss) := by
  induction ss with
  | nil => rfl
  | cons s ss ih =>
    obtain ⟨own, others⟩ := List.forall_mem_cons.1 behind
    have start : moved _ s.newStart = .ok _ := moved_eq (e := e) (by omega) (by omega) (by omega)
    have stop : moved _ s.newEnd = .ok _ := moved_eq (e := e) (by omega) (by omega) (by omega)
    simp only [movedAll, ih others, start, stop]
    rfl

end

theorem Exact.newEnd_join (before touched : List Segment) (e : Edit) :
    e.oldEnd ≤ (Exact.join before touched e).newEnd ∧
      ∀ length, e.oldEnd ≤ length → (∀ s ∈ touched, s.newEnd ≤ length) →
        (Exact.join before touched e).newEnd ≤ length := by
  unfold Exact.join
  split
  · rename_i a b first last
    exact ⟨Nat.le_max_left _ _, fun length inside all =>
      Nat.max_le.2 ⟨inside, all b (List.mem_of_getLast? last)⟩⟩
  · exact ⟨Nat.le_refl _, fun length inside _ => inside⟩

/-! One more edit, where the text `p ++ x ++ q` becomes `p ++ y ++ q` -/

section Add

variable {m m' : EditMap} {e : Edit} {p x y q old : List Char}

/-- Segments behind an edit are those that start behind its end. -/
theorem behind_dropWhile (h : Aligned 0 0 m.segments (p ++ (x ++ q)) old)
    (separate : Separate m.segments) (before : Segment → Bool) :
    Behind e (size (p ++ (x ++ q)))
      ((m.segments.dropWhile before).dropWhile (·.newStart ≤ e.oldEnd)) := by
  have suffix := (List.dropWhile_suffix (fun s : Segment => decide (s.newStart ≤ e.oldEnd))).trans
    (List.dropWhile_suffix before (l := m.segments))
  refine .ofSeparate (separate.suffix suffix) (fun s member => ?_) fun s first => ?_
  · have own := h.ordered s (suffix.subset member)
    have room := (h.inside s (suffix.subset member)).1
    omega
  · have refused := List.head?_dropWhile_not (fun s : Segment => decide (s.newStart ≤ e.oldEnd))
      (m.segments.dropWhile before)
    rw [Option.mem_def.1 first] at refused
    simpa using refused

theorem eq_of_add (h : Aligned 0 0 m.segments (p ++ (x ++ q)) old) (separate : Separate m.segments)
    (start : e.start = size p) (stop : e.oldEnd = e.start + size x)
    (newEnd : e.newEnd = e.start + size y) (word : size (p ++ (y ++ q)) < 2 ^ 64)
    (added : m.add e = .ok m') : m' = Exact.add m e := by
  simp only [add, bind_eq_ok] at added
  obtain ⟨joined, isJoined, d, delta, final, isFinal, after, isAfter, is⟩ := added
  obtain rfl := eq_of_join isJoined
  obtain ⟨later, within⟩ := Exact.newEnd_join
    (m.segments.takeWhile (·.newEnd < e.start))
    ((m.segments.dropWhile (·.newEnd < e.start)).takeWhile (·.newStart ≤ e.oldEnd)) e
  have room := within (size (p ++ (x ++ q))) (by simp only [size_append]; omega) fun s member => by
    have := (h.inside s ((List.dropWhile_suffix _).subset ((List.takeWhile_prefix _).subset member))).1
    omega
  simp only [size_append] at word room
  obtain rfl := eq_of_moved delta later (by omega) isFinal
  obtain rfl := eq_of_movedAll delta (behind_dropWhile h separate _)
    (by simp only [size_append]; omega) isAfter
  exact (Except.ok.inj is).symm

/-- The first segment that an edit touches has the old bytes in front of it that the edit reaches. -/
theorem le_oldStart_of_touched (h : Aligned 0 0 m.segments (p ++ (x ++ q)) old) {s : Segment}
    (first : s ∈ ((m.segments.dropWhile (·.newEnd < e.start)).takeWhile
      (·.newStart ≤ e.oldEnd)).head?) : s.newStart - e.start ≤ s.oldStart := by
  rw [← List.takeWhile_append_dropWhile (p := fun s : Segment => decide (s.newEnd < e.start))
    (l := m.segments)] at h
  obtain ⟨a, a', _, _, _, _, ends, back, _⟩ := h.split
  have reach : (behind 0 0 (m.segments.takeWhile (·.newEnd < e.start))).1 ≤ e.start :=
    behind_le fun t member => by simpa using Nat.le_of_lt (by simpa using List.mem_takeWhile_imp member)
  rw [ends] at reach
  have := back.first s (by
    cases rest : m.segments.dropWhile (·.newEnd < e.start) with
    | nil => simp [rest] at first
    | cons t ts =>
      rw [rest, List.takeWhile_cons] at first
      split at first
      · exact first
      · cases first)
  dsimp only at reach
  omega

/-- In texts with the lengths of texts every sum is made. -/
theorem add_eq (h : Aligned 0 0 m.segments (p ++ (x ++ q)) old) (separate : Separate m.segments)
    (start : e.start = size p) (stop : e.oldEnd = e.start + size x)
    (newEnd : e.newEnd = e.start + size y) (before : size (p ++ (x ++ q)) < 2 ^ 63)
    (after : size (p ++ (y ++ q)) < 2 ^ 63) (word : size old < 2 ^ 64) :
    m.add e = .ok (Exact.add m e) := by
  have inside := (aligned_add h separate start stop newEnd).inside
  simp only [Exact.add, List.forall_mem_append, List.forall_mem_cons] at inside
  obtain ⟨_, ⟨_, order, room⟩, _⟩ := inside
  have joined : join (m.segments.takeWhile (·.newEnd < e.start))
      ((m.segments.dropWhile (·.newEnd < e.start)).takeWhile (·.newStart ≤ e.oldEnd)) e = .ok _ := join_eq
    (by omega) (by simp only [size_append] at before; omega) (fun s last => ?_) (fun s first => ?_)
    ⟨order, by omega⟩
  · obtain ⟨later, within⟩ := Exact.newEnd_join
      (m.segments.takeWhile (·.newEnd < e.start))
      ((m.segments.dropWhile (·.newEnd < e.start)).takeWhile (·.newStart ≤ e.oldEnd)) e
    have reach := within (size (p ++ (x ++ q))) (by simp only [size_append]; omega) fun s member => by
      have := (h.inside s ((List.dropWhile_suffix _).subset ((List.takeWhile_prefix _).subset member))).1
      omega
    have movedAfter := movedAll_eq (behind_dropWhile (e := e) h separate
      (fun s => decide (s.newEnd < e.start))) before (by simp only [size_append] at after ⊢; omega)
    simp only [size_append] at before after reach
    have delta := Edit.delta_eq (e := e) (by omega) (by omega)
    have final := moved_eq (e := e) later (by omega) (by omega)
    simp only [add, bind_eq_ok]
    exact ⟨_, joined, _, delta, _, final, _, movedAfter, rfl⟩
  · have := List.mem_takeWhile_imp (List.mem_of_getLast? last)
    simp only [decide_eq_true_eq] at this
    omega
  · have room := le_oldStart_of_touched h first
    have bound := h.inside s ((List.dropWhile_suffix _).subset
      ((List.takeWhile_prefix _).subset (List.mem_of_head? first)))
    exact ⟨room, by omega⟩

end Add

/-! The old offset of a new one -/

theorem walk_eq (pos n o : Nat) (ss : List Segment) : walk pos n o ss =
    if (ss.dropWhile (·.newEnd ≤ pos)).head?.any (·.newStart ≤ pos) then none
    else some (pos - (behind n o (ss.takeWhile (·.newEnd ≤ pos))).1 +
      (behind n o (ss.takeWhile (·.newEnd ≤ pos))).2) := by
  induction ss generalizing n o with
  | nil => rfl
  | cons s ss ih =>
    by_cases passed : s.newEnd ≤ pos
    · rw [walk, if_pos passed, ih]
      simp [passed, behind]
    · rw [walk, if_neg passed]
      simp [passed, behind]

theorem walk_of_toOld? {m : EditMap} {pos : Nat} {origin : Option Nat}
    (found : m.toOld? pos = .ok origin) : walk pos 0 0 m.segments = origin := by
  rw [walk_eq]
  unfold toOld? at found
  dsimp only at found
  split at found
  · rename_i changed
    rw [if_pos changed]
    exact Except.ok.inj found
  · rename_i kept
    rw [if_neg kept]
    obtain ⟨o, sum, is⟩ := bind_eq_ok.1 found
    obtain rfl := (unchangedToOld_eq_ok.1 sum).1
    exact Except.ok.inj is

theorem Aligned.walk_le {n o pos i : Nat} {ss : List Segment} {new old : List Char}
    (h : Aligned n o ss new old) (behind : n ≤ pos) (inside : pos ≤ n + size new)
    (found : walk pos n o ss = some i) : i ≤ o + size old := by
  induction h with
  | same =>
    obtain rfl := Option.some.inj found
    omega
  | change common added removed newStart newEnd oldStart oldEnd rest ih =>
    simp only [size_append] at inside ⊢
    rw [walk] at found
    split at found
    · rename_i passed
      have := ih passed (by omega) found
      omega
    · split at found
      · cases found
      · obtain rfl := Option.some.inj found
        omega

/-- The map describes how the new text came from the old one. -/
structure Describes (m : EditMap) (new old : List Char) : Prop where
  aligned : Aligned 0 0 m.segments new old
  separate : Separate m.segments
  /-- Where something has changed the texts fit in words. -/
  words : m.segments = [] ∨ size new < 2 ^ 64 ∧ size old < 2 ^ 64

theorem describes_empty (cs : List Char) : Describes ⟨[]⟩ cs cs := ⟨.same 0 0 cs, .nil, .inl rfl⟩

namespace Describes

variable {m : EditMap} {new old : List Char}

theorem size_old_lt (h : m.Describes new old) (short : size new < 2 ^ 64) : size old < 2 ^ 64 := by
  rcases h.words with none | ⟨_, word⟩
  · have aligned := h.aligned
    rw [none] at aligned
    cases aligned
    exact short
  · exact word

/-- Every offset of the new text has an answer. -/
theorem toOld?_eq {pos : Nat} (h : m.Describes new old) (inside : pos ≤ size new) :
    m.toOld? pos = .ok (walk pos 0 0 m.segments) := by
  have bound := fun i => h.aligned.walk_le (i := i) (Nat.zero_le pos) (by rwa [Nat.zero_add])
  rw [walk_eq] at bound ⊢
  unfold toOld?
  dsimp only
  split
  · rfl
  · rename_i kept
    rw [if_neg kept, Nat.zero_add] at bound
    have sum : unchangedToOld (m.segments.takeWhile (·.newEnd ≤ pos)) pos = .ok _ :=
      unchangedToOld_eq_ok.2 ⟨rfl, fun s last => by
        have member := List.mem_of_getLast? last
        have some := List.ne_nil_of_mem ((List.takeWhile_prefix _).subset member)
        obtain ⟨new, old⟩ := h.words.resolve_left some
        have order : s.newEnd ≤ pos := by simpa using List.mem_takeWhile_imp member
        exact ⟨order, by omega, Nat.lt_of_le_of_lt (bound _ rfl) old⟩⟩
    rw [sum]
    rfl

/-- Offsets of the new text come from the old text. -/
theorem toOld?_le {pos i : Nat} (h : m.Describes new old) (inside : pos ≤ size new)
    (found : m.toOld? pos = .ok (some i)) : i ≤ size old := by
  have bound := h.aligned.walk_le (Nat.zero_le pos) (by rwa [Nat.zero_add]) (walk_of_toOld? found)
  rwa [Nat.zero_add] at bound

/-- In front of the first change the texts agree. -/
theorem before_firstChange {first : Nat} (h : m.Describes new old)
    (is : m.firstChange? = some first) :
    ∃ c new' old', size c = first ∧ new = c ++ new' ∧ old = c ++ old' := by
  obtain ⟨s, head, rfl⟩ := Option.map_eq_some_iff.1 is
  have aligned := h.aligned
  cases segments : m.segments with
  | nil => simp [segments] at head
  | cons t ts =>
    rw [segments] at head aligned
    obtain rfl := Option.some.inj head
    cases aligned with
    | change common added removed newStart => exact ⟨common, _, _, by omega, rfl, rfl⟩

/-- Behind the last change the texts agree, and offsets there are told apart by the lengths of the
texts alone. -/
theorem behind_lastChange {last : Nat} (h : m.Describes new old)
    (is : m.lastChange? = some last) :
    ∃ a a' tail, size a = last ∧ new = a ++ tail ∧ old = a' ++ tail ∧
      ∀ pos, last ≤ pos → walk pos 0 0 m.segments = some (pos - last + size a') := by
  obtain ⟨s, final, rfl⟩ := Option.map_eq_some_iff.1 is
  have aligned := h.aligned
  rw [← List.append_nil m.segments] at aligned
  obtain ⟨a, a', new', old', rfl, rfl, there, back, _⟩ := aligned.split
  cases back
  have ends := there
  rw [behind_eq_getLast?, final] at ends
  obtain ⟨atNew, atOld⟩ := Prod.mk.inj ends
  refine ⟨a, a', new', by omega, rfl, rfl, ?_⟩
  intro pos later
  have reach := h.aligned.newEnd_le.2
  rw [there] at reach
  have all : ∀ t ∈ m.segments, decide (t.newEnd ≤ pos) = true := by
    intro t member
    have := reach t member
    exact decide_eq_true (by dsimp only at this; omega)
  rw [walk_eq, List.takeWhile_eq_self_iff.2 all, List.dropWhile_eq_nil_iff.2 all, there]
  simp only [List.head?_nil, Option.any_none, Bool.false_eq_true, if_false, Option.some.injEq]
  omega

/-- One more edit of the new text. -/
theorem edit {p x y q : List Char} {e : Edit} (h : m.Describes (p ++ (x ++ q)) old)
    (start : e.start = size p) (stop : e.oldEnd = e.start + size x)
    (newEnd : e.newEnd = e.start + size y) (before : size (p ++ (x ++ q)) < 2 ^ 64)
    (after : size (p ++ (y ++ q)) < 2 ^ 64) :
    (if e.isVoid then m else Exact.add m e).Describes (p ++ (y ++ q)) old := by
  split
  · rename_i void
    simp only [Edit.isVoid, Bool.and_eq_true, beq_iff_eq] at void
    obtain rfl : x = [] := eq_nil_of_size (by omega)
    obtain rfl : y = [] := eq_nil_of_size (by omega)
    exact h
  · refine ⟨aligned_add h.aligned h.separate start stop newEnd,
      separate_add h.separate h.aligned.ordered ?_, .inr ⟨after, h.size_old_lt before⟩⟩
    simp only [Edit.isWellFormed, Bool.and_eq_true, decide_eq_true_eq]
    omega

/-- In texts with the lengths of texts the edit is added. -/
theorem exists_edit {p x y q : List Char} {e : Edit} (h : m.Describes (p ++ (x ++ q)) old)
    (start : e.start = size p) (stop : e.oldEnd = e.start + size x)
    (newEnd : e.newEnd = e.start + size y) (short : size (p ++ (x ++ q)) < 2 ^ 63)
    (short' : size (p ++ (y ++ q)) < 2 ^ 63) :
    ∃ m', (if e.isVoid then pure m else m.add e) = .ok m' ∧ m'.Describes (p ++ (y ++ q)) old := by
  refine ⟨_, ?_, h.edit start stop newEnd (by omega) (by omega)⟩
  split
  · rfl
  · exact add_eq h.aligned h.separate start stop newEnd short short' (h.size_old_lt (by omega))

end Describes

theorem addAll?_cons {m m' : EditMap} {length : Nat} {e : Edit} {es : List Edit}
    (wellFormed : e.isWellFormed = true) (inside : e.oldEnd ≤ length) (before : length < 2 ^ 64)
    (after : length + e.newEnd - e.oldEnd < 2 ^ 64)
    (added : (if e.isVoid then pure m else m.add e) = .ok m') :
    addAll? m length (e :: es) = addAll? m' (length + e.newEnd - e.oldEnd) es := by
  have bounds := wellFormed
  simp only [Edit.isWellFormed, Bool.and_eq_true, decide_eq_true_eq] at bounds
  have kept : Word.sub 64 length (e.oldEnd - e.start) = .ok (length - (e.oldEnd - e.start)) :=
    Word.sub_eq_ok.2 ⟨by omega, before, rfl⟩
  have sum : Word.add 64 (length - (e.oldEnd - e.start)) (e.newEnd - e.start) =
      .ok (length + e.newEnd - e.oldEnd) := Word.add_eq_ok.2 ⟨by omega, by omega⟩
  rw [addAll?, if_pos (by simp [wellFormed, inside]), kept]
  simp only [bind, Except.bind, sum, added]

/-- What accepts a sequence of edits accepts the first one, and the others after it. -/
theorem exists_of_addAll?_cons {m map : EditMap} {length : Nat} {e : Edit} {es : List Edit}
    (accepted : addAll? m length (e :: es) = .ok (some map)) :
    ∃ m', e.isWellFormed = true ∧ e.oldEnd ≤ length ∧ length < 2 ^ 64 ∧
      length + e.newEnd - e.oldEnd < 2 ^ 64 ∧ (if e.isVoid then pure m else m.add e) = .ok m' ∧
      addAll? m' (length + e.newEnd - e.oldEnd) es = .ok (some map) := by
  rw [addAll?] at accepted
  split at accepted
  · rename_i fits
    obtain ⟨wellFormed, inside⟩ : e.isWellFormed = true ∧ e.oldEnd ≤ length := by simpa using fits
    have bounds := wellFormed
    simp only [Edit.isWellFormed, Bool.and_eq_true, decide_eq_true_eq] at bounds
    simp only [bind_eq_ok] at accepted
    obtain ⟨_, kept, _, sum, m', added, others⟩ := accepted
    obtain ⟨_, word, rfl⟩ := Word.sub_eq_ok.1 kept
    obtain ⟨word', rfl⟩ := Word.add_eq_ok.1 sum
    have length' : length - (e.oldEnd - e.start) + (e.newEnd - e.start) =
        length + e.newEnd - e.oldEnd := by omega
    rw [length'] at word' others
    exact ⟨m', wellFormed, inside, word, word', added, others⟩
  · cases accepted

/-! The map of a sequence of changes -/

theorem edit_apply {text changed replacement : String} {start stop : Nat} {e : Edit}
    (applied : Edit.apply text start stop replacement = .ok (e, changed)) :
    (∃ p x q, text.toList = p ++ (x ++ q) ∧ changed.toList = p ++ (replacement.toList ++ q) ∧
      e.start = size p ∧ e.oldEnd = e.start + size x ∧
      e.newEnd = e.start + size replacement.toList) ∧
      text.utf8ByteSize < 2 ^ 63 ∧ changed.utf8ByteSize < 2 ^ 63 := by
  simp only [Edit.apply, Edit.replace, bind_eq_ok] at applied
  obtain ⟨e', ⟨stop', sum, is⟩, applied⟩ := applied
  obtain ⟨_, rfl⟩ := Word.add_eq_ok.1 sum
  obtain rfl := Except.ok.inj is
  split at applied
  · rename_i result spliced
    split at applied
    · rename_i short
      obtain ⟨rfl, rfl⟩ := Prod.mk.inj (Except.ok.inj applied)
      refine ⟨?_, short⟩
      simp only [splice?, Option.bind_eq_bind, Option.bind_eq_some_iff, Option.guard_eq_some',
        Option.pure_def, Option.some.injEq] at spliced
      obtain ⟨_, order, ⟨before, rest⟩, cutFront, ⟨removed, after⟩, cutBack, rfl⟩ := spliced
      obtain ⟨whole, front⟩ := append_of_cut? cutFront
      obtain ⟨rfl, length⟩ := append_of_cut? cutBack
      refine ⟨before, removed, after, whole.symm, by simp, front.symm, ?_, ?_⟩
      · dsimp only
        omega
      · simp
    · cases applied
  · cases applied

theorem isWellFormed_of_apply {text changed replacement : String} {start stop : Nat} {e : Edit}
    (applied : Edit.apply text start stop replacement = .ok (e, changed)) :
    e.isWellFormed = true ∧ e.oldEnd ≤ text.utf8ByteSize ∧
      text.utf8ByteSize + e.newEnd - e.oldEnd = changed.utf8ByteSize := by
  obtain ⟨⟨p, x, q, before, after, start, stop, newEnd⟩, _⟩ := edit_apply applied
  have sizeBefore := congrArg size before
  have sizeAfter := congrArg size after
  simp only [size_append, size_toList] at sizeBefore sizeAfter newEnd
  simp only [Edit.isWellFormed, Bool.and_eq_true, decide_eq_true_eq]
  omega

/-- A change of the text that the map describes. -/
theorem Describes.change {m : EditMap} {text changed replacement : String} {old : List Char}
    {start stop : Nat} {e : Edit} (h : m.Describes text.toList old)
    (applied : Edit.apply text start stop replacement = .ok (e, changed)) :
    ∃ m', (if e.isVoid then pure m else m.add e) = .ok m' ∧ m'.Describes changed.toList old := by
  obtain ⟨⟨p, x, q, before, after, start, stop, newEnd⟩, short, short'⟩ := edit_apply applied
  rw [← size_toList] at short short'
  rw [before] at h short
  rw [after] at short' ⊢
  exact h.exists_edit start stop newEnd short short'

end EditMap

/-- Changes of a text are a first one and the others. -/
theorem Change.exists_of_applyAll_cons {text final : String} {c : Change} {cs : List Change}
    {edits : List Edit} (applied : applyAll text (c :: cs) = .ok (edits, final)) :
    ∃ e next es, Edit.apply text c.start c.stop c.replacement = .ok (e, next) ∧
      applyAll next cs = .ok (es, final) ∧ edits = e :: es := by
  simp only [applyAll, bind_eq_ok] at applied
  obtain ⟨⟨e, next⟩, first, ⟨es, final'⟩, others, is⟩ := applied
  obtain ⟨rfl, rfl⟩ := Prod.mk.inj (Except.ok.inj is)
  exact ⟨e, next, es, first, others, rfl⟩

namespace EditMap

theorem addAll?_changes {m : EditMap} {text new : String} {old : List Char}
    {changes : List Change} {edits : List Edit} (h : m.Describes text.toList old)
    (applied : Change.applyAll text changes = .ok (edits, new)) :
    ∃ map, addAll? m text.utf8ByteSize edits = .ok (some map) ∧ map.Describes new.toList old := by
  induction changes generalizing m text edits with
  | nil =>
    obtain ⟨rfl, rfl⟩ := Prod.mk.inj (Except.ok.inj applied)
    exact ⟨m, rfl, h⟩
  | cons c cs ih =>
    obtain ⟨e, changed, es, first, others, rfl⟩ := Change.exists_of_applyAll_cons applied
    obtain ⟨m', added, describes⟩ := h.change first
    obtain ⟨map, found, describes'⟩ := ih describes others
    obtain ⟨_, short, short'⟩ := edit_apply first
    obtain ⟨wellFormed, inside, length⟩ := isWellFormed_of_apply first
    refine ⟨map, ?_, describes'⟩
    rw [addAll?_cons wellFormed inside (by omega) (by omega) added, length]
    exact found

theorem ofEdits?_changes {old new : String} {changes : List Change} {edits : List Edit}
    (applied : Change.applyAll old changes = .ok (edits, new)) :
    ∃ map, ofEdits? edits old.utf8ByteSize = .ok (some map) ∧ map.Describes new.toList old.toList :=
  addAll?_changes (describes_empty old.toList) applied

end EditMap

/-- The lengths that edits of changes give add up. -/
theorem Parser.lengthAfter_changes {text new : String} {changes : List Change} {edits : List Edit}
    (applied : Change.applyAll text changes = .ok (edits, new)) :
    lengthAfter text.utf8ByteSize edits = .ok (new.utf8ByteSize : Int) := by
  induction changes generalizing text edits with
  | nil =>
    obtain ⟨rfl, rfl⟩ := Prod.mk.inj (Except.ok.inj applied)
    rfl
  | cons c cs ih =>
    obtain ⟨e, changed, es, first, others, rfl⟩ := Change.exists_of_applyAll_cons applied
    obtain ⟨⟨p, x, q, before, after, start, stop, newEnd⟩, short, short'⟩ := EditMap.edit_apply first
    obtain ⟨wellFormed, inside, length⟩ := EditMap.isWellFormed_of_apply first
    have newSize := congrArg size after
    simp only [size_append, size_toList] at newSize newEnd
    have delta := Edit.delta_eq (e := e) (by omega) (by omega)
    have sum : Word.checkSigned (text.utf8ByteSize + ((e.newEnd : Int) - e.oldEnd)) =
        .ok (changed.utf8ByteSize : Int) := Word.checkSigned_eq_ok.2 (by omega)
    rw [lengthAfter, List.foldlM_cons]
    simp only [bind_eq_ok]
    exact ⟨_, ⟨_, delta, sum⟩, ih others⟩

end ShaderTree
