import Mathlib.Data.List.Chain
import Mathlib.Data.List.TakeWhile
import Mathlib.Data.Option.Basic
import ShaderTree.Proofs.Text.Cut
import ShaderTree.Session
import ShaderTree.Text.EditMap

/-! What the segments of a map say about its two texts: outside of them the texts agree. Adding an
edit keeps this, so it holds of the map of any sequence of edits that leads from one text to the
other. -/
namespace ShaderTree.EditMap

open Text

/-- Behind the new offset `n` and the old offset `o` the texts agree outside of the segments. -/
inductive Aligned : Nat → Nat → List Segment → List Char → List Char → Prop
  | same (n o : Nat) (cs : List Char) : Aligned n o [] cs cs
  | change {n o : Nat} {s : Segment} {ss : List Segment} {new old : List Char}
      (common added removed : List Char)
      (newStart : s.newStart = n + size common) (newEnd : s.newEnd = s.newStart + size added)
      (oldStart : s.oldStart = o + size common) (oldEnd : s.oldEnd = s.oldStart + size removed)
      (rest : Aligned s.newEnd s.oldEnd ss new old) :
      Aligned n o (s :: ss) (common ++ (added ++ new)) (common ++ (removed ++ old))

/-- No two segments touch. -/
def Separate (ss : List Segment) : Prop := ss.IsChain fun s t => s.newEnd < t.newStart

/-- New and old offset behind segments that start behind `n` and `o`. -/
def behind (n o : Nat) : List Segment → Nat × Nat
  | [] => (n, o)
  | s :: ss => behind s.newEnd s.oldEnd ss

theorem behind_eq_getLast? (n o : Nat) (ss : List Segment) :
    behind n o ss = match ss.getLast? with
      | some s => (s.newEnd, s.oldEnd)
      | none => (n, o) := by
  induction ss generalizing n o with
  | nil => rfl
  | cons s ss ih =>
    rw [behind, ih]
    cases ss with
    | nil => rfl
    | cons t ts => rw [List.getLast?_cons_cons]; cases h : (t :: ts).getLast? <;> simp_all

theorem behind_le {before : List Segment} {bound : Nat} (inFront : ∀ s ∈ before, s.newEnd ≤ bound) :
    (behind 0 0 before).1 ≤ bound := by
  rw [behind_eq_getLast?]
  cases last : before.getLast? with
  | none => exact Nat.zero_le _
  | some s => exact inFront s (List.mem_of_getLast? last)

/-! Sums and differences as numbers, of any size -/

/-- Old offset of a new one that lies behind the segments `before`. -/
def Exact.unchangedToOld (before : List Segment) (offset : Nat) : Nat :=
  offset - (behind 0 0 before).1 + (behind 0 0 before).2

def Exact.join (before touched : List Segment) (e : Edit) : Segment :=
  match touched.head?, touched.getLast? with
  | some a, some b =>
    { newStart := min e.start a.newStart
      newEnd := max e.oldEnd b.newEnd
      oldStart := a.oldStart - (a.newStart - e.start)
      oldEnd := b.oldEnd + (e.oldEnd - b.newEnd) }
  | _, _ =>
    ⟨e.start, e.oldEnd, Exact.unchangedToOld before e.start, Exact.unchangedToOld before e.oldEnd⟩

def Exact.movedAll (e : Edit) (ss : List Segment) : List Segment :=
  ss.map fun s => { s with
    newStart := s.newStart + e.newEnd - e.oldEnd
    newEnd := s.newEnd + e.newEnd - e.oldEnd }

def Exact.add (m : EditMap) (e : Edit) : EditMap :=
  let before := m.segments.takeWhile (·.newEnd < e.start)
  let rest := m.segments.dropWhile (·.newEnd < e.start)
  let joined := Exact.join before (rest.takeWhile (·.newStart ≤ e.oldEnd)) e
  ⟨before ++ { joined with newEnd := joined.newEnd + e.newEnd - e.oldEnd }
    :: Exact.movedAll e (rest.dropWhile (·.newStart ≤ e.oldEnd))⟩

/-- Old offset of `pos`, where `n` and `o` stand behind the segments passed before. -/
def walk (pos n o : Nat) : List Segment → Option Nat
  | [] => some (pos - n + o)
  | s :: ss =>
    if s.newEnd ≤ pos then walk pos s.newEnd s.oldEnd ss
    else if s.newStart ≤ pos then none
    else some (pos - n + o)

namespace Aligned

variable {n o : Nat} {ss : List Segment} {new old : List Char}

/-- The texts can be cut behind some of the segments, and changed behind the cut. -/
theorem split {as bs : List Segment} (h : Aligned n o (as ++ bs) new old) :
    ∃ a a' new' old', new = a ++ new' ∧ old = a' ++ old' ∧
      behind n o as = (n + size a, o + size a') ∧
      Aligned (n + size a) (o + size a') bs new' old' ∧
      ∀ {cs : List Segment} {new2 old2 : List Char},
        Aligned (n + size a) (o + size a') cs new2 old2 →
          Aligned n o (as ++ cs) (a ++ new2) (a' ++ old2) := by
  induction as generalizing n o new old with
  | nil => exact ⟨[], [], new, old, rfl, rfl, rfl, h, fun rest => rest⟩
  | cons s as ih =>
    rw [List.cons_append] at h
    cases h with
    | change common added removed newStart newEnd oldStart oldEnd rest =>
      obtain ⟨a, a', new', old', rfl, rfl, there, back, again⟩ := ih rest
      have atNew : n + size (common ++ (added ++ a)) = s.newEnd + size a := by
        simp only [size_append]; omega
      have atOld : o + size (common ++ (removed ++ a')) = s.oldEnd + size a' := by
        simp only [size_append]; omega
      refine ⟨common ++ (added ++ a), common ++ (removed ++ a'), new', old', by simp, by simp,
        by rw [behind, there, atNew, atOld], by rwa [atNew, atOld], ?_⟩
      intro cs new2 old2 changed
      rw [atNew, atOld] at changed
      simpa using Aligned.change common added removed newStart newEnd oldStart oldEnd (again changed)

/-- In front of the first segment the texts agree. -/
theorem advance {d : List Char} (h : Aligned n o ss (d ++ new) old)
    (clear : ∀ s ∈ ss.head?, n + size d ≤ s.newStart) :
    ∃ old', old = d ++ old' ∧ Aligned (n + size d) (o + size d) ss new old' := by
  generalize whole : d ++ new = text at h
  cases h with
  | same => exact ⟨new, whole.symm, .same _ _ _⟩
  | @change _ _ s ss new' old' common added removed newStart newEnd oldStart oldEnd rest =>
    have inside := clear s (by simp)
    obtain ⟨m, rfl, rfl⟩ := exists_of_append_eq whole (by omega)
    rw [size_append] at newStart oldStart
    refine ⟨m ++ (removed ++ old'), by simp, ?_⟩
    exact .change m added removed (by omega) newEnd (by omega) oldEnd rest

/-- Segments move along with the text in front of them. -/
theorem shift {e : Edit} (h : Aligned n o ss new old) (later : e.oldEnd ≤ n) :
    Aligned (n + e.newEnd - e.oldEnd) o (Exact.movedAll e ss) new old := by
  induction h with
  | same => exact .same _ _ _
  | change common added removed newStart newEnd oldStart oldEnd rest ih =>
    refine .change common added removed ?_ ?_ oldStart oldEnd (ih (by omega))
    · dsimp only; omega
    · dsimp only; omega

/-- The segments do not reach past the offset behind them. -/
theorem newEnd_le (h : Aligned n o ss new old) :
    n ≤ (behind n o ss).1 ∧ ∀ s ∈ ss, s.newEnd ≤ (behind n o ss).1 := by
  induction h with
  | same => exact ⟨Nat.le_refl _, by simp⟩
  | change common added removed newStart newEnd oldStart oldEnd rest ih =>
    obtain ⟨first, others⟩ := ih
    refine ⟨by rw [behind]; omega, ?_⟩
    intro s member
    rcases List.mem_cons.mp member with rfl | member
    · exact first
    · exact others s member

theorem ordered (h : Aligned n o ss new old) : ∀ s ∈ ss, s.newStart ≤ s.newEnd := by
  induction h with
  | same => simp
  | change common added removed newStart newEnd oldStart oldEnd rest ih =>
    intro s member
    rcases List.mem_cons.mp member with rfl | member
    · omega
    · exact ih s member

/-- Segments lie inside of both texts. -/
theorem inside (h : Aligned n o ss new old) :
    ∀ s ∈ ss, s.newEnd ≤ n + size new ∧ s.oldStart ≤ s.oldEnd ∧ s.oldEnd ≤ o + size old := by
  induction h with
  | same => simp
  | change common added removed newStart newEnd oldStart oldEnd rest ih =>
    intro s member
    simp only [size_append]
    rcases List.mem_cons.mp member with rfl | member
    · omega
    · have := ih s member
      omega

/-- The first segment starts as far behind one offset as behind the other. -/
theorem first (h : Aligned n o ss new old) :
    ∀ s ∈ ss.head?, n ≤ s.newStart ∧ s.oldStart = o + (s.newStart - n) := by
  intro s member
  cases h with
  | same => cases member
  | change common added removed newStart newEnd oldStart oldEnd rest =>
    obtain rfl := Option.some.inj member
    omega

end Aligned

/-! One more edit: the text `p ++ x ++ q` becomes `p ++ y ++ q`. -/

section Add

variable {m : EditMap} {e : Edit} {p x y q old : List Char}

/-- An edit that touches no segment becomes a segment. -/
theorem Aligned.untouched {n o : Nat} {after : List Segment} {s : Segment}
    (h : Aligned n o after (p ++ (x ++ q)) old) (start : e.start = n + size p)
    (stop : e.oldEnd = e.start + size x) (newEnd : e.newEnd = e.start + size y)
    (clear : ∀ t ∈ after.head?, e.oldEnd < t.newStart)
    (is : s = ⟨e.start, e.newEnd, e.start - n + o, e.oldEnd - n + o⟩) :
    Aligned n o (s :: Exact.movedAll e after) (p ++ (y ++ q)) old := by
  have far : ∀ t ∈ after.head?, n + size (p ++ x) ≤ t.newStart := by
    intro t first
    have later := clear t first
    rw [size_append]
    omega
  rw [← List.append_assoc] at h
  obtain ⟨old', rfl, rest⟩ := h.advance far
  have moved := rest.shift (e := e) (by rw [size_append]; omega)
  rw [List.append_assoc]
  subst is
  refine .change p y x start newEnd (by dsimp only; omega) (by dsimp only; omega) ?_
  have atNew : n + size (p ++ x) + e.newEnd - e.oldEnd = e.newEnd := by rw [size_append]; omega
  have atOld : o + size (p ++ x) = e.oldEnd - n + o := by rw [size_append]; omega
  rwa [atNew, atOld] at moved

/-- Two ways to start a text agree up to the end of the shorter one. -/
theorem exists_common {p q p' q' : List Char} (same : p ++ q = p' ++ q') :
    ∃ c d d', p = c ++ d ∧ p' = c ++ d' ∧ (size d = 0 ∨ size d' = 0) := by
  rcases List.append_eq_append_iff.1 same with ⟨d', longer, _⟩ | ⟨d, longer, _⟩
  · exact ⟨p, [], d', by simp, longer, .inl rfl⟩
  · exact ⟨p', d, [], longer, by simp, .inr rfl⟩

/-- Two ways to end a text agree from the start of the shorter one on. -/
theorem exists_rest {p q p' q' : List Char} (same : p ++ q = p' ++ q') :
    ∃ d d' c, q = d ++ c ∧ q' = d' ++ c ∧ size p + size d = size p' + size d' ∧ (size d = 0 ∨ size d' = 0) := by
  rcases List.append_eq_append_iff.1 same with ⟨d, rfl, rest⟩ | ⟨d', rfl, rest⟩
  · exact ⟨d, [], q', rest, rfl, by simp, .inr rfl⟩
  · exact ⟨[], d', q, rfl, rest, by simp, .inl rfl⟩

/-- An edit and the segments that it touches become one segment. -/
theorem Aligned.touched {n o : Nat} {a b : Segment} {as after : List Segment} {s : Segment}
    (h : Aligned n o (a :: as ++ after) (p ++ (x ++ q)) old) (start : e.start = n + size p)
    (stop : e.oldEnd = e.start + size x) (newEnd : e.newEnd = e.start + size y)
    (last : (a :: as).getLast? = some b)
    (clear : ∀ t ∈ after.head?, e.oldEnd < t.newStart) (apart : ∀ t ∈ after.head?, b.newEnd < t.newStart)
    (is : s = ⟨min e.start a.newStart, max e.oldEnd b.newEnd + e.newEnd - e.oldEnd,
      a.oldStart - (a.newStart - e.start), b.oldEnd + (e.oldEnd - b.newEnd)⟩) :
    Aligned n o (s :: Exact.movedAll e after) (p ++ (y ++ q)) old := by
  have there := behind_eq_getLast? n o (a :: as)
  rw [last, behind] at there
  generalize whole : p ++ (x ++ q) = text at h
  rw [List.cons_append] at h
  cases h with
  | @change _ _ _ _ new' old' common added removed newStart newEndA oldStart oldEndA rest =>
  obtain ⟨u, u', new2, old2, rfl, rfl, ends, back, _⟩ := rest.split
  obtain ⟨endNew, endOld⟩ := Prod.mk.inj (there.symm.trans ends)
  obtain ⟨c, p2, c2, rfl, rfl, front⟩ := exists_common whole
  have ending : (c ++ p2 ++ x) ++ q = (c ++ c2 ++ (added ++ u)) ++ new2 := by simpa using whole
  obtain ⟨q2, d, q', rfl, rfl, reach, short⟩ := exists_rest ending
  simp only [size_append] at start newStart oldStart reach
  have far : ∀ t ∈ after.head?, a.newEnd + size u + size d ≤ t.newStart := by
    intro t first
    have later := clear t first
    have behindLast := apart t first
    omega
  obtain ⟨old3, rfl, rest'⟩ := back.advance far
  have moved := rest'.shift (e := e) (by omega)
  have shape : c ++ p2 ++ (y ++ (q2 ++ q')) = c ++ ((p2 ++ (y ++ q2)) ++ q') := by simp
  have shapeOld : c ++ c2 ++ (removed ++ (u' ++ (d ++ old3))) =
      c ++ ((c2 ++ (removed ++ (u' ++ d))) ++ old3) := by simp
  rw [shape, shapeOld]
  subst is
  refine .change c (p2 ++ (y ++ q2)) (c2 ++ (removed ++ (u' ++ d))) ?_ ?_ ?_ ?_ ?_
  · dsimp only; omega
  · simp only [size_append]; omega
  · dsimp only; omega
  · simp only [size_append]; omega
  · have atNew : a.newEnd + size u + size d + e.newEnd - e.oldEnd =
        max e.oldEnd b.newEnd + e.newEnd - e.oldEnd := by omega
    have atOld : a.oldEnd + size u' + size d = b.oldEnd + (e.oldEnd - b.newEnd) := by omega
    rwa [atNew, atOld] at moved

/-- What adding an edit does to the segments in front of it, those it may touch, and the others. -/
theorem segments_add (m : EditMap) (e : Edit) :
    ∃ before touched after, m.segments = before ++ (touched ++ after) ∧
      (∀ s ∈ before, s.newEnd < e.start) ∧ (∀ t ∈ after.head?, e.oldEnd < t.newStart) ∧
      (Exact.add m e).segments = before ++ { Exact.join before touched e with
          newEnd := (Exact.join before touched e).newEnd + e.newEnd - e.oldEnd } ::
        Exact.movedAll e after := by
  refine ⟨_, _, _, ?_, ?_, ?_, rfl⟩
  · rw [List.takeWhile_append_dropWhile, List.takeWhile_append_dropWhile]
  · intro s member
    simpa using List.mem_takeWhile_imp member
  · intro t first
    have refused := List.head?_dropWhile_not (fun s : Segment => decide (s.newStart ≤ e.oldEnd))
      (m.segments.dropWhile (·.newEnd < e.start))
    rw [Option.mem_def.1 first] at refused
    simpa using refused

/-- The new bytes of an edit take the place of the old ones in an aligned text. -/
theorem aligned_add (h : Aligned 0 0 m.segments (p ++ (x ++ q)) old)
    (separate : Separate m.segments) (start : e.start = size p)
    (stop : e.oldEnd = e.start + size x) (newEnd : e.newEnd = e.start + size y) :
    Aligned 0 0 (Exact.add m e).segments (p ++ (y ++ q)) old := by
  obtain ⟨before, touched, after, segments, inFront, clear, added⟩ := segments_add m e
  rw [added]
  rw [segments] at h separate
  obtain ⟨a, a', new', old', whole, rfl, ends, back, again⟩ := h.split
  have front : size a ≤ e.start := by
    have reach := behind_le fun s member => Nat.le_of_lt (inFront s member)
    rwa [ends, Nat.zero_add] at reach
  obtain ⟨p', rfl, rfl⟩ := exists_of_append_eq whole.symm (by omega)
  rw [size_append] at start
  rw [List.append_assoc]
  apply again
  cases touched with
  | nil =>
    refine Aligned.untouched back (by omega) stop newEnd clear ?_
    simp only [Exact.join, List.head?_nil, Exact.unchangedToOld, ends, Segment.mk.injEq, true_and,
      and_true]
    omega
  | cons t ts =>
    obtain ⟨b, last⟩ : ∃ b, (t :: ts).getLast? = some b :=
      ⟨_, List.getLast?_eq_some_getLast (by simp)⟩
    have apart := (List.isChain_append.1 (List.isChain_append.1 separate).2.1).2.2 b last
    refine Aligned.touched back (by omega) stop newEnd last clear apart ?_
    simp only [Exact.join, List.head?_cons, last]

theorem separate_shift {ss : List Segment} (separate : Separate ss)
    (ordered : ∀ s ∈ ss, s.newStart ≤ s.newEnd) (clear : ∀ s ∈ ss.head?, e.oldEnd < s.newStart) :
    Separate (Exact.movedAll e ss) := by
  induction ss with
  | nil => exact .nil
  | cons s ss ih =>
    obtain ⟨border, rest⟩ := List.isChain_cons.1 separate
    have own := ordered s (by simp)
    have far := clear s (by simp)
    have next : ∀ t ∈ ss.head?, e.oldEnd < t.newStart := by
      intro t first
      have apart := border t first
      omega
    refine List.isChain_cons.2 ⟨?_, ih rest (fun t member => ordered t (by simp [member])) next⟩
    intro u first
    cases ss with
    | nil => simp at first
    | cons t ts =>
      obtain rfl := Option.some.inj first
      have apart := border t (by simp)
      dsimp only
      omega

theorem separate_add (separate : Separate m.segments)
    (ordered : ∀ s ∈ m.segments, s.newStart ≤ s.newEnd) (wellFormed : e.isWellFormed) :
    Separate (Exact.add m e).segments := by
  obtain ⟨starts, ends⟩ : e.start ≤ e.oldEnd ∧ e.start ≤ e.newEnd := by
    simpa [Edit.isWellFormed] using wellFormed
  obtain ⟨before, touched, after, segments, inFront, clear, added⟩ := segments_add m e
  rw [added]
  rw [segments] at separate ordered
  obtain ⟨left, right, border⟩ := List.isChain_append.1 separate
  obtain ⟨_, afterApart, borderAfter⟩ := List.isChain_append.1 right
  have moved := separate_shift afterApart
    (fun s member => ordered s (by simp [member])) clear
  refine List.isChain_append.2 ⟨left, List.isChain_cons.2 ⟨?_, moved⟩, ?_⟩
  · intro u first
    cases after with
    | nil => cases first
    | cons t ts =>
      obtain rfl := Option.some.inj first
      have far := clear t (by simp)
      cases touched with
      | nil => simp only [Exact.join, List.head?_nil]; omega
      | cons a as =>
        obtain ⟨b, last⟩ : ∃ b, (a :: as).getLast? = some b :=
          ⟨_, List.getLast?_eq_some_getLast (by simp)⟩
        have apart := borderAfter b last t (by simp)
        simp only [Exact.join, List.head?_cons, last]
        omega
  · intro s last u first
    obtain rfl := Option.some.inj first
    have near := inFront s (List.mem_of_getLast? last)
    cases touched with
    | nil => simpa only [Exact.join, List.head?_nil] using near
    | cons a as =>
      obtain ⟨b, lastTouched⟩ : ∃ b, (a :: as).getLast? = some b :=
        ⟨_, List.getLast?_eq_some_getLast (by simp)⟩
      have apart := border s last a (by simp)
      simp only [Exact.join, List.head?_cons, lastTouched]
      omega

end Add

end ShaderTree.EditMap
