import ShaderTree.Proofs.Text.Cut
import ShaderTree.Proofs.Text.LineColumns
import ShaderTree.Proofs.Token.Layout
import ShaderTree.Token.Reader

/-! Tokens tile the text, whatever the rules are that find lexemes. The reader and its one kept lexeme
give each lexeme once, with failures in a row put together, and the tokens lie side by side on character
borders from the next border behind the offset to the end of the text. -/
namespace ShaderTree

open Text (size cutFrom cut? slice?)
open Lexeme (texts)

/-- What is relied on. In front of the end of its text a matcher finds a lexeme of some bytes, right where
it was asked; one that matched ends at the border of a character. -/
structure Matcher.Lawful (m : Matcher) : Prop where
  ends : ∀ source, m source (size source) = none
  goesOn : ∀ front c cs, ∃ f, m (front ++ c :: cs) (size front) = some f
  adjacent : ∀ {front c cs f}, m (front ++ c :: cs) (size front) = some f → f.start = size front
  nonempty : ∀ {front c cs f}, m (front ++ c :: cs) (size front) = some f → f.start < f.stop
  inside : ∀ {front c cs f}, m (front ++ c :: cs) (size front) = some f →
    f.stop ≤ size (front ++ c :: cs)
  whole : ∀ {front c cs f}, m (front ++ c :: cs) (size front) = some f → f.kind?.isSome →
    (cut? f.stop (front ++ c :: cs)).isSome

/-- The lexemes that a matcher finds behind `front`, one after the other. Failures take whole
characters. -/
inductive Matcher.Splits (m : Matcher) : List Char → List Lexeme → Prop
  | nil {front : List Char} (ends : m front (size front) = none) : Splits m front []
  | cons {front : List Char} {l : Lexeme} {ls : List Lexeme} {f : Found}
      (finds : m (front ++ texts (l :: ls)) (size front) = some f) (kind : f.kind? = l.kind?)
      (start : f.start = size front)
      (stop : f.wholeStop (front ++ texts (l :: ls)) = size (front ++ l.text))
      (rest : Splits m (front ++ l.text) ls) : Splits m front (l :: ls)

namespace Matcher.Lawful

variable {m : Matcher}

/-- A lexeme is one or more characters. -/
theorem exists_lexeme (lawful : m.Lawful) (front : List Char) (c : Char) (cs : List Char) :
    ∃ (l : Lexeme) (rest : List Char) (f : Found), c :: cs = l.text ++ rest ∧ l.text ≠ [] ∧
      m (front ++ c :: cs) (size front) = some f ∧ f.kind? = l.kind? ∧ f.start = size front ∧
      f.wholeStop (front ++ c :: cs) = size (front ++ l.text) := by
  obtain ⟨f, finds⟩ := lawful.goesOn front c cs
  have start := lawful.adjacent finds
  have nonempty := lawful.nonempty finds
  have inside := lawful.inside finds
  obtain ⟨p, q, whole, stop, further⟩ : ∃ p q, p ++ q = front ++ c :: cs ∧
      f.wholeStop (front ++ c :: cs) = size p ∧ f.stop ≤ size p := by
    cases kind : f.kind? with
    | some k =>
      obtain ⟨⟨p, q⟩, cut⟩ := Option.isSome_iff_exists.1 (lawful.whole finds (by simp [kind]))
      obtain ⟨whole, length⟩ := Text.append_of_cut? cut
      exact ⟨p, q, whole, by simp [Found.wholeStop, kind, length], Nat.le_of_eq length.symm⟩
    | none =>
      have further := Text.le_size_cutFrom f.stop (front ++ c :: cs)
      rw [Nat.min_eq_left inside] at further
      exact ⟨_, _, Text.append_cutFrom f.stop _, by simp [Found.wholeStop, kind], further⟩
  obtain ⟨own, rfl, rest⟩ := Text.exists_of_append_eq whole.symm (by omega)
  refine ⟨⟨f.kind?, own⟩, q, f, rest, ?_, finds, rfl, start, stop⟩
  rintro rfl
  rw [List.append_nil] at further
  omega

theorem exists_splits (lawful : m.Lawful) (front cs : List Char) :
    ∃ ls, texts ls = cs ∧ m.Splits front ls ∧ ∀ l ∈ ls, l.text ≠ [] := by
  induction length : cs.length using Nat.strong_induction_on generalizing front cs with
  | _ n ih =>
    subst length
    cases cs with
    | nil => exact ⟨[], rfl, .nil (lawful.ends front), by simp⟩
    | cons c cs =>
      obtain ⟨l, rest, f, split, some, finds, kind, start, stop⟩ := lawful.exists_lexeme front c cs
      have shorter : rest.length < (c :: cs).length := by
        have lengths := congrArg List.length split
        have positive := List.length_pos_of_ne_nil some
        rw [List.length_append] at lengths
        omega
      obtain ⟨ls, rfl, splits, others⟩ := ih _ shorter (front ++ l.text) rest rfl
      rw [split, ← Lexeme.texts_cons] at finds stop
      exact ⟨l :: ls, split.symm, .cons finds kind start stop splits,
        List.forall_mem_cons.2 ⟨some, others⟩⟩

end Matcher.Lawful

namespace Lexeme

/-! Failures put together -/

theorem text_ne_nil_of_mem_joinFailures {ls : List Lexeme} (some : ∀ l ∈ ls, l.text ≠ []) :
    ∀ l ∈ joinFailures ls, l.text ≠ [] := by
  induction ls with
  | nil => simp [joinFailures]
  | cons l ls ih =>
    obtain ⟨own, others⟩ := List.forall_mem_cons.1 some
    rcases joinFailures_cons l ls with ⟨x, rest, joined, _, _, is⟩ | ⟨_, is⟩
    · rw [is]
      have rest' := ih others
      rw [joined] at rest'
      exact List.forall_mem_cons.2 ⟨by simp [own], fun y member => rest' y (.tail _ member)⟩
    · rw [is]
      exact List.forall_mem_cons.2 ⟨own, ih others⟩

/-- The character behind a token is the first one of the next token. -/
theorem head?_texts {ls : List Lexeme} (some : ∀ l ∈ ls, l.text ≠ []) :
    ls.head?.bind (·.text.head?) = (texts ls).head? := by
  cases ls with
  | nil => rfl
  | cons l ls =>
    obtain ⟨c, cs, is⟩ := List.exists_cons_of_ne_nil (some l (.head _))
    simp [is]

/-- A failure is put together with all those right behind it. -/
theorem joinFailures_failed {l : Lexeme} (failed : l.kind? = none) (ls : List Lexeme) :
    joinFailures (l :: ls) = ⟨none, l.text ++ texts (ls.takeWhile (·.kind?.isNone))⟩ ::
      joinFailures (ls.dropWhile (·.kind?.isNone)) := by
  induction ls generalizing l with
  | nil => simp [joinFailures, ← failed]
  | cons x ls ih =>
    cases more : x.kind? with
    | none =>
      rw [List.takeWhile_cons_of_pos (by simp [more]), List.dropWhile_cons_of_pos (by simp [more]),
        joinFailures_merge (ih more) failed rfl, texts_cons]
    | some k =>
      rw [List.takeWhile_cons_of_neg (by simp [more]), List.dropWhile_cons_of_neg (by simp [more]),
        texts_nil, List.append_nil]
      have apart : Apart [l] (x :: ls) := by simp [Apart, more]
      rw [joinFailures_keep (apart_joinFailures.2 apart), ← failed]

theorem joinFailures_matched {l : Lexeme} (matched : l.kind? ≠ none) (ls : List Lexeme) :
    joinFailures (l :: ls) = l :: joinFailures ls :=
  joinFailures_keep (by simp [Apart, matched])

def AllFailed (run : List Lexeme) : Prop := ∀ l ∈ run, l.kind? = none

/-- What a run of lexemes makes. -/
def merge (run : List Lexeme) : Lexeme := ⟨run.head?.bind (·.kind?), texts run⟩

/-- Lexemes cut into runs: a match by itself, and failures side by side together, as many as there
are. -/
structure Runs (ls : List Lexeme) (runs : List (List Lexeme)) : Prop where
  whole : runs.flatten = ls
  uniform : ∀ run ∈ runs, (∃ l, run = [l]) ∨ run ≠ [] ∧ AllFailed run
  longest : runs.IsChain fun a b => ¬ (AllFailed a ∧ AllFailed b)

theorem Runs.texts_ne_nil {ls : List Lexeme} {runs : List (List Lexeme)} (cut : Runs ls runs)
    (some : ∀ l ∈ ls, l.text ≠ []) : ∀ run ∈ runs, texts run ≠ [] := by
  intro run member
  have inhabited : run ≠ [] := by
    rcases cut.uniform run member with ⟨l, rfl⟩ | ⟨inhabited, _⟩
    · exact List.cons_ne_nil l []
    · exact inhabited
  obtain ⟨l, rest, rfl⟩ := List.exists_cons_of_ne_nil inhabited
  have inside : l ∈ ls := cut.whole ▸ List.mem_flatten.2 ⟨_, member, .head _⟩
  simp [some l inside]

/-- Joined lexemes are those of the longest runs. -/
theorem exists_runs (ls : List Lexeme) :
    ∃ runs, Runs ls runs ∧ joinFailures ls = runs.map merge := by
  induction ls with
  | nil => exact ⟨[], ⟨rfl, by simp, .nil⟩, rfl⟩
  | cons l ls ih =>
    obtain ⟨runs, ⟨rfl, uniform, longest⟩, joined⟩ := ih
    have first : ∀ run ∈ runs, (merge run).kind? = none → AllFailed run := by
      intro run member none
      rcases uniform run member with ⟨l, rfl⟩ | ⟨_, failed⟩
      · simpa [merge, AllFailed] using none
      · exact failed
    rcases joinFailures_cons l runs.flatten with ⟨x, rest, is, failed, failedX, merged⟩ | ⟨apart, kept⟩
    · rw [joined] at is
      obtain ⟨run, others, rfl, rfl, rfl⟩ := List.map_eq_cons_iff.1 is
      have all := first run (.head _) failedX
      have grown : AllFailed (l :: run) := List.forall_mem_cons.2 ⟨failed, all⟩
      refine ⟨(l :: run) :: others, ⟨rfl, ?_, ?_⟩, ?_⟩
      · exact List.forall_mem_cons.2 ⟨.inr ⟨by simp, grown⟩, fun r member => uniform r (.tail _ member)⟩
      · cases others with
        | nil => exact .singleton _
        | cons b others =>
          obtain ⟨ends, chain⟩ := List.isChain_cons_cons.1 longest
          exact List.isChain_cons_cons.2 ⟨fun both => ends ⟨all, both.2⟩, chain⟩
      · rw [merged]
        simp [merge, failed]
    · refine ⟨[l] :: runs, ⟨rfl, ?_, ?_⟩, ?_⟩
      · exact List.forall_mem_cons.2 ⟨.inl ⟨l, rfl⟩, uniform⟩
      · cases runs with
        | nil => exact .singleton _
        | cons b runs =>
          refine List.isChain_cons_cons.2 ⟨fun both => ?_, longest⟩
          rw [joined] at apart
          have none : (merge b).kind? = none := by
            rcases uniform b (.head _) with ⟨x, rfl⟩ | ⟨some, _⟩
            · simpa [merge, AllFailed] using both.2
            · obtain ⟨x, xs, rfl⟩ := List.exists_cons_of_ne_nil some
              simpa [merge] using both.2 x (.head _)
          exact apart l (by simp) (merge b) (by simp) (both.1 l (.head _)) none
      · rw [kept, joined]
        simp [merge]

/-- A lexeme as a range behind some text. -/
def foundAt (before : List Char) (l : Lexeme) : Found := ⟨l.kind?, size before, size (before ++ l.text)⟩

end Lexeme

namespace Reader

variable {m : Matcher} {lead front : List Char} {r : Reader} {l : Lexeme} {ls : List Lexeme}

/-- The reader has `lead` in front of where it started, has gone over `front`, and these lexemes are
still to come, the first of which it may have kept. -/
structure Stands (m : Matcher) (lead front : List Char) (r : Reader) (ls : List Lexeme) : Prop where
  text : r.text.toList = lead ++ (front ++ texts ls)
  base : r.base = size lead
  ahead : r.peeked = none ∧ r.reached = size front ∧ m.Splits front ls ∨
    ∃ l rest, ls = l :: rest ∧ r.peeked = some (l.foundAt (lead ++ front)) ∧
      r.reached = size (front ++ l.text) ∧ m.Splits (front ++ l.text) rest

theorem Stands.source (stands : r.Stands m lead front ls) : r.source = front ++ texts ls := by
  rw [Reader.source, stands.text, stands.base, Text.cutFrom_size_append]

theorem Stands.found?_nil (stands : r.Stands m lead front []) : r.found? m = none := by
  rcases stands.ahead with ⟨none, reached, splits⟩ | ⟨_, _, is, _⟩
  · cases splits with
    | nil ends =>
      rw [found?, none, stands.source, reached]
      simp [ends]
  · cases is

/-- The next lexeme is found, and may be kept again. -/
theorem Stands.found?_cons (stands : r.Stands m lead front (l :: ls)) :
    ∃ after, r.found? m = some (l.foundAt (lead ++ front), after) ∧
      after.Stands m lead (front ++ l.text) ls ∧ after.position = r.position ∧
      Stands m lead front { after with peeked := some (l.foundAt (lead ++ front)) } (l :: ls) := by
  have text : r.text.toList = lead ++ ((front ++ l.text) ++ texts ls) := by
    rw [stands.text, Lexeme.texts_cons, List.append_assoc]
  rcases stands.ahead with ⟨none, reached, splits⟩ | ⟨_, _, is, some, reached, splits⟩
  · have source := stands.source
    cases splits with
    | @cons _ _ _ f finds kind start stop rest =>
      have found : (⟨f.kind?, f.start + r.base, f.wholeStop r.source + r.base⟩ : Found) =
          l.foundAt (lead ++ front) := by
        rw [source, stop, start, stands.base, kind, Lexeme.foundAt]
        simp [Nat.add_comm]
      refine ⟨{ r with reached := f.wholeStop r.source }, ?_, ⟨text, stands.base, .inl ⟨none, ?_, rest⟩⟩,
        rfl, ⟨stands.text, stands.base, .inr ⟨l, ls, rfl, rfl, ?_, rest⟩⟩⟩
      · rw [found?, none, reached]
        dsimp only
        rw [source, finds, ← source, Option.map_some, found]
      · exact source ▸ stop
      · exact source ▸ stop
  · obtain ⟨rfl, rfl⟩ := List.cons.inj is
    refine ⟨{ r with peeked := none }, ?_, ⟨text, stands.base, .inl ⟨rfl, reached, splits⟩⟩, rfl,
      ⟨stands.text, stands.base, .inr ⟨l, ls, rfl, rfl, reached, splits⟩⟩⟩
    rw [found?, some]

/-- Failures are taken in up to the next match or the end. -/
theorem Stands.absorb (stands : r.Stands m lead front ls) {fuel : Nat} (enough : ls.length < fuel)
    {f : Found} (stop : f.stop = size (lead ++ front)) :
    ∃ after, r.absorb m fuel f =
        .ok ({ f with stop := size (lead ++ (front ++ texts (ls.takeWhile (·.kind?.isNone)))) }, after) ∧
      after.Stands m lead (front ++ texts (ls.takeWhile (·.kind?.isNone)))
        (ls.dropWhile (·.kind?.isNone)) ∧ after.position = r.position := by
  induction ls generalizing fuel front r f with
  | nil =>
    obtain ⟨fuel, rfl⟩ := Nat.exists_eq_succ_of_ne_zero (Nat.ne_of_gt enough)
    refine ⟨r, ?_, by simpa using stands, rfl⟩
    simp [Reader.absorb, stands.found?_nil, ← stop]
  | cons l ls ih =>
    obtain ⟨fuel, rfl⟩ := Nat.exists_eq_succ_of_ne_zero (Nat.ne_of_gt (Nat.zero_lt_of_lt enough))
    obtain ⟨after, found, further, position, kept⟩ := stands.found?_cons
    have adjacent : (l.foundAt (lead ++ front)).start = f.stop := stop.symm
    rw [Reader.absorb, found]
    dsimp only
    cases kind : l.kind? with
    | none =>
      have failed : (l.foundAt (lead ++ front)).kind? = none := kind
      rw [if_pos ⟨failed, adjacent⟩, List.takeWhile_cons_of_pos (by simp [kind]),
        List.dropWhile_cons_of_pos (by simp [kind])]
      obtain ⟨last, absorbed, stands', position'⟩ := ih further (by simpa using enough)
        (f := { f with stop := (l.foundAt (lead ++ front)).stop })
        (by simp [Lexeme.foundAt])
      rw [List.append_assoc, ← Lexeme.texts_cons] at absorbed stands'
      exact ⟨last, absorbed, stands', position'.trans position⟩
    | some k =>
      have matched : ¬ ((l.foundAt (lead ++ front)).kind? = none ∧
          (l.foundAt (lead ++ front)).start = f.stop) := by
        rintro ⟨failed, _⟩
        exact nomatch kind.symm.trans failed
      rw [if_neg matched, List.takeWhile_cons_of_neg (by simp [kind]),
        List.dropWhile_cons_of_neg (by simp [kind])]
      exact ⟨{ after with peeked := some (l.foundAt (lead ++ front)) }, by simp [← stop], by simpa using kept,
        position⟩

/-- The token of a range of the text. -/
theorem token_eq {before own ahead : List Char} (whole : r.text.toList = before ++ (own ++ ahead))
    (k : Option Kind) :
    r.token ⟨k, size before, size (before ++ own)⟩ =
      .ok (⟨(Lexeme.mk k own).kindBefore ahead.head?, String.ofList own, size before,
        ⟨r.position, r.position.advance own⟩⟩, { r with position := r.position.advance own }) := by
  have cut : cut? (size (before ++ own)) r.text.toList = some (before ++ own, ahead) := by
    rw [whole, ← List.append_assoc, Text.cut?_size_append]
  rw [token]
  dsimp only
  rw [Text.slice?_size_append whole, cut]
  simp only [String.toList_ofList]

/-- A position behind the last token is all that tokens change. -/
theorem Stands.moved (stands : r.Stands m lead front ls) (p : Position) :
    Stands m lead front { r with position := p } ls :=
  ⟨stands.text, stands.base, stands.ahead⟩

/-- The reader gives the joined lexemes their places. -/
theorem Stands.tokens (stands : r.Stands m lead front ls) (some : ∀ l ∈ ls, l.text ≠ []) {fuel : Nat}
    (enough : ls.length < fuel) :
    r.tokens m fuel = .ok (Token.place (size (lead ++ front)) r.position (Lexeme.joinFailures ls)) := by
  induction fuel generalizing front r ls with
  | zero => exact absurd enough (Nat.not_lt_zero _)
  | succ fuel ih =>
    rw [Reader.tokens]
    cases ls with
    | nil =>
      rw [stands.found?_nil]
      rfl
    | cons l ls =>
      obtain ⟨after, found, further, position, _⟩ := stands.found?_cons
      obtain ⟨own, others⟩ := List.forall_mem_cons.1 some
      rw [found]
      dsimp only
      cases kind : l.kind? with
      | some k =>
        have matched : (l.foundAt (lead ++ front)).kind? = .some k := kind
        have whole : after.text.toList = (lead ++ front) ++ (l.text ++ texts ls) := by
          rw [further.text]
          simp
        have rest := ih (further.moved (r.position.advance l.text)) others (by simpa using enough)
        rw [matched]
        dsimp only [pure, Except.pure, bind, Except.bind]
        rw [Lexeme.foundAt, token_eq whole, position]
        dsimp only
        rw [rest, Lexeme.joinFailures_matched (by simp [kind]), Token.place,
          Lexeme.head?_texts (Lexeme.text_ne_nil_of_mem_joinFailures others),
          Lexeme.texts_joinFailures]
        simp [Nat.add_assoc]
      | none =>
        have failed : (l.foundAt (lead ++ front)).kind? = Option.none := kind
        have fewer : ls.length < fuel + 1 := Nat.lt_of_succ_lt enough
        obtain ⟨last, absorbed, stands', position'⟩ := further.absorb fewer
          (f := l.foundAt (lead ++ front)) (by simp [Lexeme.foundAt])
        have whole : last.text.toList = (lead ++ front) ++
            ((l.text ++ texts (ls.takeWhile (·.kind?.isNone))) ++ texts (ls.dropWhile (·.kind?.isNone))) := by
          rw [stands'.text]
          simp
        have others' : ∀ x ∈ ls.dropWhile (·.kind?.isNone), x.text ≠ [] :=
          fun x member => others x (List.dropWhile_subset _ member)
        have shorter : (ls.dropWhile (·.kind?.isNone)).length < fuel :=
          Nat.lt_of_le_of_lt (List.dropWhile_suffix _).length_le (by simpa using enough)
        have rest := ih (stands'.moved
          (r.position.advance (l.text ++ texts (ls.takeWhile (·.kind?.isNone))))) others' shorter
        rw [failed]
        dsimp only
        rw [absorbed]
        dsimp only [bind, Except.bind]
        have range : ({ l.foundAt (lead ++ front) with
            stop := size (lead ++ (front ++ l.text ++ texts (ls.takeWhile (·.kind?.isNone)))) } : Found) =
            ⟨l.kind?, size (lead ++ front),
              size ((lead ++ front) ++ (l.text ++ texts (ls.takeWhile (·.kind?.isNone))))⟩ := by
          simp [Lexeme.foundAt]
        rw [range, token_eq whole, position', position]
        dsimp only
        rw [rest, Lexeme.joinFailures_failed kind, Token.place,
          Lexeme.head?_texts (Lexeme.text_ne_nil_of_mem_joinFailures others'),
          Lexeme.texts_joinFailures, kind]
        simp [pure, Except.pure, Nat.add_assoc]

end Reader

namespace Matcher

theorem length_le_size_texts {ls : List Lexeme} (some : ∀ l ∈ ls, l.text ≠ []) :
    ls.length ≤ size (texts ls) := by
  induction ls with
  | nil => exact Nat.zero_le _
  | cons l ls ih =>
    obtain ⟨own, others⟩ := List.forall_mem_cons.1 some
    have positive := List.length_pos_of_ne_nil own
    have bytes := Text.length_le_size l.text
    have rest := ih others
    rw [List.length_cons, Lexeme.texts_cons, Text.size_append]
    omega

/-- The reader starts in front of all lexemes. -/
theorem readFrom_eq {m : Matcher} {text : String} {offset : Nat} {raw : List Lexeme}
    (splits : m.Splits [] raw) (some : ∀ l ∈ raw, l.text ≠ [])
    (whole : texts raw = (cutFrom offset text.toList).2) :
    m.readFrom text offset = .ok (Token.place (size (cutFrom offset text.toList).1)
      (Position.zero.advance (cutFrom offset text.toList).1) (Lexeme.joinFailures raw)) := by
  have stands : (Reader.startingAt text offset).Stands m (cutFrom offset text.toList).1 [] raw := by
    refine ⟨?_, rfl, .inl ⟨rfl, rfl, splits⟩⟩
    rw [List.nil_append, whole]
    exact (Text.append_cutFrom offset text.toList).symm
  have enough : raw.length < text.utf8ByteSize + 1 := by
    have lengths := congrArg size (Text.append_cutFrom offset text.toList)
    rw [Text.size_append, Text.size_toList, ← whole] at lengths
    have short := length_le_size_texts some
    omega
  have read := stands.tokens some enough
  rw [List.append_nil] at read
  exact read

/-- What the rules find at a border. -/
theorem rules_eq (front : List Char) (c : Char) (cs : List Char) :
    rules (front ++ c :: cs) (size front) = some ⟨(Lexeme.munch c cs).1, size front,
      size (front ++ c :: cs.take (Lexeme.munch c cs).2)⟩ := by
  rw [rules, Text.cut?_size_append, Text.size_append]

theorem rules_end (front : List Char) : rules front (size front) = none := by
  have cut := Text.cut?_size_append front []
  rw [List.append_nil] at cut
  rw [rules, cut]

/-- A lexeme of the rules and the text behind it. -/
theorem append_munched (front : List Char) (c : Char) (cs : List Char) (n : Nat) :
    front ++ c :: cs = (front ++ c :: cs.take n) ++ cs.drop n := by
  simp

theorem lawful_rules : rules.Lawful where
  ends := rules_end
  goesOn front c cs := ⟨_, rules_eq front c cs⟩
  adjacent finds := by
    rw [rules_eq] at finds
    obtain rfl := Option.some.inj finds
    rfl
  nonempty {front c cs f} finds := by
    rw [rules_eq] at finds
    obtain rfl := Option.some.inj finds
    have positive := c.utf8Size_pos
    simp only [Text.size_append, Text.size_cons]
    omega
  inside {front c cs f} finds := by
    rw [rules_eq] at finds
    obtain rfl := Option.some.inj finds
    rw [append_munched front c cs (Lexeme.munch c cs).2, Text.size_append _ (cs.drop _)]
    exact Nat.le_add_right _ _
  whole {front c cs f} finds _ := by
    rw [rules_eq] at finds
    obtain rfl := Option.some.inj finds
    rw [append_munched front c cs (Lexeme.munch c cs).2, Text.cut?_size_append]
    rfl

/-- The lexemes of a text are those that the rules find one after the other. -/
theorem splits_rules (front cs : List Char) : rules.Splits front (Lexeme.split cs) := by
  fun_induction Lexeme.split cs generalizing front with
  | case1 => exact .nil (rules_end front)
  | case2 c cs k n munched ih =>
    have found := rules_eq front c cs
    rw [munched] at found
    have source : texts (⟨k, c :: cs.take n⟩ :: Lexeme.split (cs.drop n)) = c :: cs := by
      simp [Lexeme.texts_split]
    refine .cons (by rw [source]; exact found) rfl rfl ?_ (ih _)
    rw [source, Found.wholeStop]
    cases k with
    | some _ => rfl
    | none =>
      dsimp only
      rw [append_munched front c cs n, Text.cutFrom_size_append]

/-- With the rules of the language the reader reads the tokens of the text. -/
theorem readFrom_rules (text : String) (offset : Nat) :
    rules.readFrom text offset = .ok (Token.readFrom text offset) :=
  readFrom_eq (splits_rules [] _) (fun _ member => Lexeme.text_ne_nil member) (Lexeme.texts_split _)

/-- Fails at each byte. -/
def bytewise : Matcher := fun source offset =>
  if offset < size source then some ⟨none, offset, offset + 1⟩ else none

theorem lawful_bytewise : bytewise.Lawful where
  ends source := by simp [bytewise]
  goesOn front c cs := by
    have positive := c.utf8Size_pos
    exact ⟨_, if_pos (by simp only [Text.size_append, Text.size_cons]; omega)⟩
  adjacent finds := by
    obtain ⟨_, rfl⟩ := by simpa [bytewise] using finds
    rfl
  nonempty finds := by
    obtain ⟨_, rfl⟩ := by simpa [bytewise] using finds
    exact Nat.lt_succ_self _
  inside finds := by
    obtain ⟨inside, found⟩ := Option.ite_none_right_eq_some.1 finds
    obtain rfl := Option.some.inj found
    exact inside
  whole finds matched := by
    obtain ⟨_, rfl⟩ := by simpa [bytewise] using finds
    cases matched

end Matcher

namespace Token

/-- The first border at an offset or behind it. The end of the text stands for all offsets behind it. -/
structure FirstBorder (text : String) (offset start : Nat) : Prop where
  border : (cut? start text.toList).isSome
  behind : min offset text.utf8ByteSize ≤ start
  first : ∀ n, (cut? n text.toList).isSome → min offset text.utf8ByteSize ≤ n → start ≤ n

theorem firstBorder_cutFrom (text : String) (offset : Nat) :
    FirstBorder text offset (size (cutFrom offset text.toList).1) where
  border := by
    have cut := Text.cut?_size_append (cutFrom offset text.toList).1 (cutFrom offset text.toList).2
    rw [Text.append_cutFrom] at cut
    rw [cut]
    rfl
  behind := by
    have behind := Text.le_size_cutFrom offset text.toList
    rwa [Text.size_toList] at behind
  first n border behind := by
    obtain ⟨⟨a, b⟩, cut⟩ := Option.isSome_iff_exists.1 border
    obtain ⟨whole, rfl⟩ := Text.append_of_cut? cut
    rw [← Text.size_toList] at behind
    exact Text.size_cutFrom_le whole.symm behind

/-- A token is a run of lexemes put together: its text is theirs and stands between two borders of the
text, its kind the one they have in front of what follows, and its span the lines and columns of the
borders. -/
structure Covers (text : String) (run : List Lexeme) (t : Token) : Prop where
  own : t.text = String.ofList (texts run)
  nonempty : t.text ≠ ""
  borders : slice? text t.start t.stop = some t.text
  kind : ∃ before behind, cut? t.stop text.toList = some (before, behind) ∧
    t.kind = (Lexeme.merge run).kindBefore behind.head?
  starts : (LineIndex.ofText text).lineCol t.start = ⟨t.span.start.line, t.span.start.column⟩
  stops : (LineIndex.ofText text).lineCol t.stop = ⟨t.span.stop.line, t.span.stop.column⟩

theorem texts_merged (runs : List (List Lexeme)) :
    texts (runs.map Lexeme.merge) = texts runs.flatten := by
  induction runs with
  | nil => rfl
  | cons run runs ih =>
    rw [List.map_cons, Lexeme.texts_cons, List.flatten_cons, Lexeme.texts_append, ih]
    rfl

theorem covers_place {text : String} {before : List Char} {runs : List (List Lexeme)}
    (whole : text.toList = before ++ texts runs.flatten) (some : ∀ run ∈ runs, texts run ≠ []) :
    List.Forall₂ (Covers text) runs
      (place (size before) (Position.zero.advance before) (runs.map Lexeme.merge)) := by
  induction runs generalizing before with
  | nil => exact .nil
  | cons run runs ih =>
    obtain ⟨own, others⟩ := List.forall_mem_cons.1 some
    have split : text.toList = before ++ (texts run ++ texts runs.flatten) := by
      rw [whole, List.flatten_cons, Lexeme.texts_append]
    have further : text.toList = (before ++ texts run) ++ texts runs.flatten := by
      rw [split, List.append_assoc]
    have merged : ∀ l ∈ runs.map Lexeme.merge, l.text ≠ [] := by
      simpa [Lexeme.merge] using others
    have rest := ih further others
    rw [Text.size_append, Position.advance_append] at rest
    rw [List.map_cons, place, Lexeme.head?_texts merged, texts_merged]
    have stop : size before + (String.ofList (texts run)).utf8ByteSize = size (before ++ texts run) := by
      rw [Text.size_ofList, Text.size_append]
    rw [show (Lexeme.merge run).text = texts run from rfl]
    refine .cons { own := rfl, nonempty := ?_, borders := ?_, kind := ?_, starts := ?_, stops := ?_ } rest
    · exact fun empty => own (String.ofList_injective (by simpa using empty))
    · rw [Token.stop, stop, Text.slice?_size_append split]
    · refine ⟨before ++ texts run, texts runs.flatten, ?_, rfl⟩
      rw [further, Token.stop, stop, Text.cut?_size_append]
    · exact LineIndex.lineCol_size split
    · have place := LineIndex.lineCol_size further
      rw [Position.advance_append] at place
      rwa [Token.stop, stop]

/-- Tokens side by side from the first border behind the offset up to the end of the text, one for each
of the longest runs of what the matcher finds there. -/
structure Tiles (m : Matcher) (text : String) (offset : Nat) (tokens : List Token) : Prop where
  abreast : ∃ start, FirstBorder text offset start ∧ Abreast text.utf8ByteSize start tokens
  lexemes : ∃ raw runs, m.Splits [] raw ∧ texts raw = (cutFrom offset text.toList).2 ∧
    Lexeme.Runs raw runs ∧ List.Forall₂ (Covers text) runs tokens

/-- Reading from any offset gives tokens that tile the text, whatever the rules are that find the lexemes,
and with the rules of the language these are the tokens of the text. -/
theorem readFrom_tiles (text : String) (offset : Nat) :
    (∀ m : Matcher, m.Lawful → ∃ tokens, m.readFrom text offset = .ok tokens ∧
      Tiles m text offset tokens) ∧
    Tiles Matcher.rules text offset (readFrom text offset) := by
  have tiles (m : Matcher) (lawful : m.Lawful) : ∃ tokens, m.readFrom text offset = .ok tokens ∧
      Tiles m text offset tokens := by
    obtain ⟨raw, whole, splits, some⟩ := lawful.exists_splits [] (cutFrom offset text.toList).2
    obtain ⟨runs, cut, joined⟩ := Lexeme.exists_runs raw
    have behind := Text.append_cutFrom offset text.toList
    rw [← whole] at behind
    refine ⟨_, Matcher.readFrom_eq splits some whole, ⟨_, firstBorder_cutFrom text offset, ?_⟩,
      raw, runs, splits, whole, cut, ?_⟩
    · have abreast := abreast_layOut (size (cutFrom offset text.toList).1)
        (Position.zero.advance (cutFrom offset text.toList).1)
        (labelsBefore [] (Lexeme.joinFailures raw))
      rwa [← place_eq_layOut, chars_labelsBefore, Lexeme.texts_joinFailures, ← Text.size_append, behind,
        Text.size_toList] at abreast
    · rw [joined]
      exact covers_place (by rw [cut.whole, behind]) (cut.texts_ne_nil some)
  obtain ⟨tokens, read, tiled⟩ := tiles _ Matcher.lawful_rules
  obtain rfl := Except.ok.inj ((Matcher.readFrom_rules text offset).symm.trans read)
  exact ⟨tiles, tiled⟩

/-- Failures that stop inside of a character take all of it, and reading that starts inside of one starts
behind it. -/
theorem readFrom_tiles_bytewise : Matcher.bytewise.Lawful ∧
    Tiles Matcher.bytewise "±±\n§" 1 [⟨.error, "±\n§", 2, ⟨⟨0, 2⟩, ⟨1, 2⟩⟩⟩] := by
  obtain ⟨tokens, read, tiled⟩ := (readFrom_tiles "±±\n§" 1).1 Matcher.bytewise
    Matcher.lawful_bytewise
  have same : Matcher.bytewise.readFrom "±±\n§" 1 =
      .ok [⟨.error, "±\n§", 2, ⟨⟨0, 2⟩, ⟨1, 2⟩⟩⟩] := by decide
  obtain rfl := Except.ok.inj (same.symm.trans read)
  exact ⟨Matcher.lawful_bytewise, tiled⟩

end Token

end ShaderTree
