import ShaderTree.Proofs.Parser.Beside
import ShaderTree.Proofs.Parser.Safety

/-! What a diagnostic says of the delimiters around it. Read upwards, a stack opens and closes
delimiters one inside the other; the parser searches it downwards with a count of closers, and comes
upon the innermost one that the text has not closed. A closer that is pretended does not count until
a reduction hides it together with its opener. -/
namespace ShaderTree

open Token (Label label chars hasText)

/-- A delimiter that is open, with the number of closers that it lacks. -/
structure Opening where
  enclosure : Enclosure
  range : ByteRange
  lacking : Nat

namespace Opening

/-- What is left open behind one more closer: it goes to the innermost delimiter. -/
def close : List Opening → List Opening
  | [] => []
  | o :: os => if o.lacking ≤ 1 then os else { o with lacking := o.lacking - 1 } :: os

/-- What some open delimiters enclose a place by. -/
def innermost (os : List Opening) : Enclosure := (os.head?.map (·.enclosure)).getD .topLevel

theorem iterate_close_nil (n : Nat) : close^[n] [] = [] := by
  induction n with
  | zero => rfl
  | succ n ih => rw [Function.iterate_succ_apply, close, ih]

/-- Several closers close a delimiter if there are enough of them, and the others go on. -/
theorem iterate_close_cons (n : Nat) (o : Opening) (os : List Opening) (lacks : 0 < o.lacking) :
    close^[n] (o :: os) = if o.lacking ≤ n then close^[n - o.lacking] os
      else { o with lacking := o.lacking - n } :: os := by
  induction n generalizing o with
  | zero => rw [if_neg (by omega)]; rfl
  | succ n ih =>
    rw [Function.iterate_succ_apply, close]
    by_cases last : o.lacking ≤ 1
    · have one : o.lacking = 1 := by omega
      rw [if_pos last, if_pos (by omega), one, Nat.add_sub_cancel]
    · rw [if_neg last, ih _ (show 0 < o.lacking - 1 by omega)]
      by_cases enough : o.lacking ≤ n + 1
      · have less : n - (o.lacking - 1) = n + 1 - o.lacking := by omega
        rw [if_pos enough, if_pos (show o.lacking - 1 ≤ n by omega), less]
      · have less : o.lacking - 1 - n = o.lacking - (n + 1) := by omega
        rw [if_neg enough, if_neg (show ¬ o.lacking - 1 ≤ n by omega), less]

end Opening

/-- The tokens that close delimiters. -/
def Kind.isCloser (k : Kind) : Bool := k = .rParen || k = .rBracket || k = .rBrace

theorem Enclosure.closerCount_pos {k : Kind} {enclosure : Enclosure}
    (opens : openedBy? k = some enclosure) : 0 < enclosure.closerCount := by
  unfold openedBy? at opens
  split at opens <;> cases opens <;> decide

namespace Entry

/-- The delimiter that a token opens. -/
def opening? (e : Entry) : Option Opening :=
  match e.children with
  | [.leaf k text] => (Enclosure.openedBy? k).map fun enclosure =>
      ⟨enclosure, ⟨e.offset, e.offset + text.utf8ByteSize⟩, enclosure.closerCount⟩
  | _ => none

/-- A closer that was read. -/
def readsCloser (e : Entry) : Bool :=
  match e.children with
  | [.leaf k _] => k.isCloser
  | _ => false

/-- A closer that is pretended. -/
def pretendsCloser (e : Entry) : Bool :=
  match e.children with
  | [.node .missing _ [.leaf k _]] => k.isCloser
  | _ => false

def closes (e : Entry) : Bool := e.readsCloser || e.pretendsCloser

theorem opening?_lacks {e : Entry} {o : Opening} (opens : e.opening? = some o) : 0 < o.lacking := by
  unfold opening? at opens
  split at opens
  · obtain ⟨enclosure, opened, rfl⟩ := Option.map_eq_some_iff.1 opens
    exact Enclosure.closerCount_pos opened
  · cases opens

end Entry

namespace Config

/-- The delimiters that the symbols on a stack leave open, innermost first, where some entries count
as closers. -/
def openings (closes : Entry → Bool) : List Entry → List Opening
  | [] => []
  | e :: below =>
    if !e.isSymbol then openings closes below
    else if closes e then Opening.close (openings closes below)
    else e.opening?.toList ++ openings closes below

/-- The search down a stack finds the innermost delimiter that as many closers leave open as were
counted on the way. -/
theorem openDelimiterIn_eq_openings (closed : Nat) (stack : List Entry) :
    openDelimiterIn closed stack =
      (Opening.close^[closed] (openings Entry.readsCloser stack)).head?.map
        fun o => (o.enclosure, o.range) := by
  induction stack generalizing closed with
  | nil => rw [openings, Opening.iterate_close_nil]; rfl
  | cons e below ih =>
    cases role : e.isSymbol with
    | false =>
      rw [openDelimiterIn_extra role, openings, role]
      exact ih closed
    | true =>
      by_cases alone : ∃ k text, e.children = [.leaf k text]
      · obtain ⟨k, text, is⟩ := alone
        have reads : e.readsCloser = k.isCloser := by rw [Entry.readsCloser, is]
        rw [openDelimiterIn, openings, is, role]
        cases closer : k.isCloser with
        | true =>
          have listed : k = .rParen ∨ k = .rBracket ∨ k = .rBrace := by
            simpa [Kind.isCloser, or_assoc] using closer
          simp only [reads, closer, listed, Bool.not_true, Bool.false_eq_true, if_false, if_true]
          rw [ih, Function.iterate_succ_apply]
        | false =>
          have other : ¬ (k = .rParen ∨ k = .rBracket ∨ k = .rBrace) := by
            simpa [Kind.isCloser, and_assoc] using closer
          simp only [reads, closer, other, Bool.not_true, Bool.false_eq_true, if_false]
          cases opens : Enclosure.openedBy? k with
          | none => simp [Entry.opening?, is, opens, ih]
          | some enclosure =>
            have own : e.opening? = some
                ⟨enclosure, ⟨e.offset, e.offset + text.utf8ByteSize⟩, enclosure.closerCount⟩ := by
              simp [Entry.opening?, is, opens]
            rw [own, Option.toList_some, List.singleton_append,
              Opening.iterate_close_cons _ _ _ (Entry.opening?_lacks own)]
            dsimp only
            split
            · exact ih _
            · rfl
      · have other (k : Kind) (text : String) : e.children ≠ [.leaf k text] :=
          fun is => alone ⟨k, text, is⟩
        have reads : e.readsCloser = false := by
          unfold Entry.readsCloser
          split
          · rename_i is
            exact absurd is (other _ _)
          · rfl
        have opens : e.opening? = none := by
          unfold Entry.opening?
          split
          · rename_i is
            exact absurd is (other _ _)
          · rfl
        rw [openDelimiterIn_of_ne other, openings, role, reads, opens]
        simpa using ih closed

theorem openDelimiter?_eq (c : Config) : c.openDelimiter? =
    (openings Entry.readsCloser c.stack).head?.map fun o => (o.enclosure, o.range) :=
  openDelimiterIn_eq_openings 0 c.stack

theorem enclosure_eq_innermost (c : Config) :
    c.enclosure = Opening.innermost (openings Entry.readsCloser c.stack) := by
  rw [enclosure, openDelimiter?_eq, Option.map_map]
  rfl

/-- Without pretended closers it makes no difference whether they count. -/
theorem openings_congr {stack : List Entry}
    (none : ∀ e ∈ stack, e.isSymbol = true → e.pretendsCloser = false) :
    openings Entry.closes stack = openings Entry.readsCloser stack := by
  induction stack with
  | nil => rfl
  | cons e below ih =>
    obtain ⟨first, others⟩ := List.forall_mem_cons.1 none
    rw [openings, openings, ih others]
    cases role : e.isSymbol with
    | false => rfl
    | true => rw [Entry.closes, first role, Bool.or_false]

/-- An open delimiter is the token of an entry, however many of its closers were read. -/
theorem exists_entry_of_openings {closes : Entry → Bool} {stack : List Entry} {o : Opening}
    (member : o ∈ openings closes stack) : ∃ above e below k text, stack = above ++ e :: below ∧
      e.children = [.leaf k text] ∧ Enclosure.openedBy? k = some o.enclosure ∧
      o.range = ⟨e.offset, e.offset + text.utf8ByteSize⟩ := by
  have own {e : Entry} {o : Opening} (opens : e.opening? = some o) : ∃ k text,
      e.children = [.leaf k text] ∧ Enclosure.openedBy? k = some o.enclosure ∧
      o.range = ⟨e.offset, e.offset + text.utf8ByteSize⟩ := by
    unfold Entry.opening? at opens
    split at opens
    · rename_i k text is
      obtain ⟨enclosure, opened, rfl⟩ := Option.map_eq_some_iff.1 opens
      exact ⟨k, text, is, opened, rfl⟩
    · cases opens
  induction stack generalizing o with
  | nil => cases member
  | cons e below ih =>
    have deeper {o : Opening} (member : o ∈ openings closes below) :
        ∃ above e' below' k text, e :: below = above ++ e' :: below' ∧
          e'.children = [.leaf k text] ∧ Enclosure.openedBy? k = some o.enclosure ∧
          o.range = ⟨e'.offset, e'.offset + text.utf8ByteSize⟩ := by
      obtain ⟨above, e', below', k, text, rfl, found⟩ := ih member
      exact ⟨e :: above, e', below', k, text, rfl, found⟩
    rw [openings] at member
    split at member
    · exact deeper member
    · split at member
      · cases inner : openings closes below with
        | nil =>
          rw [inner] at member
          cases member
        | cons o' os =>
          rw [inner, Opening.close] at member
          split at member
          · exact deeper (inner ▸ .tail _ member)
          · rcases List.mem_cons.1 member with rfl | member
            · exact deeper (o := o') (inner ▸ .head _)
            · exact deeper (inner ▸ .tail _ member)
      · rcases List.mem_append.1 member with member | member
        · obtain ⟨k, text, found⟩ := own (Option.mem_toList.1 member)
          exact ⟨[], e, below, k, text, rfl, found⟩
        · exact deeper member

/-! The tokens of open delimiters -/

/-- Tokens have text, those still to be read as well as those that stand in an entry. -/
structure Worded (c : Config) : Prop where
  stack : ∀ e ∈ c.stack, ∀ k text, .leaf k text ∈ e.children → text ≠ ""
  tokens : ∀ t ∈ c.pending ++ c.rest, t.text ≠ ""

variable {c c' : Config}

theorem worded_initial {tokens : List Token} (texts : ∀ t ∈ tokens, t.text ≠ "") :
    (initial tokens).Worded :=
  ⟨by simp [initial], texts⟩

theorem Worded.settle (worded : c.Worded) : c.settle.Worded :=
  ⟨worded.stack, by rw [pending_append_rest_settle]; exact worded.tokens⟩

theorem ne_empty_of_mem_map_leaf (tokens : List Token) (texts : ∀ t ∈ tokens, t.text ≠ "") {k : Kind}
    {text : String} (member : Tree.leaf k text ∈ tokens.map leaf) : text ≠ "" := by
  obtain ⟨t, inside, is⟩ := List.mem_map.1 member
  obtain ⟨rfl, rfl⟩ := Tree.leaf.inj is
  exact texts t inside

theorem Worded.flush (worded : c.Worded) : c.flush.Worded := by
  have tokens := List.forall_mem_append.1 worded.tokens
  refine ⟨fun e member => ?_, fun t member => tokens.2 t (rest_flush c ▸ member)⟩
  rw [flush_eq] at member
  rcases List.mem_append.1 member with blank | old
  · obtain ⟨t, aside, rfl⟩ := List.mem_map.1 (List.mem_reverse.1 blank)
    exact fun k text => ne_empty_of_mem_map_leaf [t] (by simpa using tokens.1 t aside)
  · exact worded.stack e old

/-- An entry goes to the stack, and tokens are read. -/
theorem Worded.push (worded : c.Worded) {e : Entry} (stack : c'.stack = e :: c.flush.stack)
    (own : ∀ k text, .leaf k text ∈ e.children → text ≠ "") (pending : c'.pending = [])
    (rest : c'.rest ⊆ c.rest) : c'.Worded := by
  refine ⟨stack ▸ List.forall_mem_cons.2 ⟨own, worded.flush.stack⟩, fun t member => ?_⟩
  rw [pending, List.nil_append] at member
  exact worded.tokens t (List.mem_append_right _ (rest member))

end Config

namespace Setup

open Config

variable {s : Setup} {c c' : Config} {k : Kind}

theorem worded_reduce (worded : c.Worded) {p : Nat} (h : s.reduce c p k = .ok c') : c'.Worded := by
  obtain ⟨r, trailing, popped, below, next, _, trailingIs, split, _, rfl⟩ := reduce_ok h
  have whole := stack_of_reduce trailingIs split
  have inside (e : Entry) (member : e ∈ trailing ∨ e ∈ popped ∨ e ∈ below) (k : Kind) (text : String)
      (leaf : .leaf k text ∈ e.children) : text ≠ "" := by
    refine worded.stack e ?_ k text leaf
    rw [whole]
    simpa using member
  refine ⟨fun e member => ?_, worded.tokens⟩
  rcases List.mem_append.1 member with moved | member
  · obtain ⟨old, there, rfl⟩ := List.mem_map.1 moved
    exact inside old (.inl there)
  · rcases List.mem_cons.1 member with rfl | old
    · intro l text leaf
      unfold made at leaf
      split at leaf
      · obtain ⟨e, popped, leaf⟩ := List.mem_flatMap.1 leaf
        refine inside e (.inr (.inl popped)) l text ?_
        unfold Entry.trees at leaf
        split at leaf
        · simp at leaf
        · exact leaf
      · simp at leaf
    · exact inside e (.inr (.inr old))

theorem worded_skip (worded : c.Worded) (h : s.skip c = .ok c') : c'.Worded := by
  obtain ⟨t, rest, front, rfl⟩ := skip_ok h
  have texts := List.forall_mem_append.1 worded.tokens
  rw [front] at texts
  obtain ⟨own, others⟩ := List.forall_mem_cons.1 texts.2
  unfold pushSkipped
  split
  · rename_i state damaged offset children below _ stack
    obtain ⟨top, old⟩ := List.forall_mem_cons.1 (stack ▸ worded.stack)
    refine ⟨List.forall_mem_cons.2 ⟨fun k text leaf => ?_, old⟩, others⟩
    rcases List.mem_append.1 leaf with leaf | leaf
    · rcases List.mem_append.1 leaf with leaf | leaf
      · exact top k text leaf
      · exact ne_empty_of_mem_map_leaf _ texts.1 leaf
    · exact ne_empty_of_mem_map_leaf [t] (by simpa using own) leaf
  · refine worded.push rfl (fun k text => ne_empty_of_mem_map_leaf [t] ?_) rfl ?_
    · simpa using own
    · rw [front]
      exact List.subset_cons_self _ _

theorem worded_shift (worded : c.Worded) {next : Nat} (h : Setup.shift c next = .ok c') :
    c'.Worded := by
  obtain ⟨t, rest, front, rfl⟩ := shift_ok h
  have own : t.text ≠ "" := worded.tokens t (List.mem_append_right _ (front ▸ .head _))
  refine worded.push rfl (fun k text => ne_empty_of_mem_map_leaf [t] ?_) rfl ?_
  · simpa using own
  · rw [front]
    exact List.subset_cons_self _ _

theorem worded_takeOver (worded : c.Worded) {found : Reusable} {record : Record}
    (recorded : found.node.record? = some record) : (Setup.takeOver c found).Worded := by
  refine worded.push rfl (fun k text leaf => ?_) rfl ?_
  · rw [← List.mem_singleton.1 leaf] at recorded
    cases recorded
  · change c.flush.rest.drop found.count ⊆ c.rest
    rw [rest_flush]
    exact (List.drop_suffix _ _).subset

theorem Move.worded (worded : c.Worded) (move : Move s c c') : c'.Worded := by
  have settled := worded.settle
  have node {l : Kind} {m : Mark} {cs : List Tree} (k : Kind) (text : String)
      (leaf : Tree.leaf k text ∈ [Tree.node l m cs]) : text ≠ "" := by simp at leaf
  cases move with
  | insertReduce _ _ reduced => exact worded_reduce worded reduced
  | insertShift => exact ⟨List.forall_mem_cons.2 ⟨node, worded.stack⟩, worded.tokens⟩
  | insertStop => exact ⟨worded.stack, worded.tokens⟩
  | reduce _ _ _ reduced => exact worded_reduce settled reduced
  | shift _ _ _ shifted => exact worded_shift settled shifted
  | takeOver _ _ _ _ finds =>
    obtain ⟨record, fits⟩ := Reuse.find?_some finds
    exact worded_takeOver settled fits.recorded
  | insert => exact ⟨settled.stack, settled.tokens⟩
  | wrap =>
    refine ⟨List.forall_mem_cons.2 ⟨node, fun e member => ?_⟩, settled.tokens⟩
    exact settled.stack e (mem_of_pop (.inr member))
  | skip _ _ _ _ _ skipped => exact worded_skip settled skipped

theorem moves_worded (worded : c.Worded) (moves : Relation.ReflTransGen (Move s) c c') :
    c'.Worded := by
  induction moves with
  | refl => exact worded
  | tail _ move ih => exact move.worded ih

end Setup

/-- An open delimiter is a token of the text, at its place. -/
theorem Config.exists_token_of_openings {c : Config} {closes : Entry → Bool} {tokens : List Token}
    {stop : Nat} (abreast : Token.Abreast stop 0 tokens) (placed : c.Placed stop) (worded : c.Worded)
    (output : c.output = tokens.map label) {o : Opening} (member : o ∈ openings closes c.stack) :
    ∃ t ∈ tokens, Enclosure.openedBy? t.kind = some o.enclosure ∧ o.range = t.range := by
  obtain ⟨above, e, below, k, text, stack, children, opens, range⟩ := exists_entry_of_openings member
  have some : hasText (k, text) = true := by
    refine decide_eq_true (worded.stack e ?_ k text ?_)
    · rw [stack]
      simp
    · rw [children]
      exact .head _
  have lays : Lays (tokens.map label) (e :: below) := by
    have whole : Lays (tokens.map label) (above ++ e :: below) := stack ▸ lays_of_output output
    clear stack
    induction above with
    | nil => exact whole
    | cons f above ih => exact ih whole.below
  have offset : e.offset = extent below := by
    have offsets := placed.offsets
    rw [stack] at offsets
    exact offsets.of_append.1
  obtain ⟨rest, same⟩ := lays
  rw [word_cons, children, Tree.leavesAll, Tree.leaves, Tree.leavesAll, List.append_nil,
    List.filter_append, List.filter_cons_of_pos some, List.filter_nil, List.append_assoc,
    List.singleton_append] at same
  obtain ⟨front, back, rfl, isFront, isBack⟩ := List.map_eq_append_iff.1 same.symm
  obtain ⟨t, others, rfl, isLabel, _⟩ := List.map_eq_cons_iff.1 isBack
  obtain ⟨rfl, rfl⟩ := Prod.mk.inj isLabel
  have start : t.start = extent below := by
    rw [(Token.abreast_append.1 abreast).2.1, Nat.zero_add, Token.width, isFront,
      Token.chars_filter_hasText, extent_eq]
  refine ⟨t, List.mem_append_right _ (.head _), opens, ?_⟩
  rw [range, offset, ← start]
  rfl

namespace Setup

open Config

variable {s : Setup} {c c' : Config} {d : Diagnostic} {tokens : List Token}

/-- The stack at the moment of a report: a pretended token is reported before it stands there, and
all else behind the repair. -/
def stackAt (d : Diagnostic) (c c' : Config) : List Entry :=
  if d.code = .missingToken then c.stack else c'.stack

/-- What a pretended token points at: its own opener, if that is the innermost delimiter. -/
def opener (k : Kind) (stack : List Entry) : List Related :=
  match openings Entry.readsCloser stack with
  | [] => []
  | o :: _ => if o.enclosure.closer? = some k then
      [⟨o.enclosure.description ++ " opened here", o.range⟩] else []

theorem missingDiagnostic_eq (c : Config) (k : Kind) :
    (missingDiagnostic c k).code = .missingToken ∧
      (missingDiagnostic c k).enclosure = Opening.innermost (openings Entry.readsCloser c.stack) ∧
      (missingDiagnostic c k).related = opener k c.stack := by
  unfold missingDiagnostic opener
  rw [openDelimiter?_eq]
  cases openings Entry.readsCloser c.stack with
  | nil => exact ⟨rfl, rfl, rfl⟩
  | cons o os => exact ⟨rfl, rfl, rfl⟩

/-- An error token has a report of its own. -/
theorem exists_report_of_error {t : Token} (kind : t.kind = .error) (widen : Bool)
    (hint : Option String) : ∃ d, reportSkipped c t widen hint = d :: c.diagnostics := by
  obtain ⟨d, own⟩ : ∃ d, t.diagnostic? = some d := by
    unfold Token.diagnostic?
    rw [if_neg (not_not.2 kind)]
    split_ifs <;> exact ⟨_, rfl⟩
  exact ⟨_, by rw [reportSkipped, own]⟩

/-- A report of a token left out that is not made to reach further is a new one. -/
theorem reportSkipped_fresh {t : Token} {widen : Bool} {hint : Option String}
    (fresh : reportSkipped c t widen hint = d :: c.diagnostics) :
    d.code ≠ .missingToken ∧ d.enclosure = c.enclosure ∧ d.related = [] := by
  unfold reportSkipped at fresh
  split at fresh
  · rename_i own
    obtain ⟨rfl, _⟩ := List.cons.inj fresh
    unfold Token.diagnostic? at own
    split_ifs at own <;> cases own <;> simp
  · dsimp only at fresh
    split at fresh
    · rename_i last older reported
      split at fresh
      · -- one report more than before cannot be a report in place of another
        have lengths := congrArg List.length fresh
        rw [reported] at lengths
        simp at lengths
      · rw [reported] at fresh
        obtain ⟨rfl, _⟩ := List.cons.inj fresh
        simp
    · rename_i none
      rw [none] at fresh
      obtain ⟨rfl, _⟩ := List.cons.inj fresh
      simp

/-- Every report speaks of the innermost delimiter, and only that of a pretended token points at it. -/
theorem Move.reported (move : Move s c c') (reported : c'.diagnostics = d :: c.diagnostics) :
    d.enclosure = Opening.innermost (openings Entry.readsCloser (stackAt d c c')) ∧
      ((d.code ≠ .missingToken ∧ d.related = []) ∨ ∃ k, d.code = .missingToken ∧
        c.inserting = some k ∧ d.related = opener k c.stack) := by
  have silent {ds : List Diagnostic} (same : ds = d :: ds) : False := by
    simpa using congrArg List.length same
  cases move with
  | insertReduce _ _ reduced =>
    obtain ⟨_, _, _, _, _, _, _, _, _, rfl⟩ := reduce_ok reduced
    exact (silent reported).elim
  | insertShift inserting =>
    obtain ⟨rfl, _⟩ := List.cons.inj reported
    obtain ⟨code, enclosure, related⟩ := missingDiagnostic_eq c _
    refine ⟨?_, .inr ⟨_, code, inserting, related⟩⟩
    rw [stackAt, if_pos code]
    exact enclosure
  | insertStop => exact (silent reported).elim
  | reduce _ _ _ reduced =>
    obtain ⟨_, _, _, _, _, _, _, _, _, rfl⟩ := reduce_ok reduced
    exact (silent reported).elim
  | shift _ _ _ shifted =>
    obtain ⟨_, _, _, rfl⟩ := shift_ok shifted
    rw [flush_eq] at reported
    exact (silent reported).elim
  | takeOver =>
    rw [Setup.takeOver, flush_eq] at reported
    exact (silent reported).elim
  | insert => exact (silent reported).elim
  | wrap =>
    obtain ⟨rfl, _⟩ := List.cons.inj reported
    exact ⟨enclosure_eq_innermost _, .inl ⟨by simp, rfl⟩⟩
  | skip _ _ _ _ _ skipped =>
    obtain ⟨t, rest, _, rfl⟩ := skip_ok skipped
    have kept : (pushSkipped c.settle t).1.diagnostics = c.diagnostics := by
      unfold pushSkipped
      split
      · rfl
      · rw [flush_eq]
        rfl
    have fresh := reported
    rw [← kept] at fresh
    obtain ⟨code, enclosure, related⟩ := reportSkipped_fresh fresh
    refine ⟨?_, .inl ⟨code, related⟩⟩
    rw [stackAt, if_neg code, enclosure]
    exact enclosure_eq_innermost _

end Setup

open Setup Config in
/-- What a report says of the delimiters around it, for every language, text and options, with an old
tree or without: it is enclosed by the innermost delimiter on the stack that closers from the text
leave open. Where no pretended closer stands on the stack that is the innermost one that is open at
all. The report of a missing closer points at the token that it would close, and at its exact place;
no other report points anywhere. -/
theorem Parser.reported_innermost {p : Parser} {reuse : Option Reuse} {text : String}
    {c c' : Config} {d : Diagnostic} (reached : (p.setup reuse).Reached (Token.readAll text) c)
    (stepped : (p.setup reuse).step c = .ok (.next c'))
    (reported : c'.diagnostics = d :: c.diagnostics) :
    d.enclosure = Opening.innermost (openings Entry.readsCloser (stackAt d c c')) ∧
    ((∀ e ∈ stackAt d c c', e.isSymbol = true → e.pretendsCloser = false) →
      d.enclosure = Opening.innermost (openings Entry.closes (stackAt d c c'))) ∧
    (∀ k, d.code = .missingToken → c.inserting = some k → d.enclosure.closer? = some k →
      ∃ t ∈ Token.readAll text, Enclosure.openedBy? t.kind = some d.enclosure ∧
        (openings Entry.readsCloser c.stack).head?.map (·.range) = some t.range ∧
        d.related = [⟨d.enclosure.description ++ " opened here", t.range⟩]) ∧
    (d.related ≠ [] → ∃ k, d.code = .missingToken ∧ c.inserting = some k ∧
      d.enclosure.closer? = some k) := by
  have move : Move (p.setup reuse) c c' := by
    rcases step_cases stepped with ⟨_, is, move⟩ | ⟨_, is | is, _⟩
    · exact Step.next.inj is ▸ move
    · cases is
    · cases is
  obtain ⟨enclosure, points⟩ := move.reported reported
  have abreast := Token.abreast_readAll text
  have texts (t : Token) (member : t ∈ Token.readAll text) : hasText (label t) = true :=
    Token.hasText_of_mem_readAll member
  have placed := moves_placed (placed_initial abreast) reached.moves
  have worded := moves_worded (worded_initial fun t member => of_decide_eq_true (texts t member))
    reached.moves
  have output : c.output = (Token.readAll text).map label := by
    rw [moves_output_eq reached.moves]
    refine List.filter_eq_self.2 fun l member => ?_
    obtain ⟨t, inside, rfl⟩ := List.mem_map.1 member
    exact texts t inside
  refine ⟨enclosure, fun none => ?_, fun k code inserting closer => ?_, fun some => ?_⟩
  · rw [openings_congr none]
    exact enclosure
  · rw [stackAt, if_pos code] at enclosure
    obtain ⟨other, _⟩ | ⟨k', _, inserting', related⟩ := points
    · exact absurd code other
    · obtain rfl := Option.some.inj (inserting.symm.trans inserting')
      cases opened : openings Entry.readsCloser c.stack with
      | nil =>
        rw [enclosure, opened] at closer
        cases closer
      | cons o os =>
        have own : d.enclosure = o.enclosure := by rw [enclosure, opened]; rfl
        have first : o ∈ openings Entry.readsCloser c.stack := opened ▸ .head _
        obtain ⟨t, member, opens, range⟩ := exists_token_of_openings abreast placed worded output first
        refine ⟨t, member, own ▸ opens, by rw [← range]; rfl, ?_⟩
        rw [related, opener, opened]
        dsimp only
        rw [if_pos (own ▸ closer), own, range]
  · obtain ⟨_, none⟩ | ⟨k, code, inserting, related⟩ := points
    · exact absurd none some
    · refine ⟨k, code, inserting, ?_⟩
      rw [stackAt, if_pos code] at enclosure
      rw [related, opener] at some
      cases opened : openings Entry.readsCloser c.stack with
      | nil => simp [opened] at some
      | cons o os =>
        rw [enclosure, opened]
        rw [opened] at some
        by_contra other
        exact some (if_neg other)

end ShaderTree
