import ShaderTree.Proofs.Parser.Faultless

/-! Error tokens in trees. No symbol of the grammar stands for an error token, so entries of the stack
that count as undamaged have none, and neither has a node that keeps a record; so no old node that is
taken over stands for one. -/
namespace ShaderTree

namespace Tree

variable {t : Tree} {ts us : List Tree}

/-- No leaf is an error token. -/
def Clean (t : Tree) : Prop := ∀ l ∈ t.leaves, l.1 ≠ .error

def CleanIn (ts : List Tree) : Prop := ∀ l ∈ leavesAll ts, l.1 ≠ .error

/-- Nodes that keep a record have no error tokens below them. -/
def KeepsClean (t : Tree) : Prop := ∀ u ∈ t.nodes, u.record? ≠ none → u.Clean

def KeepsCleanIn (ts : List Tree) : Prop := ∀ u ∈ nodesAll ts, u.record? ≠ none → u.Clean

@[simp] theorem cleanIn_nil : CleanIn [] := fun _ member => nomatch member

theorem cleanIn_append : CleanIn (ts ++ us) ↔ CleanIn ts ∧ CleanIn us := by
  simp only [CleanIn, leavesAll_append, List.mem_append, or_imp, forall_and]

theorem cleanIn_cons : CleanIn (t :: ts) ↔ t.Clean ∧ CleanIn ts := by
  simp only [CleanIn, Clean, leavesAll, List.mem_append, or_imp, forall_and]

@[simp] theorem keepsCleanIn_nil : KeepsCleanIn [] := fun _ member => nomatch member

theorem keepsCleanIn_append : KeepsCleanIn (ts ++ us) ↔ KeepsCleanIn ts ∧ KeepsCleanIn us := by
  simp only [KeepsCleanIn, nodesAll_append, List.mem_append, or_imp, forall_and]

theorem keepsCleanIn_cons : KeepsCleanIn (t :: ts) ↔ t.KeepsClean ∧ KeepsCleanIn ts := by
  simp only [KeepsCleanIn, KeepsClean, nodesAll, List.mem_append, or_imp, forall_and]

theorem keepsClean_leaf (k : Kind) (text : String) : (leaf k text).KeepsClean :=
  fun _ member => nomatch member

theorem keepsClean_node {k : Kind} {m : Mark} {cs : List Tree} :
    (node k m cs).KeepsClean ↔ (m.record ≠ none → CleanIn cs) ∧ KeepsCleanIn cs := by
  simp only [KeepsCleanIn, KeepsClean, nodes, List.mem_cons, forall_eq_or_imp]
  rfl

mutual

/-- Numbers change nothing of this. -/
theorem keepsClean_numberFrom (next : Nat) {t : Tree} (keeps : t.KeepsClean) :
    (numberFrom next t).1.KeepsClean := by
  cases t with
  | leaf => exact keeps
  | node k m cs =>
    obtain ⟨own, below⟩ := keepsClean_node.1 keeps
    have numbered := keepsCleanIn_numberAllFrom (next + 1) below
    rw [numberFrom]
    split
    · exact keepsClean_node.2 ⟨own, below⟩
    · refine keepsClean_node.2 ⟨fun recorded => ?_, numbered⟩
      rw [CleanIn, leavesAll_numberAllFrom]
      exact own recorded

theorem keepsCleanIn_numberAllFrom (next : Nat) {ts : List Tree} (keeps : KeepsCleanIn ts) :
    KeepsCleanIn (numberAllFrom next ts).1 := by
  cases ts with
  | nil => exact keeps
  | cons t ts =>
    obtain ⟨first, others⟩ := keepsCleanIn_cons.1 keeps
    rw [numberAllFrom]
    exact keepsCleanIn_cons.2
      ⟨keepsClean_numberFrom next first, keepsCleanIn_numberAllFrom _ others⟩

end

end Tree

/-- No state goes on with an error token. -/
def Table.StopsAtErrors (t : Table) : Prop := ∀ state next, t.action state .error ≠ .shift next

/-- No production reads an error token. -/
def Grammar.ReadsNoErrors (g : Grammar) : Prop := ∀ p ∈ g.productions.toList, .terminal .error ∉ p.rhs

theorem Grammar.ReadsNoErrors.stopsAtErrors {g : Grammar} {t : Table} (reads : g.ReadsNoErrors)
    (built : t.BuiltFrom g) : t.StopsAtErrors := by
  intro state next action
  obtain ⟨i, _, symbol⟩ := (Table.leads_of_shift built action).exists_next
  obtain ⟨production, known, member⟩ := Grammar.exists_of_mem_rhs (List.mem_of_getElem? symbol)
  exact reads production known member

/-- Old nodes with records have no error tokens. -/
def Reuse.KeepsClean (r : Reuse) : Prop := ∀ n ∈ r.nodes, n.2.KeepsClean

theorem Reuse.keepsClean_ofDocument {old : Document} {map : EditMap} (keeps : old.root.KeepsClean) :
    (ofDocument old map).KeepsClean := by
  intro n member
  have placed := (List.mem_filter.1 member).1
  exact fun u inside => keeps u (Tree.nodes_of_placedNodes placed inside)

/-- An entry without repairs has no error tokens, and those left out always count as a repair. -/
structure Entry.Clean (e : Entry) : Prop where
  clean : e.damaged = false → Tree.CleanIn e.children
  keeps : Tree.KeepsCleanIn e.children
  skipped : e.role = .skipped → e.damaged = true

namespace Config

open ShaderTree.Tree

/-- Neither entries without repairs nor the tokens set aside have error tokens. -/
structure Clean (c : Config) : Prop where
  stack : ∀ e ∈ c.stack, e.Clean
  pending : ∀ t ∈ c.pending, t.kind ≠ .error

variable {c c' : Config}

theorem clean_initial (tokens : List Token) : (initial tokens).Clean :=
  ⟨by simp [initial], by simp [initial]⟩

theorem keepsCleanIn_map_leaf (tokens : List Token) : KeepsCleanIn (tokens.map leaf) := by
  induction tokens with
  | nil => exact keepsCleanIn_nil
  | cons t ts ih => exact keepsCleanIn_cons.2 ⟨keepsClean_leaf _ _, ih⟩

theorem cleanIn_leaf {t : Token} (kind : t.kind ≠ .error) : CleanIn [leaf t] := by
  simpa [CleanIn, leavesAll, leaves, leaf] using kind

theorem ne_error_of_mem_takeWhile {tokens : List Token} {t : Token}
    (member : t ∈ tokens.takeWhile (·.kind.isTrivia)) : t.kind ≠ .error := by
  have trivia := List.mem_takeWhile_imp member
  rintro kind
  simp [kind, Kind.isTrivia] at trivia

theorem Clean.settle (clean : c.Clean) : c.settle.Clean := by
  refine ⟨clean.stack, fun t member => ?_⟩
  rcases List.mem_append.1 member with old | new
  · exact clean.pending t old
  · exact ne_error_of_mem_takeWhile new

/-- An entry goes on top of the stack. -/
theorem Clean.push (clean : c.Clean) {e : Entry} (stack : c'.stack = e :: c.stack)
    (pending : c'.pending = c.pending) (own : e.Clean) : c'.Clean :=
  ⟨stack ▸ List.forall_mem_cons.2 ⟨own, clean.stack⟩, pending ▸ clean.pending⟩

theorem Clean.flush (clean : c.Clean) : c.flush.Clean := by
  rw [flush_eq]
  refine ⟨fun e member => ?_, fun _ member => nomatch member⟩
  rcases List.mem_append.1 member with blank | old
  · obtain ⟨t, aside, rfl⟩ := List.mem_map.1 (List.mem_reverse.1 blank)
    exact ⟨fun _ => cleanIn_leaf (clean.pending t aside), keepsCleanIn_map_leaf [t], by simp⟩
  · exact clean.stack e old

end Config

namespace Setup

open Config ShaderTree.Tree

variable {s : Setup} {c c' : Config} {k : Kind}

theorem cleanIn_flatMap {entries : List Entry} (each : ∀ e ∈ entries, CleanIn e.children) :
    CleanIn (entries.flatMap Entry.trees) := by
  induction entries with
  | nil => exact cleanIn_nil
  | cons e es ih =>
    obtain ⟨first, others⟩ := List.forall_mem_cons.1 each
    refine cleanIn_append.2 ⟨?_, ih others⟩
    rw [CleanIn, leavesAll_trees]
    exact first

theorem keepsCleanIn_trees {e : Entry} (keeps : KeepsCleanIn e.children) :
    KeepsCleanIn e.trees := by
  unfold Entry.trees
  split
  · have node : (node .error {} e.children).KeepsClean :=
      keepsClean_node.2 ⟨fun recorded => absurd rfl recorded, keeps⟩
    exact keepsCleanIn_cons.2 ⟨node, keepsCleanIn_nil⟩
  · exact keeps

theorem keepsCleanIn_flatMap {entries : List Entry} (each : ∀ e ∈ entries, e.Clean) :
    KeepsCleanIn (entries.flatMap Entry.trees) := by
  induction entries with
  | nil => exact keepsCleanIn_nil
  | cons e es ih =>
    obtain ⟨first, others⟩ := List.forall_mem_cons.1 each
    exact keepsCleanIn_append.2 ⟨keepsCleanIn_trees first.keeps, ih others⟩

/-- A reduction keeps a record only of entries without repairs. -/
theorem clean_made {r : Reduction} {popped : List Entry} (each : ∀ e ∈ popped, e.Clean)
    (state offset next : Nat) (k : Kind) :
    Entry.Clean ⟨next, .symbol, popped.any (·.damaged), offset, made r popped state k⟩ := by
  have below : popped.any (·.damaged) = false → CleanIn (popped.flatMap Entry.trees) := by
    intro undamaged
    refine cleanIn_flatMap fun e member => (each e member).clean ?_
    simpa using List.any_eq_false.1 undamaged e member
  have trees := keepsCleanIn_flatMap each
  unfold made
  split
  · exact ⟨below, trees, fun is => by cases is⟩
  · refine ⟨fun undamaged => cleanIn_cons.2 ⟨below undamaged, cleanIn_nil⟩, ?_, fun is => by cases is⟩
    refine keepsCleanIn_cons.2 ⟨keepsClean_node.2 ⟨fun recorded => below ?_, trees⟩, keepsCleanIn_nil⟩
    by_contra damaged
    simp [Bool.eq_true_of_not_eq_false damaged] at recorded

theorem clean_reduce (clean : c.Clean) {p : Nat} (h : s.reduce c p k = .ok c') : c'.Clean := by
  obtain ⟨r, trailing, popped, below, next, known, trailingIs, split, _, rfl⟩ := reduce_ok h
  have whole := stack_of_reduce trailingIs split
  have inside (e : Entry) (member : e ∈ trailing ∨ e ∈ popped ∨ e ∈ below) : e.Clean := by
    refine clean.stack e ?_
    rw [whole]
    simpa using member
  refine ⟨fun e member => ?_, clean.pending⟩
  rcases List.mem_append.1 member with moved | member
  · obtain ⟨old, there, rfl⟩ := List.mem_map.1 moved
    obtain ⟨own, keeps, skipped⟩ := inside old (.inl there)
    exact ⟨own, keeps, skipped⟩
  · rcases List.mem_cons.1 member with rfl | old
    · exact clean_made (fun e member => inside e (.inr (.inl member))) _ _ _ _
    · exact inside e (.inr (.inr old))

theorem clean_shift (stops : s.table.StopsAtErrors) (clean : c.Clean) {next : Nat}
    (action : s.table.action c.top c.lookahead = .shift next) (h : Setup.shift c next = .ok c') :
    c'.Clean := by
  obtain ⟨t, rest, front, rfl⟩ := shift_ok h
  have kind : t.kind ≠ .error := by
    intro kind
    rw [lookahead, front] at action
    exact stops c.top next (kind ▸ action)
  exact clean.flush.push rfl rfl
    ⟨fun _ => cleanIn_leaf kind, keepsCleanIn_map_leaf [t], fun is => by cases is⟩

theorem clean_takeOver (clean : c.Clean) {found : Reusable} (own : found.node.Clean)
    (keeps : found.node.KeepsClean) : (Setup.takeOver c found).Clean :=
  clean.flush.push rfl rfl ⟨fun _ => cleanIn_cons.2 ⟨own, cleanIn_nil⟩,
    keepsCleanIn_cons.2 ⟨keeps, keepsCleanIn_nil⟩, fun is => by cases is⟩

theorem clean_skip (clean : c.Clean) (h : s.skip c = .ok c') : c'.Clean := by
  obtain ⟨u, rest, _, rfl⟩ := skip_ok h
  unfold pushSkipped
  split
  · rename_i state damaged offset children below _ stack
    obtain ⟨top, others⟩ := List.forall_mem_cons.1 (stack ▸ clean.stack)
    have damage : damaged = true := top.skipped rfl
    refine ⟨List.forall_mem_cons.2 ⟨⟨fun undamaged => ?_, ?_, fun _ => damage⟩, others⟩,
      fun _ member => nomatch member⟩
    · cases damage.symm.trans undamaged
    · exact keepsCleanIn_append.2
        ⟨keepsCleanIn_append.2 ⟨top.keeps, keepsCleanIn_map_leaf _⟩, keepsCleanIn_map_leaf [u]⟩
  · exact clean.flush.push rfl rfl
      ⟨(nomatch ·), keepsCleanIn_map_leaf [u], fun _ => rfl⟩

theorem clean_wrap (clean : c.Clean) (depth : Nat) (k : Kind) : (Setup.wrap c depth k).Clean := by
  refine ⟨List.forall_mem_cons.2 ⟨⟨(nomatch ·), ?_, fun _ => rfl⟩, ?_⟩,
    clean.pending⟩
  · have given : KeepsCleanIn ((Config.pop depth c.stack).1.flatMap Entry.trees) :=
      keepsCleanIn_flatMap fun e member => clean.stack e (mem_of_pop (.inl member))
    exact keepsCleanIn_cons.2
      ⟨keepsClean_node.2 ⟨fun recorded => absurd rfl recorded, given⟩, keepsCleanIn_nil⟩
  · exact fun e member => clean.stack e (mem_of_pop (.inr member))

theorem clean_insertShift (clean : c.Clean) (k : Kind) (next : Nat) :
    (endInsertion (pushMissing c k next)).Clean := by
  refine clean.push rfl rfl ⟨(nomatch ·), ?_, fun is => by cases is⟩
  have below : KeepsCleanIn [.leaf k ""] :=
    keepsCleanIn_cons.2 ⟨keepsClean_leaf _ _, keepsCleanIn_nil⟩
  exact keepsCleanIn_cons.2
    ⟨keepsClean_node.2 ⟨fun recorded => absurd rfl recorded, below⟩, keepsCleanIn_nil⟩

/-- An old node that is taken over has no error tokens. -/
theorem clean_of_fits {r : Reuse} {gotoKind : Kind → Option Nat} {top : Nat} {tokens : List Token}
    {found : Reusable} {record : Record} (old : r.KeepsClean)
    (fits : r.Fits gotoKind top tokens found record) :
    found.node.Clean ∧ found.node.KeepsClean := by
  obtain ⟨start, known⟩ := fits.known
  have keeps := old _ known
  have recorded := fits.recorded
  refine ⟨?_, keeps⟩
  cases is : found.node with
  | leaf k text => simp [is, Tree.record?, Tree.mark?] at recorded
  | node k m cs =>
    rw [is] at recorded keeps
    exact keeps _ (.head _) (by simp [recorded])

theorem Move.clean (stops : s.table.StopsAtErrors) (old : ∀ r, s.reuse = some r → r.KeepsClean)
    (clean : c.Clean) (move : Move s c c') : c'.Clean := by
  have settled := clean.settle
  cases move with
  | insertReduce _ _ reduced => exact clean_reduce clean reduced
  | insertShift => exact clean_insertShift clean _ _
  | insertStop => exact ⟨clean.stack, clean.pending⟩
  | reduce _ _ _ reduced => exact clean_reduce settled reduced
  | shift _ _ action shifted => exact clean_shift stops settled action shifted
  | takeOver _ _ _ reuse finds =>
    obtain ⟨record, fits⟩ := Reuse.find?_some finds
    obtain ⟨own, keeps⟩ := clean_of_fits (old _ reuse) fits
    exact clean_takeOver settled own keeps
  | insert => exact ⟨settled.stack, settled.pending⟩
  | wrap => exact clean_wrap settled _ _
  | skip _ _ _ _ _ skipped => exact clean_skip settled skipped

theorem moves_clean (stops : s.table.StopsAtErrors) (old : ∀ r, s.reuse = some r → r.KeepsClean)
    (clean : c.Clean) (moves : Relation.ReflTransGen (Move s) c c') : c'.Clean := by
  induction moves with
  | refl => exact clean
  | tail _ move ih => exact move.clean stops old ih

theorem keepsClean_root (clean : c.Clean) : (Setup.root c).KeepsClean := by
  refine keepsClean_node.2 ⟨fun recorded => absurd rfl recorded, keepsCleanIn_flatMap fun e member => ?_⟩
  exact clean.flush.stack e (List.mem_reverse.1 member)

end Setup

end ShaderTree
