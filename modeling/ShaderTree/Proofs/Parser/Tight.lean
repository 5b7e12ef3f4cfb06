import ShaderTree.Proofs.Metal.Acceptance
import ShaderTree.Proofs.Parser.Unspaced

/-! If nothing but the start symbol vanishes, no symbol on the stack shows a single token with blanks
around it: a token that is a symbol by itself stands alone in its entry. -/
namespace ShaderTree

open ShaderTree.Tree (gist outline outlines)

namespace Grammar

variable {g : Grammar}

/-- What expands to nothing is the start symbol. -/
theorem OnlyStartVanishes.eq_start_of_expands (only : g.OnlyStartVanishes) {xs : List Symbol}
    (expands : g.Expands xs []) : ∀ x ∈ xs, x = .nonterminal g.start := by
  generalize none : ([] : List Kind) = ks at expands
  induction expands with
  | nil => simp
  | terminal => cases none
  | visible => cases none
  | @hidden i n p xs ks ls known node production lhs own rest ihOwn ih =>
    obtain ⟨rfl, rfl⟩ := List.append_eq_nil_iff.1 none.symm
    have member : p ∈ g.productions.toList := Array.mem_toList_iff.2 production
    have empty : p.rhs = [] := by
      rw [List.eq_nil_iff_forall_not_mem]
      intro x inside
      obtain rfl := ihOwn rfl x inside
      exact only.outside p member inside
    intro x inside
    rcases List.mem_cons.1 inside with rfl | later
    · rw [← lhs, only.empty p member empty]
    · exact ih rfl x later

end Grammar

namespace Tree

/-- Outlines show nothing of blanks and marks. -/
theorem outlines_eq_nil {ts : List Tree} (none : gist ts = []) : outlines ts = [] := by
  induction ts with
  | nil => rfl
  | cons t ts ih =>
    cases t with
    | leaf k text =>
      cases blank : k.isTrivia with
      | true =>
        rw [gist_blank blank] at none
        rw [outlines_cons, ih none, outline, blank]
        rfl
      | false =>
        rw [gist_leaf blank] at none
        cases none
    | node k m cs =>
      rw [gist_node] at none
      cases none

end Tree

/-- A token that the entry shows, and nothing else, is all that it has. -/
def Entry.Tight (e : Entry) : Prop :=
  ∀ k text, gist e.children = [.leaf k text] → e.children = [.leaf k text]

namespace Viable

open Config

variable {g : Grammar} {stack : List Entry} {path : List Symbol}

/-- The symbols taken off a stack are those of the path, and each shows what it expands to. -/
theorem popped (viable : Viable g stack path) (n : Nat) (enough : n ≤ path.length) :
    ((Config.pop n stack).1.filter Entry.isSymbol).length = n ∧
      ∀ e ∈ (Config.pop n stack).1, e.isSymbol = true →
        ∃ x ∈ path.take n, g.Expands [x] (outlines e.trees) := by
  induction viable generalizing n with
  | nil =>
    obtain rfl := Nat.le_zero.1 enough
    exact ⟨rfl, by simp [Config.pop]⟩
  | @extra e below path rest role same blank ih =>
    cases n with
    | zero => exact ⟨rfl, by simp [Config.pop]⟩
    | succ n =>
      obtain ⟨count, each⟩ := ih (n + 1) enough
      simp only [Config.pop, role, Bool.false_eq_true, if_false]
      refine ⟨?_, fun f member symbol => ?_⟩
      · rw [List.filter_append, List.filter_cons_of_neg (by simp [role]), List.filter_nil,
          List.append_nil, count]
      · rcases List.mem_append.1 member with inner | own
        · exact each f inner symbol
        · obtain rfl := List.mem_singleton.1 own
          cases role.symm.trans symbol
  | @symbol e below path x rest role leads expands ih =>
    cases n with
    | zero => exact ⟨rfl, by simp [Config.pop]⟩
    | succ n =>
      obtain ⟨count, each⟩ := ih n (Nat.le_of_succ_le_succ enough)
      simp only [Config.pop, role, if_true, List.take_succ_cons]
      refine ⟨?_, fun f member symbol => ?_⟩
      · rw [List.filter_append, List.filter_cons_of_pos role, List.filter_nil, List.length_append,
          count]
        rfl
      · rcases List.mem_append.1 member with inner | own
        · obtain ⟨y, inside, shows⟩ := each f inner symbol
          exact ⟨y, .tail _ inside, shows⟩
        · obtain rfl := List.mem_singleton.1 own
          exact ⟨x, .head _, expands⟩

end Viable

/-- Symbols that show something show at least as many trees. -/
theorem length_gist_of_symbols {entries : List Entry}
    (some : ∀ e ∈ entries, e.isSymbol = true → gist e.trees ≠ []) :
    (entries.filter Entry.isSymbol).length ≤ (gist (entries.flatMap Entry.trees)).length := by
  induction entries with
  | nil => exact Nat.zero_le _
  | cons e es ih =>
    obtain ⟨own, others⟩ := List.forall_mem_cons.1 some
    have rest := ih others
    rw [List.flatMap_cons, Tree.gist_append, List.length_append]
    cases symbol : e.isSymbol with
    | true =>
      have one := List.length_pos_iff.2 (own symbol)
      rw [List.filter_cons_of_pos symbol, List.length_cons]
      omega
    | false =>
      rw [List.filter_cons_of_neg (by simp [symbol])]
      omega

/-- The symbols of a stack stand alone in their entries if they show a single token. -/
def Config.Tight (c : Config) : Prop := ∀ e ∈ c.stack, e.isSymbol = true → e.Tight

namespace Config

variable {c c' : Config}

theorem Tight.push (tight : c.Tight) {e : Entry} (own : e.isSymbol = true → e.Tight)
    (stack : c'.stack = e :: c.stack) : c'.Tight := by
  rw [Config.Tight, stack]
  exact List.forall_mem_cons.2 ⟨own, tight⟩

theorem Tight.flush (tight : c.Tight) : c.flush.Tight := by
  intro e member symbol
  rw [flush_eq] at member
  rcases List.mem_append.1 member with blank | old
  · obtain ⟨t, _, rfl⟩ := List.mem_map.1 (List.mem_reverse.1 blank)
    cases symbol
  · exact tight e old symbol

end Config

namespace Setup

open Config

variable {g : Grammar} {s : Setup} {c c' : Config}

theorem trees_of_symbol {e : Entry} (symbol : e.isSymbol = true) : e.trees = e.children := by
  have role : e.role = .symbol := of_decide_eq_true symbol
  simp [Entry.trees, role]

/-- At most one symbol is taken off alone. -/
theorem pop_one {n : Nat} {stack popped below : List Entry} (few : n ≤ 1)
    (split : Config.pop n (stack.dropWhile (!·.isSymbol)) = (popped, below)) :
    popped = [] ∨ ∃ e ∈ stack, e.isSymbol = true ∧ popped = [e] := by
  cases front : stack.dropWhile (!·.isSymbol) with
  | nil =>
    rw [front] at split
    cases n <;> cases split <;> exact .inl rfl
  | cons e rest =>
    have symbol : e.isSymbol = true := by
      have first := List.head?_dropWhile_not (!·.isSymbol) stack
      rw [front] at first
      simpa using first
    have member : e ∈ stack := (List.dropWhile_suffix (!·.isSymbol)).subset (by simp [front])
    rw [front] at split
    rcases Nat.le_one_iff_eq_zero_or_eq_one.1 few with rfl | rfl
    · cases split
      exact .inl rfl
    · rw [Config.pop, if_pos symbol] at split
      have none : Config.pop 0 rest = ([], rest) := by cases rest <;> rfl
      rw [none] at split
      cases split
      exact .inr ⟨e, member, symbol, rfl⟩

/-- Symbols in front of a reduction show something. -/
theorem length_le_gist {t : Table} (only : g.OnlyStartVanishes) (built : t.BuiltFrom g)
    (conforms : c.Conforms g) {p : Nat} {k : Kind} {r : Reduction}
    (action : t.action c.top k = .reduce p) (known : t.reductions[p]? = some r)
    {popped below : List Entry}
    (split : Config.pop r.length (c.stack.dropWhile (!·.isSymbol)) = (popped, below)) :
    (popped.filter Entry.isSymbol).length = r.length ∧
      r.length ≤ (gist (popped.flatMap Entry.trees)).length := by
  obtain ⟨⟨path, viable⟩, _, _⟩ := conforms
  obtain ⟨production, found, _, length, rhs, _⟩ := Table.reduction_eq built known
  obtain ⟨d, holds, complete, _⟩ := Table.holds_of_reduce built action
  obtain ⟨is, read, _⟩ := viable.reaches.read_complete holds complete
  have enough : r.length ≤ path.length := by
    rw [length, ← rhs, ← read, List.length_reverse]
    exact List.length_take_le' _ _
  obtain ⟨count, each⟩ := viable.dropWhile.1.popped r.length enough
  rw [split] at count each
  have inside : production ∈ g.productions.toList :=
    Array.mem_toList_iff.2 (Array.mem_of_getElem? found)
  refine ⟨count, count ▸ length_gist_of_symbols fun e member symbol none => ?_⟩
  obtain ⟨x, among, expands⟩ := each e member symbol
  rw [Tree.outlines_eq_nil none] at expands
  obtain rfl := only.eq_start_of_expands expands x (.head _)
  rw [length, ← rhs, is, ← List.mem_reverse, read, rhs] at among
  exact only.outside production inside among

theorem tight_reduce {t : Table} (only : g.OnlyStartVanishes) (built : t.BuiltFrom g)
    (table : s.table = t) (conforms : c.Conforms g) (tight : c.Tight) {p : Nat} {k : Kind}
    (action : t.action c.top k = .reduce p) (h : s.reduce c p k = .ok c') : c'.Tight := by
  obtain ⟨r, trailing, popped, below, next, known, trailingIs, split, _, rfl⟩ := reduce_ok h
  rw [table] at known
  obtain ⟨count, most⟩ := length_le_gist only built conforms action known split
  have inside (e : Entry) (member : e ∈ popped ∨ e ∈ below) : e ∈ c.stack := by
    apply (List.dropWhile_suffix (!·.isSymbol)).subset
    apply mem_of_pop (n := r.length)
    rw [split]
    exact member
  have own : Entry.Tight ⟨next, .symbol, popped.any (·.damaged), startOf c popped trailing,
      made r popped (topState below) k⟩ := by
    intro l text shows
    dsimp only [made] at shows ⊢
    split at shows
    · rw [shows] at most
      rcases pop_one most split with none | ⟨e, member, symbol, only⟩
      · rw [none, List.flatMap_nil, Tree.gist_nil] at shows
        cases shows
      · rw [only, List.flatMap_singleton, trees_of_symbol symbol] at shows ⊢
        exact tight e member symbol l text shows
    · rw [Tree.gist_node] at shows
      cases shows
  intro e member symbol
  rcases List.mem_append.1 member with moved | member
  · obtain ⟨old, there, rfl⟩ := List.mem_map.1 moved
    have extra := List.mem_takeWhile_imp (trailingIs ▸ there)
    have same : old.isSymbol = true := symbol
    simp [same] at extra
  · rcases List.mem_cons.1 member with rfl | old
    · exact own
    · exact tight e (inside e (.inr old)) symbol

theorem tight_skip (tight : c.Tight) (h : s.skip c = .ok c') : c'.Tight := by
  obtain ⟨u, rest, _, rfl⟩ := skip_ok h
  unfold pushSkipped
  split
  · rename_i state damaged offset children below _ stack
    intro e member symbol
    rcases List.mem_cons.1 member with rfl | old
    · cases symbol
    · exact tight e (by simp [stack, old]) symbol
  · exact tight.flush.push (by simp [Entry.isSymbol]) rfl

theorem Move.tight {t : Table} (only : g.OnlyStartVanishes) (built : t.BuiltFrom g)
    (table : s.table = t) (conforms : c.Conforms g) (tight : c.Tight) (move : Move s c c') :
    c'.Tight := by
  have settled : c.settle.Tight := tight
  cases move with
  | insertReduce _ action reduced =>
    exact tight_reduce only built table conforms tight (table ▸ action) reduced
  | insertShift =>
    refine tight.push (fun _ k text shows => ?_) rfl
    rw [Tree.gist_node] at shows
    cases shows
  | insertStop => exact tight
  | reduce _ _ action reduced =>
    exact tight_reduce only built table conforms.settle settled (table ▸ action) reduced
  | shift _ _ _ shifted =>
    obtain ⟨u, rest, _, rfl⟩ := shift_ok shifted
    refine settled.flush.push (fun _ k text shows => ?_) rfl
    cases blank : u.kind.isTrivia with
    | true =>
      rw [show [leaf u] = [.leaf u.kind u.text] from rfl, Tree.gist_blank blank, Tree.gist_nil] at shows
      cases shows
    | false =>
      rw [show [leaf u] = [.leaf u.kind u.text] from rfl, Tree.gist_leaf blank, Tree.gist_nil] at shows
      exact shows
  | @takeOver _ _ found _ _ _ _ finds =>
    obtain ⟨record, fits⟩ := Reuse.find?_some finds
    refine settled.flush.push (fun _ k text shows => ?_) rfl
    cases shape : found.node with
    | leaf l own =>
      have recorded := fits.recorded
      rw [shape] at recorded
      cases recorded
    | node l m cs =>
      rw [shape, Tree.gist_node] at shows
      cases shows
  | insert => exact settled
  | wrap =>
    intro e member symbol
    rcases List.mem_cons.1 member with rfl | old
    · cases symbol
    · exact settled e (mem_of_pop (.inr old)) symbol
  | skip _ _ _ _ _ skipped => exact tight_skip settled skipped

end Setup

end ShaderTree
