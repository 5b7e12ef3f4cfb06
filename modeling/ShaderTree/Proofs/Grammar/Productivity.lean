import ShaderTree.Proofs.Grammar.First
import ShaderTree.Proofs.Grammar.Validity

/-! Every nonterminal of a valid grammar derives some word: a round over the productions marks only
nonterminals with a right-hand side of terminals and of what was marked before. -/
namespace ShaderTree.Grammar

open Relation (ReflTransGen)

variable {g : Grammar} {xs ys : List Symbol}

/-- A terminal, or a nonterminal of the grammar. -/
def declares (g : Grammar) : Symbol → Bool
  | .terminal _ => true
  | .nonterminal n => n < g.nonterminals.size

/-- All nonterminals that a grammar mentions are its own. -/
structure Declared (g : Grammar) : Prop where
  start : g.start < g.nonterminals.size
  lhs : ∀ p ∈ g.productions.toList, p.lhs < g.nonterminals.size
  rhs : ∀ p ∈ g.productions.toList, ∀ x ∈ p.rhs, g.declares x = true

theorem Declared.isRule (declared : g.Declared) {p : Nat} {production : Production}
    (known : g.productions[p]? = some production) : g.IsRule p production :=
  ⟨known, declared.lhs _ (Array.mem_toList_iff.2 (Array.mem_of_getElem? known))⟩

/-! Derivations inside of others -/

theorem Produces.within (step : g.Produces xs ys) (front back : List Symbol) :
    g.Produces (front ++ xs ++ back) (front ++ ys ++ back) := by
  cases step with
  | replace rule before behind =>
    have inside := Produces.replace rule (front ++ before) (behind ++ back)
    simpa only [List.append_assoc, List.cons_append] using inside

theorem derives_within (derives : ReflTransGen g.Produces xs ys) (front back : List Symbol) :
    ReflTransGen g.Produces (front ++ xs ++ back) (front ++ ys ++ back) := by
  induction derives with
  | refl => exact .refl
  | tail _ step ih => exact ih.tail (step.within front back)

/-- What has a tree can be derived. -/
theorem Parses.derives {w : List Kind} {ps : List Nat} (parses : g.Parses xs w ps) :
    ReflTransGen g.Produces xs (terminalWord w) := by
  induction parses with
  | nil => exact .refl
  | terminal k rest ih =>
    simpa using derives_within ih [.terminal k] []
  | @nonterminal p production xs v w ps qs rule own rest ihOwn ihRest =>
    have first : ReflTransGen g.Produces (.nonterminal production.lhs :: xs) (production.rhs ++ xs) :=
      .single (.replace rule [] xs)
    have second := derives_within ihOwn [] xs
    have third := derives_within ihRest (terminalWord v) []
    rw [List.nil_append, List.nil_append] at second
    rw [List.append_nil, List.append_nil] at third
    rw [terminalWord_append]
    exact (first.trans second).trans third

/-! The rounds -/

/-- A symbol derives some word. -/
def Yields (g : Grammar) (x : Symbol) : Prop := ∃ w ps, g.Parses [x] w ps

theorem yields_terminal (k : Kind) : g.Yields (.terminal k) := ⟨[k], [], .terminal k .nil⟩

theorem exists_parses_of_yields (each : ∀ x ∈ xs, g.Yields x) : ∃ w ps, g.Parses xs w ps := by
  induction xs with
  | nil => exact ⟨[], [], .nil⟩
  | cons x xs ih =>
    obtain ⟨v, ps, first⟩ := each x (.head _)
    obtain ⟨w, qs, rest⟩ := ih fun y inside => each y (.tail _ inside)
    exact ⟨v ++ w, ps ++ qs, first.append rest⟩

theorem yields_of_rule {p : Nat} {production : Production} (rule : g.IsRule p production)
    (each : ∀ x ∈ production.rhs, g.Yields x) : g.Yields (.nonterminal production.lhs) := by
  obtain ⟨w, ps, parses⟩ := exists_parses_of_yields each
  exact ⟨_, _, .nonterminal rule parses .nil⟩

/-- The members of a set of nonterminals derive words. -/
def AllYield (g : Grammar) (s : IndexSet) : Prop := ∀ n, s.mem n = true → g.Yields (.nonterminal n)

theorem AllYield.produceMore (declared : g.Declared) {s : IndexSet} (known : g.AllYield s) :
    g.AllYield (g.produceMore s) := by
  unfold Grammar.produceMore
  rw [← Array.foldl_toList]
  refine foldl_induction (P := g.AllYield) known fun s p inside known => ?_
  dsimp only
  split
  · rename_i whole
    obtain ⟨index, bound, is⟩ := List.mem_iff_getElem.1 inside
    have found : g.productions[index]? = some p := by
      rw [← Array.getElem?_toList]
      exact List.getElem?_eq_some_iff.2 ⟨bound, is⟩
    intro n member
    rw [IndexSet.mem_insert, Bool.or_eq_true, decide_eq_true_eq] at member
    rcases member with old | rfl
    · exact known n old
    · refine yields_of_rule (declared.isRule found) fun x here => ?_
      have marked := List.all_eq_true.1 whole x here
      cases x with
      | terminal k => exact yields_terminal k
      | nonterminal m => exact known m marked
  · exact known

theorem AllYield.rounds (declared : g.Declared) (n : Nat) {s : IndexSet} (known : g.AllYield s) :
    g.AllYield (rounds g.produceMore n s) := by
  induction n generalizing s with
  | zero => exact known
  | succ n ih => exact ih (known.produceMore declared)

theorem productive_of_validate (valid : g.validate = .ok ()) {n : Nat}
    (inside : n < g.nonterminals.size) : g.productive.mem n = true := by
  have none : g.firstWithout? g.productive.mem = none := by
    cases without : g.firstWithout? g.productive.mem with
    | none => rfl
    | some name =>
      unfold validate at valid
      simp only [without, throw, throwThe, MonadExceptOf.throw, bind, Except.bind] at valid
      grind
  unfold firstWithout? at none
  rw [Option.map_eq_none_iff, List.find?_eq_none] at none
  simpa using none n (List.mem_range.2 inside)

/-- In a valid grammar every symbol derives a word. -/
theorem yields_of_validate (valid : g.validate = .ok ()) (declared : g.Declared) {x : Symbol}
    (own : g.declares x = true) : g.Yields x := by
  cases x with
  | terminal k => exact yields_terminal k
  | nonterminal n =>
    have member := productive_of_validate valid (of_decide_eq_true own)
    exact AllYield.rounds declared g.nonterminals.size (fun m none => by simp at none) n member

end ShaderTree.Grammar
