import ShaderTree.Proofs.Table.Exploration

/-! Lookaheads of all states: which terminals can follow an item, and that the rounds over the
states find exactly these. -/
namespace ShaderTree

open Finset (range)

namespace Grammar

/-- Terminals, by column, that can follow an item in a state. -/
inductive Looks (g : Grammar) : Nat → Item → Nat → Prop
  | start : Looks g 0 g.startItem Kind.eof.index
  | first {state n c : Nat} {i j : Item} (holds : g.Holds state i)
      (next : g.next? i = some (.nonterminal n)) (start : j ∈ (Analysis.ofGrammar g).startsOf n)
      (first : (Spread.behind (.ofGrammar g) i).terminals.mem c = true) : Looks g state j c
  | inherit {state n c : Nat} {i j : Item} (looks : Looks g state i c)
      (next : g.next? i = some (.nonterminal n)) (start : j ∈ (Analysis.ofGrammar g).startsOf n)
      (nullable : (Spread.behind (.ofGrammar g) i).nullable = true) : Looks g state j c
  | pass {state target c : Nat} {i : Item} {x : Symbol} (looks : Looks g state i c)
      (next : g.next? i = some x) (leads : g.Leads state x target) : Looks g target i.advance c

theorem Looks.holds {g : Grammar} {state c : Nat} {i : Item} (looks : g.Looks state i c) :
    g.Holds state i := by
  induction looks with
  | start => exact holds_startItem g
  | first holds next start _ => exact .start holds next start
  | inherit _ next start _ ih => exact .start ih next start
  | pass _ next leads ih => exact .kernel ((leads.kernel.2 _).2 ⟨_, ih, next, rfl⟩)

end Grammar

namespace Analysis

variable {g : Grammar} {known known' : Lookaheads}

/-- The lookaheads known of one item of a kernel. -/
def setAt (known : Lookaheads) (state slot : Nat) : Option IndexSet :=
  (known[state]?.getD [])[slot]?

theorem setAt_modify (target slot state other : Nat) (f : IndexSet → IndexSet) :
    setAt (known.modify target fun sets => sets.modify slot f) state other =
      if state = target ∧ other = slot then (setAt known state other).map f
      else setAt known state other := by
  unfold setAt
  rw [Array.getElem?_modify]
  by_cases here : target = state
  · subst here
    rw [if_pos rfl]
    cases row : known[target]? with
    | none => simp
    | some sets =>
      simp only [Option.map_some, Option.getD_some, List.getElem?_modify, true_and]
      by_cases same : slot = other
      · subst same
        simp
      · simp [same, Ne.symm same]
  · rw [if_neg here, if_neg]
    exact fun both => here both.1.symm

/-- What passing an item on does: nothing, or a set grows by the item's lookaheads. -/
theorem passItem_cases (known : Lookaheads) (state : Nat) (entry : Item × IndexSet) :
    (Analysis.ofGrammar g).passItem state known entry = known ∨
      ∃ x target slot, g.next? entry.1 = some x ∧ g.Leads state x target ∧
        ((Analysis.ofGrammar g).kernelOf target)[slot]? = some entry.1.advance ∧
        (Analysis.ofGrammar g).passItem state known entry =
          known.modify target fun sets => sets.modify slot (·.union entry.2) := by
  unfold passItem
  split
  · exact .inl rfl
  · rename_i target found
    obtain ⟨x, next, leads⟩ := Option.bind_eq_some_iff.1 found
    split
    · exact .inl rfl
    · rename_i slot index
      obtain ⟨bound, is, _⟩ := List.findIdx?_eq_some_iff_getElem.1 index
      refine .inr ⟨x, target, slot, next, Grammar.target?_eq.1 leads, ?_, rfl⟩
      rw [List.getElem?_eq_getElem bound]
      exact congrArg some (of_decide_eq_true is)

/-- Where the item behind the symbol has a place, passing on reaches it. -/
theorem passItem_eq (known : Lookaheads) {state target : Nat} {entry : Item × IndexSet}
    {x : Symbol} (holds : g.Holds state entry.1) (next : g.next? entry.1 = some x)
    (leads : g.Leads state x target) :
    ∃ slot, ((Analysis.ofGrammar g).kernelOf target)[slot]? = some entry.1.advance ∧
      (Analysis.ofGrammar g).passItem state known entry =
        known.modify target fun sets => sets.modify slot (·.union entry.2) := by
  have member := (leads.kernel.2 entry.1.advance).2 ⟨entry.1, holds, next, rfl⟩
  have isTarget : ((Analysis.ofGrammar g).grammar.next? entry.1).bind
      ((Analysis.ofGrammar g).target? state) = some target := by
    rw [show (Analysis.ofGrammar g).grammar.next? entry.1 = some x from next, Option.bind_some]
    exact Grammar.target?_eq.2 leads
  unfold passItem
  rw [isTarget]
  dsimp only
  cases index : ((Analysis.ofGrammar g).kernelOf target).findIdx? (· = entry.1.advance) with
  | none =>
    have absent := List.findIdx?_eq_none_iff.1 index _ member
    simp at absent
  | some slot =>
    obtain ⟨bound, is, _⟩ := List.findIdx?_eq_some_iff_getElem.1 index
    refine ⟨slot, ?_, rfl⟩
    rw [List.getElem?_eq_getElem bound]
    exact congrArg some (of_decide_eq_true is)

/-- Sets for all items of all kernels, which hold terminals that can follow them. -/
structure Sound (g : Grammar) (known : Lookaheads) : Prop where
  size : known.size = (Automaton.ofGrammar g).states.size
  length : ∀ state, (known[state]?.getD []).length = ((Analysis.ofGrammar g).kernelOf state).length
  below : ∀ state slot set, setAt known state slot = some set → set.Below Kind.terminalCount
  looks : ∀ state slot item set c, ((Analysis.ofGrammar g).kernelOf state)[slot]? = some item →
    setAt known state slot = some set → set.mem c = true → g.Looks state item c

theorem setAt_eq_some {state slot : Nat} {item : Item} (sound : Sound g known)
    (here : ((Analysis.ofGrammar g).kernelOf state)[slot]? = some item) :
    ∃ set, setAt known state slot = some set := by
  have bound := (List.getElem?_eq_some_iff.1 here).1
  rw [← sound.length state] at bound
  exact ⟨_, List.getElem?_eq_getElem bound⟩

/-- The kernel of a state with its lookaheads. -/
def knownKernel (g : Grammar) (known : Lookaheads) (state : Nat) : List (Item × IndexSet) :=
  ((Analysis.ofGrammar g).kernelOf state).zip (known[state]?.getD [])

theorem itemsWith_eq (state : Nat) : (Analysis.ofGrammar g).itemsWith known state =
    (Analysis.ofGrammar g).closeState (knownKernel g known state) := rfl

theorem mem_knownKernel {state : Nat} {entry : Item × IndexSet} :
    entry ∈ knownKernel g known state ↔
      ∃ slot, ((Analysis.ofGrammar g).kernelOf state)[slot]? = some entry.1 ∧
        setAt known state slot = some entry.2 := by
  obtain ⟨item, set⟩ := entry
  unfold knownKernel setAt
  rw [List.mem_iff_getElem?]
  simp only [List.getElem?_zip_eq_some]

theorem items_knownKernel (sound : Sound g known) (state : Nat) :
    (knownKernel g known state).map (·.1) = (Analysis.ofGrammar g).kernelOf state := by
  unfold knownKernel
  exact List.map_fst_zip (Nat.le_of_eq (sound.length state).symm)

theorem isKnown_knownKernel (sound : Sound g known) (state : Nat) :
    IsKnown g (knownKernel g known state) := by
  refine ⟨?_, ?_⟩
  · rw [items_knownKernel sound]
    exact (g.isStateKernel_kernelOf state).toIsKernel
  · intro entry member
    obtain ⟨slot, _, there⟩ := mem_knownKernel.1 member
    exact sound.below state slot _ there

/-- The lookaheads of all items of a state can follow them. -/
theorem itemsWith_looks (sound : Sound g known) {state c : Nat} {entry : Item × IndexSet}
    (member : entry ∈ (Analysis.ofGrammar g).itemsWith known state)
    (mem : entry.2.mem c = true) : g.Looks state entry.1 c := by
  rw [itemsWith_eq] at member
  have isKernel : g.IsKernel ((knownKernel g known state).map (·.1)) :=
    (isKnown_knownKernel sound state).isKernel
  refine closeState_lookahead_sound (g.Looks state) ⟨?_, ?_⟩ isKernel ?_ member mem
  · intro i j n c inside next start first
    rw [items_knownKernel sound] at inside
    exact .first inside next start first
  · intro i j n c looks next start nullable
    exact .inherit looks next start nullable
  · intro e inKernel c mem
    obtain ⟨slot, here, there⟩ := mem_knownKernel.1 inKernel
    exact sound.looks state slot _ _ c here there mem

theorem itemsWith_below (terminals : Spread.FirstBelow g) (sound : Sound g known) {state : Nat}
    {entry : Item × IndexSet} (member : entry ∈ (Analysis.ofGrammar g).itemsWith known state) :
    entry.2.Below Kind.terminalCount := by
  rw [itemsWith_eq] at member
  exact closeState_below (isKnown_knownKernel sound state) terminals member

theorem Sound.passItem {state : Nat} {entry : Item × IndexSet} (sound : Sound g known)
    (looks : ∀ c, entry.2.mem c = true → g.Looks state entry.1 c)
    (below : entry.2.Below Kind.terminalCount) :
    Sound g ((Analysis.ofGrammar g).passItem state known entry) := by
  rcases passItem_cases known state entry with same | ⟨x, target, slot, next, leads, here, is⟩
  · rw [same]
    exact sound
  · rw [is]
    refine ⟨?_, ?_, ?_, ?_⟩
    · rw [Array.size_modify, sound.size]
    · intro st
      rw [← sound.length st, Array.getElem?_modify]
      by_cases same : target = st
      · subst same
        rw [if_pos rfl]
        cases known[target]? <;> simp
      · rw [if_neg same]
    · intro st other set there
      rw [setAt_modify] at there
      split at there
      · obtain ⟨old, was, rfl⟩ := Option.map_eq_some_iff.1 there
        exact (sound.below st other old was).union below
      · exact sound.below st other set there
    · intro st other item set c itemAt there mem
      rw [setAt_modify] at there
      split at there
      · rename_i same
        obtain ⟨rfl, rfl⟩ := same
        obtain ⟨old, was, rfl⟩ := Option.map_eq_some_iff.1 there
        rw [here, Option.some.injEq] at itemAt
        subst itemAt
        rw [IndexSet.mem_union, Bool.or_eq_true] at mem
        rcases mem with mem | mem
        · exact sound.looks st other _ old c here was mem
        · exact .pass (looks c mem) next leads
      · exact sound.looks st other item set c itemAt there mem

theorem Sound.passState (terminals : Spread.FirstBelow g) (sound : Sound g known) (state : Nat) :
    Sound g ((Analysis.ofGrammar g).passState known state) :=
  foldl_induction sound fun _ _ member next =>
    next.passItem (fun _ mem => itemsWith_looks sound member mem)
      (itemsWith_below terminals sound member)

/-- No lookaheads for any item. -/
def noLookaheads (g : Grammar) : Lookaheads :=
  (Automaton.ofGrammar g).states.map fun s => s.kernel.map fun _ => IndexSet.empty

theorem noLookaheads_getD (state : Nat) : (noLookaheads g)[state]?.getD [] =
    ((Analysis.ofGrammar g).kernelOf state).map fun _ => IndexSet.empty := by
  unfold noLookaheads kernelOf
  rw [Array.getElem?_map, show (Analysis.ofGrammar g).automaton = Automaton.ofGrammar g from rfl]
  cases (Automaton.ofGrammar g).states[state]? <;> rfl

theorem setAt_noLookaheads {state slot : Nat} {set : IndexSet}
    (there : setAt (noLookaheads g) state slot = some set) : set = .empty := by
  unfold setAt at there
  rw [noLookaheads_getD, List.getElem?_map] at there
  obtain ⟨_, _, rfl⟩ := Option.map_eq_some_iff.1 there
  rfl

theorem sound_noLookaheads (g : Grammar) : Sound g (noLookaheads g) := by
  refine ⟨by simp [noLookaheads], ?_, ?_, ?_⟩
  · intro state
    rw [noLookaheads_getD, List.length_map]
  · intro state slot set there
    rw [setAt_noLookaheads there]
    exact IndexSet.below_empty _
  · intro state slot item set c _ there mem
    rw [setAt_noLookaheads there, IndexSet.mem_empty] at mem
    cases mem

theorem initialLookaheads_eq : (Analysis.ofGrammar g).initialLookaheads =
    (noLookaheads g).modify 0 fun sets => sets.modify 0 (·.insert Kind.eof.index) := rfl

theorem sound_initialLookaheads (g : Grammar) :
    Sound g (Analysis.ofGrammar g).initialLookaheads := by
  have none := sound_noLookaheads g
  rw [initialLookaheads_eq]
  refine ⟨by rw [Array.size_modify, none.size], ?_, ?_, ?_⟩
  · intro state
    rw [← none.length state, Array.getElem?_modify]
    by_cases first : 0 = state
    · subst first
      rw [if_pos rfl]
      cases (noLookaheads g)[0]? <;> simp
    · rw [if_neg first]
  · intro state slot set there c mem
    rw [setAt_modify] at there
    split at there
    · obtain ⟨old, was, rfl⟩ := Option.map_eq_some_iff.1 there
      rw [setAt_noLookaheads was, IndexSet.mem_insert, IndexSet.mem_empty, Bool.false_or,
        decide_eq_true_eq] at mem
      rw [← mem]
      decide
    · rw [setAt_noLookaheads there, IndexSet.mem_empty] at mem
      cases mem
  · intro state slot item set c here there mem
    rw [setAt_modify] at there
    split at there
    · rename_i same
      obtain ⟨rfl, rfl⟩ := same
      obtain ⟨old, was, rfl⟩ := Option.map_eq_some_iff.1 there
      rw [setAt_noLookaheads was, IndexSet.mem_insert, IndexSet.mem_empty, Bool.false_or,
        decide_eq_true_eq] at mem
      subst mem
      have isStart : item = g.startItem := by
        cases known : (Automaton.ofGrammar g).states[0]? with
        | none => simp [kernelOf, ofGrammar, known] at here
        | some s =>
          rw [Grammar.kernelOf_eq known, Automaton.kernel_start known] at here
          simpa using here.symm
      rw [isStart]
      exact .start
    · rw [setAt_noLookaheads there, IndexSet.mem_empty] at mem
      cases mem

theorem Sound.round (terminals : Spread.FirstBelow g) (sound : Sound g known) (states : List Nat) :
    Sound g (states.foldl (Analysis.ofGrammar g).passState known) :=
  foldl_induction sound fun _ state _ next => next.passState terminals state

theorem Sound.saturate (terminals : Spread.FirstBelow g) (n : Nat) (sound : Sound g known) :
    Sound g ((Analysis.ofGrammar g).saturate n known) := by
  induction n generalizing known with
  | zero => exact sound
  | succ n ih =>
    unfold Analysis.saturate
    dsimp only
    split
    · exact sound
    · exact ih (sound.round terminals _)

theorem sound_lookaheads (terminals : Spread.FirstBelow g) :
    Sound g (Analysis.ofGrammar g).lookaheads :=
  (sound_initialLookaheads g).saturate terminals _

/-! Each round adds lookaheads until nothing changes. -/

/-- One state of knowledge goes on from another. -/
def Within (known known' : Lookaheads) : Prop :=
  ∀ state slot set, setAt known state slot = some set →
    ∃ set', setAt known' state slot = some set' ∧ set ≤ set'

theorem Within.refl (known : Lookaheads) : Within known known :=
  fun _ _ set there => ⟨set, there, IndexSet.le_refl set⟩

theorem Within.trans {known'' : Lookaheads} (first : Within known known')
    (second : Within known' known'') : Within known known'' := by
  intro state slot set there
  obtain ⟨set', there', le⟩ := first state slot set there
  obtain ⟨set'', there'', le'⟩ := second state slot set' there'
  exact ⟨set'', there'', IndexSet.le_trans le le'⟩

theorem Within.antisymm (sound : Sound g known) (sound' : Sound g known')
    (within : Within known known') (back : Within known' known) : known = known' := by
  have same : ∀ state slot, setAt known state slot = setAt known' state slot := by
    intro state slot
    cases there : setAt known state slot with
    | none =>
      cases there' : setAt known' state slot with
      | none => rfl
      | some set' =>
        obtain ⟨set, found, _⟩ := back state slot set' there'
        rw [there] at found
        cases found
    | some set =>
      obtain ⟨set', there', le⟩ := within state slot set there
      obtain ⟨again, found, le'⟩ := back state slot set' there'
      rw [there] at found
      obtain rfl := Option.some.inj found
      rw [there', IndexSet.le_antisymm le le']
  apply Array.ext
  · rw [sound.size, sound'.size]
  · intro state bound bound'
    apply List.ext_getElem?
    intro slot
    have here := same state slot
    unfold setAt at here
    rwa [Array.getElem?_eq_getElem bound, Array.getElem?_eq_getElem bound', Option.getD_some,
      Option.getD_some] at here

theorem within_passItem (state : Nat) (entry : Item × IndexSet) :
    Within known ((Analysis.ofGrammar g).passItem state known entry) := by
  rcases passItem_cases known state entry with same | ⟨x, target, slot, _, _, _, is⟩
  · rw [same]
    exact .refl known
  · intro st other set there
    rw [is, setAt_modify]
    split
    · exact ⟨_, by rw [there]; rfl, IndexSet.le_union_left _ _⟩
    · exact ⟨set, there, IndexSet.le_refl set⟩

theorem within_passState (state : Nat) :
    Within known ((Analysis.ofGrammar g).passState known state) :=
  foldl_induction (.refl known) fun _ entry _ next => next.trans (within_passItem state entry)

theorem within_round (states : List Nat) :
    Within known (states.foldl (Analysis.ofGrammar g).passState known) :=
  foldl_induction (.refl known) fun _ state _ next => next.trans (within_passState state)

theorem within_saturate (n : Nat) (known : Lookaheads) :
    Within known ((Analysis.ofGrammar g).saturate n known) := by
  induction n generalizing known with
  | zero => exact .refl known
  | succ n ih =>
    unfold Analysis.saturate
    dsimp only
    split
    · exact .refl known
    · exact (within_round _).trans (ih _)

def countAt (known : Lookaheads) (state slot : Nat) : Nat :=
  ((setAt known state slot).map (·.count Kind.terminalCount)).getD 0

/-- How many lookaheads are known. -/
def total (g : Grammar) (known : Lookaheads) : Nat :=
  ∑ state ∈ range (Automaton.ofGrammar g).states.size,
    ∑ slot ∈ range ((Analysis.ofGrammar g).kernelOf state).length, countAt known state slot

theorem Within.countAt_le (within : Within known known') (state slot : Nat) :
    countAt known state slot ≤ countAt known' state slot := by
  unfold countAt
  cases there : setAt known state slot with
  | none => exact Nat.zero_le _
  | some set =>
    obtain ⟨set', there', le⟩ := within state slot set there
    rw [there']
    exact IndexSet.count_mono le _

theorem Sound.bounds (sound : Sound g known) {state slot : Nat} {set : IndexSet}
    (there : setAt known state slot = some set) :
    state < (Automaton.ofGrammar g).states.size ∧
      slot < ((Analysis.ofGrammar g).kernelOf state).length := by
  have slotBound := (List.getElem?_eq_some_iff.1 there).1
  rw [sound.length state] at slotBound
  refine ⟨?_, slotBound⟩
  by_contra outside
  unfold kernelOf at slotBound
  rw [show (Analysis.ofGrammar g).automaton = Automaton.ofGrammar g from rfl,
    Array.getElem?_eq_none (Nat.not_lt.1 outside)] at slotBound
  exact Nat.not_lt_zero _ slotBound

theorem total_lt (sound : Sound g known) (sound' : Sound g known') (within : Within known known')
    (other : known ≠ known') : total g known < total g known' := by
  have each := fun state slot => within.countAt_le state slot
  have row : ∀ state ∈ range (Automaton.ofGrammar g).states.size,
      ∑ slot ∈ range ((Analysis.ofGrammar g).kernelOf state).length, countAt known state slot ≤
        ∑ slot ∈ range ((Analysis.ofGrammar g).kernelOf state).length, countAt known' state slot :=
    fun state _ => Finset.sum_le_sum fun slot _ => each state slot
  refine Nat.lt_of_le_of_ne (Finset.sum_le_sum row) ?_
  intro same
  apply other
  refine within.antisymm sound sound' ?_
  intro state slot set' there'
  obtain ⟨stateBound, slotBound⟩ := sound'.bounds there'
  obtain ⟨set, there⟩ := setAt_eq_some sound (List.getElem?_eq_getElem slotBound)
  obtain ⟨again, found, le⟩ := within state slot set there
  rw [there'] at found
  obtain rfl := Option.some.inj found
  have rows := (Finset.sum_eq_sum_iff_of_le row).1 same state (Finset.mem_range.2 stateBound)
  have counts := (Finset.sum_eq_sum_iff_of_le fun slot _ => each state slot).1 rows slot
    (Finset.mem_range.2 slotBound)
  simp only [countAt, there, there', Option.map_some, Option.getD_some] at counts
  have equal : set = set' := by
    by_contra differs
    have less := IndexSet.count_lt le differs (sound'.below state slot set' there')
    omega
  exact ⟨set, there, equal ▸ IndexSet.le_refl set⟩

/-- How many items the kernels have. -/
def kernelItems (g : Grammar) : Nat :=
  (Automaton.ofGrammar g).states.foldl (fun n s => n + s.kernel.length) 0

theorem total_le (g : Grammar) (known : Lookaheads) :
    total g known ≤ kernelItems g * Kind.terminalCount := by
  have slots (state slot : Nat) : countAt known state slot ≤ Kind.terminalCount := by
    unfold countAt
    cases setAt known state slot with
    | none => exact Nat.zero_le _
    | some set => exact IndexSet.count_le _ _
  have sum (ss : List AutomatonState) (n : Nat) :
      ss.foldl (fun n s => n + s.kernel.length) n = n + (ss.map (·.kernel.length)).sum := by
    induction ss generalizing n with
    | nil => rfl
    | cons s ss ih =>
      rw [List.foldl_cons, ih, List.map_cons, List.sum_cons]
      omega
  have rows : (List.range (Automaton.ofGrammar g).states.size).map
      (fun state => ((Analysis.ofGrammar g).kernelOf state).length) =
      (Automaton.ofGrammar g).states.toList.map (·.kernel.length) := by
    apply List.ext_getElem
    · simp
    · intro state bound _
      rw [List.length_map, List.length_range] at bound
      simp only [List.getElem_map, List.getElem_range]
      rw [Grammar.kernelOf_eq (Array.getElem?_eq_getElem bound), Array.getElem_toList]
  have items : kernelItems g = ∑ state ∈ range (Automaton.ofGrammar g).states.size,
      ((Analysis.ofGrammar g).kernelOf state).length := by
    unfold kernelItems
    rw [← Array.foldl_toList, sum, ← rows, Nat.zero_add]
    rfl
  rw [items, Finset.sum_mul]
  apply Finset.sum_le_sum
  intro state _
  refine Nat.le_trans (Finset.sum_le_sum fun slot _ => slots state slot) ?_
  simp

/-- The rounds end where one more changes nothing. -/
theorem saturate_fixed (terminals : Spread.FirstBelow g) (n : Nat) (sound : Sound g known)
    (enough : kernelItems g * Kind.terminalCount < n + total g known) :
    (List.range (Automaton.ofGrammar g).states.size).foldl (Analysis.ofGrammar g).passState
        ((Analysis.ofGrammar g).saturate n known) = (Analysis.ofGrammar g).saturate n known := by
  induction n generalizing known with
  | zero =>
    have most := total_le g known
    omega
  | succ n ih =>
    unfold Analysis.saturate
    dsimp only
    split
    · rename_i same
      exact same
    · rename_i changed
      have sound' := sound.round terminals (List.range (Automaton.ofGrammar g).states.size)
      have more := total_lt sound sound' (within_round _) fun same => changed same.symm
      refine ih sound' ?_
      change _ < n + total g ((List.range (Automaton.ofGrammar g).states.size).foldl _ known)
      omega

theorem lookaheads_fixed (terminals : Spread.FirstBelow g) :
    (List.range (Automaton.ofGrammar g).states.size).foldl (Analysis.ofGrammar g).passState
      (Analysis.ofGrammar g).lookaheads = (Analysis.ofGrammar g).lookaheads := by
  refine saturate_fixed terminals _ (sound_initialLookaheads g) ?_
  unfold kernelItems
  exact Nat.lt_of_lt_of_le (Nat.lt_succ_self _) (Nat.le_add_right _ _)

/-- Passing on an item of any state changes nothing any more. -/
theorem passItem_lookaheads (terminals : Spread.FirstBelow g) {state : Nat}
    (bound : state < (Automaton.ofGrammar g).states.size) {entry : Item × IndexSet}
    (member : entry ∈ (Analysis.ofGrammar g).itemsWith (Analysis.ofGrammar g).lookaheads state) :
    (Analysis.ofGrammar g).passItem state (Analysis.ofGrammar g).lookaheads entry =
      (Analysis.ofGrammar g).lookaheads := by
  have sound := sound_lookaheads terminals
  have state_fixed := foldl_fixed Within.refl Within.trans Within.antisymm
    (fun _ state => within_passState state) sound
    (fun _ state _ next => next.passState terminals state) (lookaheads_fixed terminals) state
    (List.mem_range.2 bound)
  refine foldl_fixed Within.refl Within.trans Within.antisymm
    (fun _ entry => within_passItem state entry) sound ?_ state_fixed entry member
  intro known entry inside next
  exact next.passItem (fun c mem => itemsWith_looks sound inside mem)
    (itemsWith_below terminals sound inside)

/-- All items of a state are listed with lookaheads. -/
theorem exists_itemsWith (terminals : Spread.FirstBelow g) (sound : Sound g known) {state : Nat}
    {i : Item} (holds : g.Holds state i) :
    ∃ set, (i, set) ∈ (Analysis.ofGrammar g).itemsWith known state := by
  have isKnown := isKnown_knownKernel sound state
  unfold Grammar.Holds at holds
  rw [itemsWith_eq]
  induction holds with
  | kernel member =>
    obtain ⟨slot, here⟩ := List.mem_iff_getElem?.1 member
    obtain ⟨set, there⟩ := setAt_eq_some sound here
    exact ⟨set, List.mem_append_left _ (mem_knownKernel.2 ⟨slot, here, there⟩)⟩
  | start before next member ih =>
    obtain ⟨set, inside⟩ := ih
    obtain ⟨set', start, _⟩ := closeState_complete isKnown terminals inside next member
    exact ⟨set', start⟩

/-- The first state is that of the start item. -/
theorem kernelOf_zero (g : Grammar) : (Analysis.ofGrammar g).kernelOf 0 = [g.startItem] := by
  obtain ⟨kernels, explored, _, size⟩ :=
    Automaton.found_ofGrammar (Automaton.inductive_isStateKernel g)
  have bound := (Array.getElem?_eq_some_iff.1 explored.start).1
  rw [size] at bound
  have known := Array.getElem?_eq_getElem bound
  rw [Grammar.kernelOf_eq known, Automaton.kernel_start known]

theorem holds_of_looks {state c : Nat} {i : Item} (looks : g.Looks state i c) :
    g.Holds state i := by
  induction looks with
  | start => exact .kernel (by simp [kernelOf_zero])
  | first holds next start => exact .start holds next start
  | inherit looks next start nullable ih => exact .start ih next start
  | pass looks next leads ih => exact .kernel ((leads.kernel.2 _).2 ⟨_, ih, next, rfl⟩)

/-- The end of input is known to follow the start rule. -/
theorem eof_lookaheads (g : Grammar) : ∃ set,
    setAt (Analysis.ofGrammar g).lookaheads 0 0 = some set ∧ set.mem Kind.eof.index = true := by
  have item : ((Analysis.ofGrammar g).kernelOf 0)[0]? = some g.startItem := by simp [kernelOf_zero]
  obtain ⟨none, there⟩ := setAt_eq_some (sound_noLookaheads g) item
  have first : setAt (Analysis.ofGrammar g).initialLookaheads 0 0 =
      some (none.insert Kind.eof.index) := by
    rw [initialLookaheads_eq, setAt_modify, if_pos ⟨rfl, rfl⟩, there, Option.map_some]
  obtain ⟨set, found, le⟩ := within_saturate _ _ 0 0 _ first
  exact ⟨set, found, le _ (by simp)⟩

/-- Every terminal that can follow an item is among its lookaheads. -/
theorem exists_of_looks (terminals : Spread.FirstBelow g) {state c : Nat} {i : Item}
    (looks : g.Looks state i c) : ∃ set,
      (i, set) ∈ (Analysis.ofGrammar g).itemsWith (Analysis.ofGrammar g).lookaheads state ∧
        set.mem c = true := by
  have sound := sound_lookaheads terminals
  induction looks with
  | start =>
    obtain ⟨set, there, mem⟩ := eof_lookaheads g
    refine ⟨set, List.mem_append_left _ (mem_knownKernel.2 ⟨0, ?_, there⟩), mem⟩
    simp [kernelOf_zero]
  | @first state n c i j holds next start first =>
    obtain ⟨set, inside⟩ := exists_itemsWith terminals sound holds
    obtain ⟨set', there, le, _⟩ :=
      closeState_complete (isKnown_knownKernel sound state) terminals inside next start
    exact ⟨set', there, le c first⟩
  | @inherit state n c i j looks next start nullable ih =>
    obtain ⟨set, inside, mem⟩ := ih
    obtain ⟨set', there, _, le⟩ :=
      closeState_complete (isKnown_knownKernel sound state) terminals inside next start
    exact ⟨set', there, le nullable c mem⟩
  | @pass state target c i x looks next leads ih =>
    obtain ⟨set, inside, mem⟩ := ih
    have bound : state < (Automaton.ofGrammar g).states.size := by
      obtain ⟨s, found, _⟩ := leads
      exact (Array.getElem?_eq_some_iff.1 found).1
    have fixed := passItem_lookaheads terminals bound inside
    have holds : g.Holds state (i, set).1 := holds_of_looks looks
    obtain ⟨slot, here, is⟩ := passItem_eq (Analysis.ofGrammar g).lookaheads holds next leads
    obtain ⟨old, there⟩ := setAt_eq_some sound here
    refine ⟨old, List.mem_append_left _ (mem_knownKernel.2 ⟨slot, here, there⟩), ?_⟩
    have again := there
    rw [← fixed, is, setAt_modify, if_pos ⟨rfl, rfl⟩, there, Option.map_some, Option.some.injEq]
      at again
    exact IndexSet.union_eq_self.1 again c mem

end Analysis

end ShaderTree
