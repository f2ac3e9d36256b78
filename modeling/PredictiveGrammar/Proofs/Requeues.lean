import Mathlib.Data.List.ProdSigma
import Mathlib.Data.Nat.Find
import Mathlib.Logic.Function.Iterate
import PredictiveGrammar.Proofs.BuiltGrammars
import PredictiveGrammar.Proofs.FollowExact
import PredictiveGrammar.Proofs.NamedTables

/-!
# What goes back into the worklist

The heads of the loop that handles a worklist are what single steps lead to (`Worklist.after`). A step takes the first
source out and puts others in at the end (`Worklist.requeued`). Each of those has got a member that it did not have, so
it can be charged to that pair of a source and a member, and since sets only grow no pair is charged twice, by one step
or by different ones (`Worklist.Charged`). That bounds what goes back into the worklist of FOLLOW
(`Grammar.FollowHead`), where members are terminals, and says after how many steps it is empty
(`Grammar.Built.follow_requeues`).
-/

namespace PredictiveGrammar

namespace Worklist

/-- The worklist after some steps. -/
def after (sets edges : SetFamily) (steps : Nat) : Worklist := (step edges)^[steps] (.initial sets)

/-- What a step puts into the queue: all that stands there behind what it has left. -/
def requeued (edges : SetFamily) (state : Worklist) : List Nat :=
  (state.step edges).queue.drop state.queue.tail.length

/-- What some steps put into the queue, in order. -/
def requeues (sets edges : SetFamily) (steps : Nat) : List Nat :=
  (List.range steps).flatMap fun before => requeued edges (after sets edges before)

/-- What was put into the queue, each with a member to charge it to. -/
structure Charged (sets edges : SetFamily) (steps : Nat) (charges : List (Nat × Nat)) : Prop where
  /-- everything is charged -/
  sources : charges.map (·.1) = requeues sets edges steps
  /-- the member was not in the set to begin with -/
  missing : ∀ charge ∈ charges, charge.2 ∉ sets.getD charge.1
  /-- it is there now -/
  there : ∀ charge ∈ charges, charge.2 ∈ (after sets edges steps).sets.getD charge.1
  /-- nothing is charged twice to the same member of the same set -/
  distinct : charges.Nodup

variable {sets edges : SetFamily} {state : Worklist} {charges : List (Nat × Nat)} {steps : Nat}

/-! ## One step -/

/-- No set loses a member when another one flows into it. -/
theorem getD_subset_foldl_flow (addition : SymbolSet) (due : List Nat) (state : Worklist) (k : Nat) :
    state.sets.getD k ⊆ (due.foldl (flow addition) state).sets.getD k := by
  induction due generalizing state with
  | nil => exact SymbolSet.Subset.refl _
  | cons target due ih =>
    exact SymbolSet.Subset.trans (getD_subset_flow addition state target k) (ih (state.flow addition target))

/-- What is put into the queue has a member that it did not have. -/
theorem exists_charges_foldl (addition : SymbolSet) (due : List Nat) (state : Worklist) :
    ∃ charges : List (Nat × Nat),
      (due.foldl (flow addition) state).queue = state.queue ++ charges.map (·.1) ∧
      ∀ charge ∈ charges, charge.2 ∉ state.sets.getD charge.1 ∧
        charge.2 ∈ (due.foldl (flow addition) state).sets.getD charge.1 := by
  induction due generalizing state with
  | nil => exact ⟨[], (List.append_nil _).symm, List.forall_mem_nil _⟩
  | cons target due ih =>
    obtain ⟨charges, hqueue, hcharges⟩ := ih (state.flow addition target)
    have hrest : ∀ charge ∈ charges, charge.2 ∉ state.sets.getD charge.1 ∧
        charge.2 ∈ ((target :: due).foldl (flow addition) state).sets.getD charge.1 :=
      fun charge hcharge => ⟨fun hmem => (hcharges charge hcharge).1 (getD_subset_flow addition state target _ _ hmem),
        (hcharges charge hcharge).2⟩
    rcases flow_cases addition state target with ⟨hsize, -, htarget, -⟩ | ⟨-, htarget, -⟩
    · rw [← sets_flow] at hsize
      obtain ⟨a, ha, hmissing⟩ := SymbolSet.exists_mem_of_size_lt hsize
      refine ⟨(target, a) :: charges, ?_, List.forall_mem_cons.mpr ⟨⟨hmissing, ?_⟩, hrest⟩⟩
      · rw [List.foldl_cons, hqueue, htarget, List.append_assoc, List.map_cons]
        rfl
      · exact getD_subset_foldl_flow addition due _ target a ha
    · refine ⟨charges, ?_, hrest⟩
      rw [List.foldl_cons, hqueue, htarget]

theorem step_of_queue_eq_nil (edges : SetFamily) (h : state.queue = []) : state.step edges = state := by
  rw [step, h]

/-- A step takes out the first source and puts in what it can charge to new members. -/
theorem exists_charges (edges : SetFamily) (state : Worklist) :
    ∃ charges : List (Nat × Nat), charges.map (·.1) = requeued edges state ∧
      (state.step edges).queue = state.queue.tail ++ requeued edges state ∧
      ∀ charge ∈ charges, charge.2 ∉ state.sets.getD charge.1 ∧
        charge.2 ∈ (state.step edges).sets.getD charge.1 := by
  rcases hqueue : state.queue with - | ⟨source, queue⟩
  · rw [requeued, step_of_queue_eq_nil edges hqueue, hqueue]
    exact ⟨[], rfl, rfl, List.forall_mem_nil _⟩
  · obtain ⟨charges, hcharges, hnew⟩ := exists_charges_foldl (state.sets.getD source) (edges.getD source).toList
      ⟨state.sets, queue, state.queued.erase source⟩
    rw [← step_eq_foldl hqueue] at hcharges hnew
    have hrequeued : requeued edges state = charges.map (·.1) := by
      rw [requeued, hcharges, hqueue]
      exact List.drop_left
    exact ⟨charges, hrequeued.symm, hrequeued ▸ hcharges, hnew⟩

/-- A step takes the head off the queue and puts the requeued behind the rest. -/
theorem queue_step (edges : SetFamily) (state : Worklist) :
    (state.step edges).queue = state.queue.tail ++ requeued edges state := by
  obtain ⟨-, -, hqueue, -⟩ := exists_charges edges state
  exact hqueue

/-- No set loses a member in a step. -/
theorem getD_subset_step (edges : SetFamily) (state : Worklist) (k : Nat) :
    state.sets.getD k ⊆ (state.step edges).sets.getD k := by
  rcases hqueue : state.queue with - | ⟨source, queue⟩
  · rw [step_of_queue_eq_nil edges hqueue]
    exact SymbolSet.Subset.refl _
  · rw [step_eq_foldl hqueue]
    exact getD_subset_foldl_flow _ _ ⟨state.sets, queue, state.queued.erase source⟩ k

/-! ## All steps -/

theorem after_succ (sets edges : SetFamily) (steps : Nat) :
    after sets edges (steps + 1) = (after sets edges steps).step edges :=
  Function.iterate_succ_apply' _ _ _

/-- What was put back until some step is what was before, and then what this step puts back. -/
theorem requeues_succ (sets edges : SetFamily) (steps : Nat) :
    requeues sets edges (steps + 1) = requeues sets edges steps ++ requeued edges (after sets edges steps) := by
  rw [requeues, List.range_succ, List.flatMap_append, List.flatMap_singleton, requeues]

/-- A run is so many steps. It goes on when the queue is empty, which changes nothing. -/
theorem run_eq_iterate (edges : SetFamily) (steps : Nat) (state : Worklist) :
    run edges steps state = (step edges)^[steps] state := by
  induction steps generalizing state with
  | zero => rfl
  | succ steps ih =>
    rw [run, Function.iterate_succ_apply]
    split
    · next hempty =>
      have hstep := step_of_queue_eq_nil edges (List.isEmpty_iff.mp hempty)
      rw [hstep, Function.iterate_fixed hstep]
    · exact ih (state.step edges)

section sound

variable (hedges : ∀ k, ∀ l ∈ edges.getD k, l ∈ sets.keys)
include hedges

/-- The invariant holds at every head of the loop. -/
theorem sound_after (steps : Nat) : (after sets edges steps).Sound sets edges 0 [] := by
  induction steps with
  | zero => exact Sound.initial 0
  | succ steps ih =>
    rw [after_succ]
    by_cases hqueue : (after sets edges steps).queue = []
    · rw [step_of_queue_eq_nil edges hqueue]
      exact ih
    · exact (ih.step hedges hqueue).1

/-- **Everything that is put into the queue can be charged.** -/
theorem exists_charged (steps : Nat) : ∃ charges, Charged sets edges steps charges := by
  induction steps with
  | zero => exact ⟨[], rfl, List.forall_mem_nil _, List.forall_mem_nil _, List.nodup_nil⟩
  | succ steps ih =>
    obtain ⟨charges, h⟩ := ih
    obtain ⟨more, hsources, hqueue, hmore⟩ := exists_charges edges (after sets edges steps)
    refine ⟨charges ++ more, ?_, ?_, ?_, ?_⟩
    · rw [List.map_append, h.sources, hsources, requeues_succ]
    · refine List.forall_mem_append.mpr ⟨h.missing, fun charge hcharge hmem => ?_⟩
      exact (hmore charge hcharge).1 ((sound_after hedges steps).seeded _ _ hmem)
    · rw [after_succ]
      refine List.forall_mem_append.mpr ⟨fun charge hcharge => ?_, fun charge hcharge => (hmore charge hcharge).2⟩
      exact getD_subset_step edges _ _ _ (h.there charge hcharge)
    · refine List.nodup_append.mpr ⟨h.distinct, ?_, ?_⟩
      -- a step puts nothing into the queue twice
      · have hnodup := (sound_after hedges (steps + 1)).nodup
        rw [after_succ, hqueue, ← hsources] at hnodup
        exact (List.nodup_append.mp hnodup).2.1.of_map
      · rintro charge hcharge _ hcharge' rfl
        exact (hmore charge hcharge').1 (h.there charge hcharge)

end sound

/-- Every step takes out one source. -/
theorem add_length_queue (hqueue : ∀ fewer < steps, (after sets edges fewer).queue ≠ []) :
    steps + (after sets edges steps).queue.length = sets.keys.length + (requeues sets edges steps).length := by
  induction steps with
  | zero => exact Nat.add_comm _ _
  | succ steps ih =>
    have hlength := ih fun fewer hfewer => hqueue fewer (Nat.lt_succ_of_lt hfewer)
    have hpos := List.length_pos_iff.mpr (hqueue steps (Nat.lt_succ_self steps))
    rw [after_succ, queue_step, requeues_succ, List.length_append, List.length_append, List.length_tail]
    omega

/-- Behind the last step nothing changes any more. -/
theorem after_of_queue_eq_nil (h : (after sets edges steps).queue = []) (more : Nat) :
    after sets edges (more + steps) = after sets edges steps := by
  rw [after, Function.iterate_add_apply]
  exact Function.iterate_fixed (step_of_queue_eq_nil edges h) more

/-- The queue is empty for the first time after as many steps as sources were in it. -/
theorem exists_first_empty (h : (after sets edges steps).queue = []) :
    ∃ first, (after sets edges first).queue = [] ∧ (∀ fewer < first, (after sets edges fewer).queue ≠ []) ∧
      first = sets.keys.length + (requeues sets edges first).length ∧
      after sets edges first = after sets edges steps := by
  have hexists : ∃ steps, (after sets edges steps).queue = [] := ⟨steps, h⟩
  have hfirst := Nat.find_spec hexists
  have hbefore : ∀ fewer < Nat.find hexists, (after sets edges fewer).queue ≠ [] :=
    fun fewer hfewer => Nat.find_min hexists hfewer
  refine ⟨Nat.find hexists, hfirst, hbefore, ?_, ?_⟩
  · have hlength := add_length_queue hbefore
    rwa [hfirst, List.length_nil, Nat.add_zero] at hlength
  · obtain ⟨more, hmore⟩ := Nat.exists_eq_add_of_le' (Nat.find_min' hexists h)
    rw [hmore, after_of_queue_eq_nil hfirst]

/-! ## How much can be charged -/

/-- No more is charged than there are pairs to charge to. -/
theorem Charged.length_le {sources members : List Nat} (h : Charged sets edges steps charges)
    (hmem : ∀ charge ∈ charges, charge.1 ∈ sources ∧ charge.2 ∈ members) :
    charges.length ≤ sources.length * members.length := by
  have hsubset : charges ⊆ sources ×ˢ members := fun charge hcharge =>
    List.mem_product.mpr (hmem charge hcharge)
  have hle := (List.subperm_of_subset h.distinct hsubset).length_le
  rwa [List.length_product] at hle

/-- No more is charged to one member than there are sources. -/
theorem Charged.count_le {sources : List Nat} (h : Charged sets edges steps charges)
    (hmem : ∀ charge ∈ charges, charge.1 ∈ sources) (member : Nat) :
    (charges.map (·.2)).count member ≤ sources.length := by
  have hnodup : ((charges.filter (·.2 == member)).map (·.1)).Nodup := by
    refine (List.nodup_map_iff_inj_on (h.distinct.filter _)).mpr fun charge hcharge charge' hcharge' heq => ?_
    have hsecond := (List.mem_filter.mp hcharge).2
    have hsecond' := (List.mem_filter.mp hcharge').2
    exact Prod.ext heq ((eq_of_beq hsecond).trans (eq_of_beq hsecond').symm)
  have hsubset : (charges.filter (·.2 == member)).map (·.1) ⊆ sources := by
    intro source hsource
    obtain ⟨charge, hcharge, rfl⟩ := List.mem_map.mp hsource
    exact hmem charge (List.mem_filter.mp hcharge).1
  have hle := (List.subperm_of_subset hnodup hsubset).length_le
  rw [List.length_map, ← List.countP_eq_length_filter] at hle
  rw [List.count, List.countP_map]
  exact hle

end Worklist

namespace Grammar

/-! ## The worklist of FOLLOW -/

/-- The worklist of the FOLLOW sets of a grammar after some steps. -/
def followWorklist (g : Grammar) (steps : Nat) : Worklist :=
  .after (g.directFollow g.first (FollowSets.seed g).sets) (g.followEdges g.first) steps

/-- What some of its steps put into the queue. -/
def followRequeues (g : Grammar) (steps : Nat) : List Nat :=
  Worklist.requeues (g.directFollow g.first (FollowSets.seed g).sets) (g.followEdges g.first) steps

/-- What holds at the head of the loop that handles the worklist of the FOLLOW sets. -/
structure FollowHead (g : Grammar) (steps : Nat) : Prop where
  /-- nothing is queued twice -/
  nodup : (g.followWorklist steps).queue.Nodup
  /-- the queue is known by its members -/
  queued : ∀ A, A ∈ (g.followWorklist steps).queued ↔ A ∈ (g.followWorklist steps).queue
  /-- an edge is satisfied unless its source is queued -/
  settled : ∀ A, A ∉ (g.followWorklist steps).queue → ∀ B ∈ (g.followEdges g.first).getD A,
    (g.followWorklist steps).sets.getD A ⊆ (g.followWorklist steps).sets.getD B
  /-- what was put into the queue can be charged to terminals that its sets have got, and each terminal is charged at
  most as often as there are non-terminals -/
  charged : ∃ charges : List (Nat × Nat), charges.map (·.1) = g.followRequeues steps ∧ charges.Nodup ∧
    (∀ charge ∈ charges, g.isTerminal charge.2 ∧ charge.2 ∉ (g.followWorklist 0).sets.getD charge.1 ∧
      charge.2 ∈ (g.followWorklist steps).sets.getD charge.1) ∧
    ∀ terminal, (charges.map (·.2)).count terminal ≤ g.nonTerminals.length
  /-- no more was put into the queue than there are pairs of a non-terminal with a terminal or the end mark -/
  bounded : (g.followRequeues steps).length ≤
    g.nonTerminals.length * ((g.terminals.filter (·.1 != endMarkIndex)).length + 1)

variable {g : Grammar}

/-- There is a column for each terminal, and one for the end mark. -/
theorem length_columns (g : Grammar) :
    g.columns.length = (g.terminals.filter (·.1 != endMarkIndex)).length + 1 := by
  rw [columns, List.length_append, List.filter_map, List.length_map, List.length_singleton]
  rfl

namespace WellFormed

variable (hg : g.WellFormed)
include hg

/-- No two non-terminals have one index, so that at first none is queued twice. -/
theorem nodup_indices : (g.nonTerminals.map NonTerminal.index).Nodup := by
  have hnames : (g.nonTerminals.map NonTerminal.name).Nodup := g.names_nonTerminals_sublist.nodup hg.names
  exact hnames.of_map.map_on fun nt hnt nt' hnt' heq => hg.nonTerminal_ext hnt hnt' heq

theorem mem_indices {A : Nat} : A ∈ g.nonTerminals.map NonTerminal.index ↔ g.isNonTerminal A := by
  rw [List.mem_map]
  refine ⟨?_, hg.exists_nonTerminal⟩
  rintro ⟨nt, hnt, rfl⟩
  exact hg.isNonTerminal_index hnt

/-- Each non-terminal is queued once to begin with. -/
theorem length_keys_directFollow (F : FirstSets) :
    (g.directFollow F (FollowSets.seed g).sets).keys.length = g.nonTerminals.length := by
  have hperm : (g.directFollow F (FollowSets.seed g).sets).keys.Perm (g.nonTerminals.map NonTerminal.index) := by
    refine (List.perm_ext_iff_of_nodup (SetFamily.nodup_keys _) hg.nodup_indices).mpr fun A => ?_
    rw [hg.mem_keys_directFollow, mem_keys_seed, hg.mem_indices]
    exact or_iff_right_of_imp (hg.start A)
  rw [hperm.length_eq, List.length_map]

/-- Only non-terminals have members, and those are terminals. -/
theorem isTerminal_of_mem_followWorklist {steps A a : Nat} (h : a ∈ (g.followWorklist steps).sets.getD A) :
    g.isNonTerminal A ∧ g.isTerminal a := by
  have hflows := (Worklist.sound_after followEdges_target steps).flows A a h
  obtain ⟨hA, ⟨ha, -⟩ | ⟨rfl, -⟩⟩ := hg.exists_of_carried (carried_iff.mpr hflows)
  · exact ⟨hA, ha⟩
  · exact ⟨hA, hg.isTerminal_endMark⟩

/-- **The invariant holds at every head of the loop**, by induction on the steps. -/
theorem followHead (steps : Nat) : g.FollowHead steps := by
  have hsound : (g.followWorklist steps).Sound _ _ 0 [] := Worklist.sound_after followEdges_target steps
  obtain ⟨charges, hcharged⟩ :
      ∃ charges, Worklist.Charged (g.directFollow g.first (FollowSets.seed g).sets) _ steps charges :=
    Worklist.exists_charged followEdges_target steps
  -- only non-terminals are charged, and only for terminals
  have hmem : ∀ charge ∈ charges, g.isNonTerminal charge.1 ∧ g.isTerminal charge.2 :=
    fun charge hcharge => hg.isTerminal_of_mem_followWorklist (hcharged.there charge hcharge)
  have hsources : ∀ charge ∈ charges, charge.1 ∈ g.nonTerminals.map NonTerminal.index :=
    fun charge hcharge => hg.mem_indices.mpr (hmem charge hcharge).1
  refine ⟨hsound.nodup, hsound.queued, fun A hA B hB => ?_,
    ⟨charges, hcharged.sources, hcharged.distinct, ?_, ?_⟩, ?_⟩
  -- an edge that is not settled is due, and at the head of the loop none is
  · exact (hsound.settled A hA B hB).resolve_left fun hdue => List.not_mem_nil hdue.2
  -- each charge is for a terminal that was missing
  · exact fun charge hcharge =>
      ⟨(hmem charge hcharge).2, hcharged.missing charge hcharge, hcharged.there charge hcharge⟩
  -- a terminal is charged for at most once for each non-terminal
  · intro terminal
    have hcount := hcharged.count_le hsources terminal
    rwa [List.length_map] at hcount
  -- so that there are at most as many charges as pairs of the two
  · have hlength := hcharged.length_le fun charge hcharge =>
      ⟨hsources charge hcharge, hg.mem_columns.mpr (hmem charge hcharge).2⟩
    rw [List.length_map, length_columns, ← List.length_map (·.1), hcharged.sources] at hlength
    exact hlength

end WellFormed

/-! ## In built grammars -/

/-- **The worklist of FOLLOW runs empty.** At every head of its loop nothing is queued twice, edges are satisfied unless
their source is queued, and what was put back is bounded. The queue begins with each non-terminal once, is empty for
the first time after as many steps as there are non-terminals and sources put back, and leaves the FOLLOW sets. -/
theorem Built.follow_requeues (hg : g.Built) :
    (∀ steps, g.FollowHead steps) ∧ (g.followWorklist 0).queue.length = g.nonTerminals.length ∧
      ∃ W steps, g.follow g.first = .ok W ∧ (g.followWorklist steps).queue = [] ∧
        (g.followWorklist steps).sets = W.sets ∧ (∀ fewer < steps, (g.followWorklist fewer).queue ≠ []) ∧
        steps = g.nonTerminals.length + (g.followRequeues steps).length := by
  have hwf := hg.wellFormed
  have hkeys := hwf.length_keys_directFollow g.first
  refine ⟨hwf.followHead, hkeys, ?_⟩
  obtain ⟨W, hW, -⟩ := hwf.follow_eq
  obtain ⟨enough, state, hstate, hsets, hqueue⟩ := exists_drained hW
  rw [Worklist.run_eq_iterate] at hstate
  subst hstate
  obtain ⟨steps, hempty, hbefore, hsteps, hsame⟩ := Worklist.exists_first_empty hqueue
  refine ⟨W, steps, hW, hempty, ?_, hbefore, ?_⟩
  · exact (congrArg Worklist.sets hsame).trans hsets
  · rw [hkeys] at hsteps
    exact hsteps

/-- A grammar whose non-terminals end in each other, where something stands behind the second to begin with. -/
def backAndForth : Grammar := .ofRules [⟨"A", [["B", "c"], ["d", "B"]]⟩, ⟨"B", [["b", "A"], []]⟩]

/-- There `A` is put back once, for `c`. -/
theorem Built.follow_requeues_backAndForth :
    backAndForth.Built ∧ backAndForth.followRequeues 3 = [2] ∧ (backAndForth.followWorklist 3).queue = [] ∧
      ∀ steps, backAndForth.FollowHead steps ∧ (backAndForth.followRequeues steps).length ≤ 8 := by
  have hbuilt : backAndForth.Built := .ofRules _
  obtain ⟨hheads, -⟩ := Built.follow_requeues hbuilt
  exact ⟨hbuilt, by decide, by decide, fun steps => ⟨hheads steps, (hheads steps).bounded⟩⟩

end Grammar

end PredictiveGrammar
