import Mathlib.Algebra.Group.Action.Defs
import Mathlib.Algebra.Order.BigOperators.Group.List
import Mathlib.Algebra.Order.Ring.Nat
import Mathlib.Data.List.Nodup
import PredictiveGrammar.Analysis.Propagation
import PredictiveGrammar.Proofs.SetSize

/-!
# The worklist propagates exactly what flows

A member of a set flows along any number of edges (`SetFamily.Flows`), and `SetFamily.propagate` answers with
exactly the members that flow to a key (`SetFamily.mem_propagate`). While the worklist is handled every edge
is satisfied whose source is not queued. Inside a step that fails for the source just taken out, whose set has
reached some of its targets only; the invariant (`Worklist.Sound`) names that source and the targets that are
still due. The number of steps is enough because each takes a source out of the queue, and putting one back
uses up a member that its set did not have (`Worklist.potential`).
-/

namespace PredictiveGrammar

/-- A member flows to a key from the sets given, along edges. -/
inductive SetFamily.Flows (sets edges : SetFamily) : Nat → Nat → Prop
  /-- it is there to begin with -/
  | seed {k a : Nat} : a ∈ sets.getD k → Flows sets edges k a
  /-- it is handed on along an edge -/
  | edge {k l a : Nat} : l ∈ edges.getD k → Flows sets edges k a → Flows sets edges l a

/-- What flows was in one of the sets given. -/
theorem SetFamily.Flows.mem_union {sets edges : SetFamily} {k a : Nat} (h : sets.Flows edges k a) :
    a ∈ sets.union := by
  induction h with
  | seed ha => exact sets.getD_subset_union _ _ ha
  | edge _ _ ih => exact ih

namespace Worklist

variable {sets edges : SetFamily} {source target : Nat} {due : List Nat} {addition : SymbolSet}
  {state : Worklist}

/-! ## The invariant -/

/-- What holds while `source` still has to hand its set on to the targets that are `due`. -/
structure Sound (sets edges : SetFamily) (source : Nat) (due : List Nat) (state : Worklist) : Prop where
  /-- the keys stay the same -/
  keys : ∀ k, k ∈ state.sets.keys ↔ k ∈ sets.keys
  /-- the queue is known by its members -/
  queued : ∀ k, k ∈ state.queued ↔ k ∈ state.queue
  /-- nothing is queued twice -/
  nodup : state.queue.Nodup
  /-- nothing is lost -/
  seeded : ∀ k, sets.getD k ⊆ state.sets.getD k
  /-- nothing is there that does not flow -/
  flows : ∀ k, ∀ a ∈ state.sets.getD k, sets.Flows edges k a
  /-- an edge is satisfied unless its source is queued or its target is due -/
  settled : ∀ k, k ∉ state.queue → ∀ l ∈ edges.getD k,
    k = source ∧ l ∈ due ∨ state.sets.getD k ⊆ state.sets.getD l

/-- The steps still possible: what is queued, and the members that each set does not have yet. -/
def potential (sets : SetFamily) (state : Worklist) : Nat :=
  state.queue.length + (sets.keys.map fun k => sets.union.size - (state.sets.getD k).size).sum

theorem Sound.initial (source : Nat) : Sound sets edges source [] (.initial sets) where
  keys := fun _ => Iff.rfl
  queued := fun _ => SymbolSet.mem_ofList
  nodup := sets.nodup_keys
  seeded := fun k => SymbolSet.Subset.refl (sets.getD k)
  flows := fun _ _ ha => .seed ha
  settled := by
    intro k hk l _
    have hempty : sets.getD k = ∅ := SetFamily.getD_eq_empty hk
    refine Or.inr fun a ha => absurd ha ?_
    change a ∉ sets.getD k
    rw [hempty]
    exact SymbolSet.not_mem_empty a

/-- With nothing due, any source may be taken for the current one. -/
theorem Sound.resume (h : Sound sets edges source [] state) (other : Nat) :
    Sound sets edges other [] state :=
  { h with settled := fun k hk l hl => Or.inr ((h.settled k hk l hl).resolve_left fun hdue =>
      List.not_mem_nil hdue.2) }

/-- With nothing queued and nothing due, the sets hold exactly what flows. -/
theorem Sound.mem_iff (h : Sound sets edges source [] state) (hqueue : state.queue = []) {k a : Nat} :
    a ∈ state.sets.getD k ↔ sets.Flows edges k a := by
  refine ⟨?_, ?_⟩
  · exact h.flows k a
  · intro hflows
    induction hflows with
    | seed ha => exact h.seeded _ _ ha
    | edge hl _ ih =>
      have hnot : ∀ k, k ∉ state.queue := by
        rw [hqueue]
        exact fun _ => List.not_mem_nil
      rcases h.settled _ (hnot _) _ hl with ⟨-, hdue⟩ | hsubset
      · exact absurd hdue List.not_mem_nil
      · exact hsubset _ ih

/-! ## One target -/

theorem sets_flow (addition : SymbolSet) (state : Worklist) (target : Nat) :
    (state.flow addition target).sets = state.sets.add target addition := by
  rw [flow]
  split <;> rfl

theorem getD_subset_flow (addition : SymbolSet) (state : Worklist) (target k : Nat) :
    state.sets.getD k ⊆ (state.flow addition target).sets.getD k := by
  rw [sets_flow]
  exact state.sets.getD_subset_add k target addition

/-- The target is put at the end of the queue if its set grew and it was not queued. -/
theorem flow_cases (addition : SymbolSet) (state : Worklist) (target : Nat) :
    ((state.sets.getD target).size < ((state.sets.add target addition).getD target).size ∧
      target ∉ state.queued ∧ (state.flow addition target).queue = state.queue ++ [target] ∧
      (state.flow addition target).queued = state.queued.insert target) ∨
    (((state.sets.add target addition).getD target).size ≤ (state.sets.getD target).size ∨
      target ∈ state.queued) ∧ (state.flow addition target).queue = state.queue ∧
      (state.flow addition target).queued = state.queued := by
  rw [flow]
  split
  · next h => exact Or.inl ⟨h.1, h.2, rfl, rfl⟩
  · next h =>
    rw [not_and_or, Nat.not_lt, not_not] at h
    exact Or.inr ⟨h, rfl, rfl⟩

theorem queue_subset_flow (addition : SymbolSet) (state : Worklist) (target : Nat) :
    state.queue ⊆ (state.flow addition target).queue := by
  rcases flow_cases addition state target with ⟨-, -, hqueue, -⟩ | ⟨-, hqueue, -⟩
  · rw [hqueue]
    exact List.subset_append_left _ _
  · rw [hqueue]
    exact List.Subset.refl _

/-- What is not queued afterwards has the set that it had. -/
theorem Sound.getD_flow (h : Sound sets edges source due state) {k : Nat}
    (hk : k ∉ (state.flow addition target).queue) :
    (state.flow addition target).sets.getD k = state.sets.getD k := by
  rw [sets_flow]
  by_cases hkt : k = target
  · subst hkt
    have hsize : ((state.sets.add k addition).getD k).size ≤ (state.sets.getD k).size := by
      rcases flow_cases addition state k with ⟨-, -, hqueue, -⟩ | ⟨hsize | hqueued, hqueue, -⟩
      · rw [hqueue] at hk
        exact absurd (List.mem_append_right _ List.mem_cons_self) hk
      · exact hsize
      · rw [hqueue] at hk
        exact absurd ((h.queued k).mp hqueued) hk
    exact (SymbolSet.eq_of_subset_of_size_le (state.sets.getD_subset_add k k addition) hsize).symm
  · rw [SetFamily.getD_add, if_neg hkt]

/-- Handing its set on does not change the set of the source. -/
theorem getD_flow_source (state : Worklist) (source target : Nat) :
    (state.flow (state.sets.getD source) target).sets.getD source = state.sets.getD source := by
  rw [sets_flow]
  ext a
  rw [SetFamily.mem_getD_add]
  refine ⟨?_, ?_⟩
  · rintro (ha | ⟨-, ha⟩)
    · exact ha
    · exact ha
  · exact Or.inl

/-- **Handing a set on to one target** leaves one target less due. -/
theorem Sound.flow (h : Sound sets edges source (target :: due) state)
    (hedge : target ∈ edges.getD source) (htarget : target ∈ sets.keys) :
    Sound sets edges source due (state.flow (state.sets.getD source) target) where
  keys := by
    intro k
    rw [sets_flow, SetFamily.mem_keys_add, h.keys]
    exact or_iff_right_of_imp fun hk => hk ▸ htarget
  queued := by
    intro k
    rcases flow_cases (state.sets.getD source) state target with ⟨-, -, hq, hs⟩ | ⟨-, hq, hs⟩
    · rw [hq, hs, SymbolSet.mem_insert, h.queued, List.mem_append, List.mem_singleton]
      exact or_comm
    · rw [hq, hs]
      exact h.queued k
  nodup := by
    rcases flow_cases (state.sets.getD source) state target with ⟨-, hnew, hq, -⟩ | ⟨-, hq, -⟩
    · rw [hq]
      refine List.nodup_append.mpr ⟨h.nodup, List.nodup_singleton _, ?_⟩
      rintro k hk _ hk' rfl
      obtain rfl := List.mem_singleton.mp hk'
      exact hnew ((h.queued k).mpr hk)
    · rw [hq]
      exact h.nodup
  seeded := fun k => SymbolSet.Subset.trans (h.seeded k) (getD_subset_flow _ state target k)
  flows := by
    intro k a ha
    rw [sets_flow, SetFamily.mem_getD_add] at ha
    rcases ha with ha | ⟨rfl, ha⟩
    · exact h.flows k a ha
    · exact .edge hedge (h.flows source a ha)
  settled := by
    intro k hk l hl
    have hold : k ∉ state.queue := fun hmem => hk (queue_subset_flow _ _ _ hmem)
    -- the set of `k` did not grow, or `k` would be queued
    rw [h.getD_flow hk, sets_flow]
    rcases h.settled k hold l hl with ⟨rfl, hdue⟩ | hsubset
    · rcases List.mem_cons.mp hdue with rfl | hdue
      · exact Or.inr fun a ha => SetFamily.mem_getD_add.mpr (Or.inr ⟨rfl, ha⟩)
      · exact Or.inl ⟨rfl, hdue⟩
    · exact Or.inr (SymbolSet.Subset.trans hsubset (state.sets.getD_subset_add l _ _))

/-- No set can have more members than all sets given together. -/
theorem Sound.size_le (h : Sound sets edges source due state) (k : Nat) :
    (state.sets.getD k).size ≤ sets.union.size :=
  SymbolSet.size_le_of_subset fun a ha => (h.flows k a ha).mem_union

/-- A target that is queued again pays for that with a new member. -/
theorem Sound.potential_flow (h : Sound sets edges source (target :: due) state)
    (hedge : target ∈ edges.getD source) (htarget : target ∈ sets.keys) :
    potential sets (state.flow (state.sets.getD source) target) ≤ potential sets state := by
  have hsound := h.flow hedge htarget
  have hroom : ∀ k ∈ sets.keys,
      sets.union.size - ((state.flow (state.sets.getD source) target).sets.getD k).size ≤
        sets.union.size - (state.sets.getD k).size :=
    fun k _ => Nat.sub_le_sub_left (SymbolSet.size_le_of_subset (getD_subset_flow _ state target k)) _
  rw [potential, potential]
  rcases flow_cases (state.sets.getD source) state target with ⟨hlt, -, hq, -⟩ | ⟨-, hq, -⟩
  · have hsum := List.sum_lt_sum _ _ hroom ⟨target, htarget, by
      have hle := hsound.size_le target
      rw [sets_flow] at hle ⊢
      omega⟩
    rw [hq, List.length_append, List.length_singleton]
    omega
  · have hsum := List.sum_le_sum hroom
    rw [hq]
    omega

/-! ## All targets of a source -/

/-- **Handing a set on to all targets that are due** leaves none due. -/
theorem Sound.foldl_flow (h : Sound sets edges source due state)
    (hdue : ∀ target ∈ due, target ∈ edges.getD source ∧ target ∈ sets.keys) :
    Sound sets edges source [] (due.foldl (Worklist.flow (state.sets.getD source)) state) ∧
      potential sets (due.foldl (Worklist.flow (state.sets.getD source)) state) ≤
        potential sets state := by
  induction due generalizing state with
  | nil => exact ⟨h, Nat.le_refl _⟩
  | cons target due ih =>
    obtain ⟨hedge, htarget⟩ := hdue target List.mem_cons_self
    have hpotential := h.potential_flow hedge htarget
    have hrest := ih (h.flow hedge htarget) fun t ht => hdue t (List.mem_cons_of_mem target ht)
    -- the remaining targets get the set that the source had at the start
    rw [getD_flow_source] at hrest
    exact ⟨hrest.1, Nat.le_trans hrest.2 hpotential⟩

/-- A step takes the first source out and hands its set on to all its targets. -/
theorem step_eq_foldl {queue : List Nat} (h : state.queue = source :: queue) :
    state.step edges = (edges.getD source).toList.foldl (flow (state.sets.getD source))
      ⟨state.sets, queue, state.queued.erase source⟩ := by
  rw [step, h]

section step

variable (hedges : ∀ k, ∀ l ∈ edges.getD k, l ∈ sets.keys)
include hedges

/-- **A step keeps the invariant** and uses up potential. -/
theorem Sound.step (h : Sound sets edges source [] state) (hqueue : state.queue ≠ []) :
    Sound sets edges source [] (state.step edges) ∧
      potential sets (state.step edges) < potential sets state := by
  obtain ⟨next, queue, hnext⟩ := List.exists_cons_of_ne_nil hqueue
  have hnodup := h.nodup
  rw [hnext, List.nodup_cons] at hnodup
  -- once the source is taken out, all its targets are due
  have htaken : Sound sets edges next (edges.getD next).toList
      ⟨state.sets, queue, state.queued.erase next⟩ := by
    refine ⟨h.keys, fun k => ?_, hnodup.2, h.seeded, h.flows, fun k hk l hl => ?_⟩
    · rw [SymbolSet.mem_erase, h.queued, hnext, List.mem_cons]
      refine ⟨?_, ?_⟩
      · rintro ⟨hk | hk, hne⟩
        · exact absurd hk hne
        · exact hk
      · intro hk
        exact ⟨Or.inr hk, fun heq => hnodup.1 (heq ▸ hk)⟩
    · by_cases hkn : k = next
      · subst hkn
        exact Or.inl ⟨rfl, hl⟩
      · have hold : k ∉ state.queue := by
          rw [hnext, List.mem_cons, not_or]
          exact ⟨hkn, hk⟩
        exact Or.inr (((h.resume next).settled k hold l hl).resolve_left fun hdue => hkn hdue.1)
  obtain ⟨hsound, hle⟩ := htaken.foldl_flow fun target ht => ⟨ht, hedges next target ht⟩
  rw [step_eq_foldl hnext]
  refine ⟨hsound.resume source, Nat.lt_of_le_of_lt hle ?_⟩
  rw [potential, potential, hnext, List.length_cons]
  exact Nat.add_lt_add_right (Nat.lt_succ_self queue.length) _

/-- **Enough steps handle everything** and keep the invariant. -/
theorem Sound.run (h : Sound sets edges source [] state) {steps : Nat}
    (hsteps : potential sets state ≤ steps) :
    Sound sets edges source [] (run edges steps state) ∧ (run edges steps state).queue = [] := by
  induction steps generalizing state with
  | zero =>
    refine ⟨h, List.length_eq_zero_iff.mp ?_⟩
    rw [potential] at hsteps
    change state.queue.length = 0
    omega
  | succ steps ih =>
    rw [Worklist.run]
    split
    · next hempty => exact ⟨h, List.isEmpty_iff.mp hempty⟩
    · next hempty =>
      obtain ⟨hsound, hlt⟩ := h.step hedges fun hnil => hempty (List.isEmpty_iff.mpr hnil)
      exact ih hsound (by omega)

end step

/-- Every key is queued once to begin with, and each set can take in every member once. -/
theorem potential_initial (sets : SetFamily) :
    potential sets (.initial sets) ≤ sets.keys.length * (1 + sets.union.size) := by
  have hsum := List.sum_le_card_nsmul (sets.keys.map fun k => sets.union.size - (sets.getD k).size)
    sets.union.size (by simp)
  rw [List.length_map, smul_eq_mul] at hsum
  rw [Nat.mul_add, Nat.mul_one]
  exact Nat.add_le_add_left hsum sets.keys.length

end Worklist

namespace SetFamily

variable {sets edges : SetFamily}

/-- **The run ends with an empty queue** in a sound state. -/
theorem sound_propagate (hedges : ∀ k, ∀ l ∈ edges.getD k, l ∈ sets.keys) :
    ∃ state : Worklist, state.sets = sets.propagate edges ∧ state.queue = [] ∧
      state.Sound sets edges 0 [] := by
  obtain ⟨hsound, hqueue⟩ :=
    (Worklist.Sound.initial 0).run hedges (Worklist.potential_initial sets)
  exact ⟨_, rfl, hqueue, hsound⟩

/-- **Propagation is exact**: the answer holds what flows along the edges and nothing else. -/
theorem mem_propagate (hedges : ∀ k, ∀ l ∈ edges.getD k, l ∈ sets.keys) {k a : Nat} :
    a ∈ (sets.propagate edges).getD k ↔ sets.Flows edges k a := by
  obtain ⟨state, hsets, hqueue, hsound⟩ := sound_propagate hedges
  rw [← hsets]
  exact hsound.mem_iff hqueue

/-- Propagation enters no key. -/
theorem mem_keys_propagate (hedges : ∀ k, ∀ l ∈ edges.getD k, l ∈ sets.keys) {k : Nat} :
    k ∈ (sets.propagate edges).keys ↔ k ∈ sets.keys := by
  obtain ⟨state, hsets, -, hsound⟩ := sound_propagate hedges
  rw [← hsets]
  exact hsound.keys k

end SetFamily

end PredictiveGrammar
