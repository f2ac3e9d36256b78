import PredictiveGrammar.Proofs.BuiltGrammars
import PredictiveGrammar.Proofs.FirstFixpoint

/-!
# The course of the rounds of FIRST

The computation of FIRST sets passes through points in the middle of its rounds, where some sets are new and others
are still those of the round before (`RoundPoint`). What holds at every point (`RoundPoint.Sound`) is kept by each step:
the sets are rising, so a recomputed set of the same size is the stored one; the sets visited since the last change are
settled; and every round begun after the first has been paid for by a new member of some set. Since members are
terminals or `ε`, that bounds the rounds, and the last one leaves the sets stable (`Grammar.Built.first_rounds`).
-/

namespace PredictiveGrammar

/-! ## Points of the computation -/

/-- A point of the computation of FIRST sets. -/
structure RoundPoint where
  /-- the sets as stored so far -/
  sets : FirstSets
  /-- the non-terminals that the round has still to visit, the next one first -/
  due : List NonTerminal
  /-- whether the round has stored a set -/
  changed : Bool
  /-- the number of rounds begun -/
  round : Nat
deriving DecidableEq

/-- The next point: behind a visit, or at the begin of another round if this one has stored a set. -/
def RoundPoint.next? (g : Grammar) (point : RoundPoint) : Option RoundPoint :=
  match point.due with
  | nt :: due => some ⟨(point.sets.visit nt).1, due, point.changed || (point.sets.visit nt).2, point.round⟩
  | [] => if point.changed then some ⟨point.sets, g.nonTerminals, false, point.round + 1⟩ else none

/-- The points that the computation for a grammar passes. -/
inductive Grammar.Passes (g : Grammar) : RoundPoint → Prop
  /-- the begin of the first round -/
  | begin : Passes g ⟨.initial g, g.nonTerminals, false, 1⟩
  /-- what comes next -/
  | next {point next : RoundPoint} : Passes g point → point.next? g = some next → Passes g next

/-- What holds at every point. -/
structure RoundPoint.Sound (g : Grammar) (point : RoundPoint) : Prop where
  /-- recomputing any set loses nothing -/
  rising : FirstSets.Rising g point.sets
  /-- non-terminals are visited -/
  due : point.due ⊆ g.nonTerminals
  /-- as long as the round has stored nothing, recomputing changes only sets that it has not visited -/
  settled : point.changed = false → ∀ nt ∈ g.nonTerminals,
    nt ∈ point.due ∨ point.sets.getD nt.index = point.sets.ofProductions nt.productions
  /-- there is a member for every round that has stored a set -/
  grown : point.round + point.changed.toNat ≤ FirstSets.total g.nonTerminals point.sets + 1

namespace FirstSets

variable {g : Grammar} {F : FirstSets}

/-! ## The number of members -/

/-- A set holds at most all terminals and `ε`. -/
theorem Rising.size_le (hF : Rising g F) (i : Nat) : (F.getD i).size ≤ g.terminals.length + 1 := by
  have hmembers : ∀ a ∈ F.getD i, a ∈ epsilonIndex :: g.terminals.map (·.1) := by
    intro a ha
    rcases hF.members i a ha with rfl | h
    · exact List.mem_cons_self
    · exact List.mem_cons_of_mem _ (Grammar.mem_terminals.mpr h)
  have hsize := SymbolSet.size_le_length hmembers
  rwa [List.length_cons, List.length_map] at hsize

theorem Rising.total_le (hF : Rising g F) :
    total g.nonTerminals F ≤ g.nonTerminals.length * (g.terminals.length + 1) :=
  FirstSets.total_le fun nt _ => hF.size_le nt.index

/-- A set of another size has more members than the one that it replaces. -/
theorem Rising.total_lt_store (hg : g.WellFormed) (hF : Rising g F) {nt : NonTerminal} (hnt : nt ∈ g.nonTerminals)
    (hsize : (F.getD nt.index).size ≠ (F.ofProductions nt.productions).size) :
    total g.nonTerminals F < total g.nonTerminals (F.store nt) := by
  refine List.sum_lt_sum _ _ (fun other _ => ?_) ⟨nt, hnt, ?_⟩
  · exact SymbolSet.size_le_of_subset ((hF.below_store hg hnt).subset other.index)
  · rw [getD_store (hF.index_lt hg hnt), if_pos rfl]
    exact SymbolSet.size_lt_of_subset (hF.rising nt hnt) hsize

end FirstSets

namespace RoundPoint.Sound

variable {g : Grammar} {point : RoundPoint}

/-! ## One step -/

theorem start (hg : g.WellFormed) : Sound g ⟨.initial g, g.nonTerminals, false, 1⟩ where
  rising := FirstSets.rising_initial hg
  due := List.Subset.refl _
  settled := fun _ _ hnt => Or.inl hnt
  grown := Nat.le_add_left 1 _

/-- A visit that finds a set of the old size has found the old set. -/
theorem visit (hg : g.WellFormed) {F : FirstSets} {nt : NonTerminal} {due : List NonTerminal} {changed : Bool}
    {round : Nat} (h : Sound g ⟨F, nt :: due, changed, round⟩) :
    Sound g ⟨(F.visit nt).1, due, changed || (F.visit nt).2, round⟩ := by
  have hF : FirstSets.Rising g F := h.rising
  have hgrown : round + changed.toNat ≤ FirstSets.total g.nonTerminals F + 1 := h.grown
  have hnt : nt ∈ g.nonTerminals := h.due List.mem_cons_self
  have hrest : due ⊆ g.nonTerminals := fun _ hother => h.due (List.mem_cons_of_mem nt hother)
  have hindex := hF.index_lt hg hnt
  by_cases hsize : (F.getD nt.index).size = (F.ofProductions nt.productions).size
  -- the recomputed set includes the stored one, so with its size it settles the non-terminal
  · rw [FirstSets.visit_eq hindex, if_pos hsize, Bool.or_false]
    refine ⟨hF, hrest, fun hchanged other hother => ?_, hgrown⟩
    rcases h.settled hchanged other hother with hmem | heq
    · rcases List.mem_cons.mp hmem with rfl | hmem
      · exact Or.inr (SymbolSet.eq_of_subset_of_size_le (hF.rising other hother) (Nat.le_of_eq hsize.symm))
      · exact Or.inl hmem
    · exact Or.inr heq
  · rw [FirstSets.visit_eq hindex, if_neg hsize, Bool.or_true]
    refine ⟨hF.store hg hnt, hrest, fun hchanged => (by cases hchanged), ?_⟩
    have hlt := hF.total_lt_store hg hnt hsize
    change round + 1 ≤ FirstSets.total g.nonTerminals (F.store nt) + 1
    omega

/-- **Each step keeps what holds at every point.** -/
theorem next (hg : g.WellFormed) (h : Sound g point) {next : RoundPoint} (hnext : point.next? g = some next) :
    Sound g next := by
  obtain ⟨F, due, changed, round⟩ := point
  match due, changed with
  | nt :: due, changed =>
    obtain rfl := Option.some.inj hnext
    exact h.visit hg
  | [], true =>
    obtain rfl := Option.some.inj hnext
    exact ⟨h.rising, List.Subset.refl _, fun _ _ hnt => Or.inl hnt, h.grown⟩
  | [], false => cases hnext

/-- Behind a round that stored nothing all sets are stable. -/
theorem stable (h : Sound g point) (hdue : point.due = []) (hchanged : point.changed = false) :
    FirstSets.Stable g.nonTerminals point.sets := by
  intro nt hnt
  rcases h.settled hchanged nt hnt with hmem | heq
  · rw [hdue] at hmem
    exact absurd hmem List.not_mem_nil
  · exact heq

theorem round_le (h : Sound g point) : point.round ≤ g.nonTerminals.length * (g.terminals.length + 1) + 1 := by
  have hgrown := h.grown
  have htotal := h.rising.total_le
  omega

end RoundPoint.Sound

namespace Grammar

variable {g : Grammar}

/-! ## All steps -/

theorem Passes.sound (hg : g.WellFormed) {point : RoundPoint} (h : g.Passes point) : point.Sound g := by
  induction h with
  | begin => exact RoundPoint.Sound.start hg
  | next _ hnext ih => exact ih.next hg hnext

/-- A round passes from its begin to its end. -/
theorem Passes.round {F : FirstSets} {nts : List NonTerminal} {changed : Bool} {count : Nat}
    (h : g.Passes ⟨F, nts, changed, count⟩) :
    g.Passes ⟨(F.round nts).1, [], changed || (F.round nts).2, count⟩ := by
  induction nts generalizing F changed with
  | nil =>
    have hround : F.round [] = (F, false) := rfl
    rwa [hround, Bool.or_false]
  | cons nt nts ih =>
    have hvisit : g.Passes ⟨(F.visit nt).1, nts, changed || (F.visit nt).2, count⟩ := h.next rfl
    rw [FirstSets.round_cons, ← Bool.or_assoc]
    exact ih hvisit

/-- With more rounds allowed than are begun, the rounds end as the last of them does. -/
theorem Passes.exists_last (hg : g.WellFormed) {F : FirstSets} {count rounds : Nat}
    (h : g.Passes ⟨F, g.nonTerminals, false, count⟩)
    (hrounds : g.nonTerminals.length * (g.terminals.length + 1) + 1 < count + rounds) :
    ∃ last, g.Passes ⟨FirstSets.stabilise g.nonTerminals rounds F, [], false, last⟩ := by
  induction rounds generalizing F count with
  | zero =>
    have hcount := (h.sound hg).round_le
    exact absurd hrounds (Nat.not_lt.mpr hcount)
  | succ rounds ih =>
    have hround := h.round
    rw [FirstSets.stabilise_succ]
    rcases hchanged : (F.round g.nonTerminals).2 with - | -
    · rw [hchanged] at hround
      exact ⟨count, hround⟩
    · rw [hchanged] at hround
      have hagain : g.Passes ⟨(F.round g.nonTerminals).1, g.nonTerminals, false, count + 1⟩ := hround.next rfl
      exact ih hagain (by omega)

/-- The symbols include `ε` besides the terminals. -/
theorem WellFormed.length_terminals_lt (hg : g.WellFormed) : g.terminals.length < g.symbols.length := by
  rw [← List.length_zipIdx (l := g.symbols), terminals, List.length_filterMap_lt_length_iff_exists]
  exact ⟨(.epsilon, epsilonIndex), List.mem_zipIdx_iff_getElem?.mpr hg.epsilon, rfl⟩

/-- The computation of FIRST sets comes to an end. -/
theorem WellFormed.exists_last (hg : g.WellFormed) : ∃ last, g.Passes ⟨g.first, [], false, last⟩ := by
  refine Passes.begin.exists_last hg ?_
  have hlt := hg.length_terminals_lt
  have hmembers : g.terminals.length + 1 ≤ g.memberBound := Nat.le_add_right_of_le hlt
  have hmul := Nat.mul_le_mul_left g.nonTerminals.length hmembers
  omega

/-! ## In built grammars -/

/-- **The size test is sound and the rounds end.** At every point of the computation each non-terminal has a set, which
is part of the recomputed one and is the same if the sizes agree; behind a round that stored nothing all stored sets are
the recomputed ones; and the rounds are at most one more than the pairs of a non-terminal with a terminal or `ε`. The
last point has the FIRST sets. -/
theorem Built.first_rounds (hg : g.Built) :
    (∀ point, g.Passes point →
      (∀ nt ∈ g.nonTerminals, ∃ stored, point.sets.get? nt.index = some stored ∧
        stored ⊆ point.sets.ofProductions nt.productions ∧
        (stored.size = (point.sets.ofProductions nt.productions).size →
          stored = point.sets.ofProductions nt.productions)) ∧
      (point.due = [] → point.changed = false →
        ∀ nt ∈ g.nonTerminals, point.sets.get? nt.index = some (point.sets.ofProductions nt.productions)) ∧
      point.round ≤ g.nonTerminals.length * (g.terminals.length + 1) + 1) ∧
    ∃ rounds, g.Passes ⟨g.first, [], false, rounds⟩ := by
  have hwf := hg.wellFormed
  refine ⟨fun point hpoint => ?_, hwf.exists_last⟩
  have h := hpoint.sound hwf
  have hget : ∀ nt ∈ g.nonTerminals, point.sets.get? nt.index = some (point.sets.getD nt.index) :=
    fun nt hnt => FirstSets.get?_eq_some (h.rising.index_lt hwf hnt)
  refine ⟨fun nt hnt => ⟨_, hget nt hnt, h.rising.rising nt hnt, fun hsize => ?_⟩, ?_, h.round_le⟩
  · exact SymbolSet.eq_of_subset_of_size_le (h.rising.rising nt hnt) (Nat.le_of_eq hsize.symm)
  · intro hdue hchanged nt hnt
    rw [hget nt hnt, h.stable hdue hchanged nt hnt]

/-- A grammar with two non-terminals that begin with each other. -/
def beginInTurn : Grammar := .ofRules [⟨"A", [["B", "x"], ["a"]]⟩, ⟨"B", [["A", "y"], ["b"], []]⟩]

/-- Behind its first round the set of `A` lacks what has come into the one of `B`. There are at most thirteen rounds. -/
theorem Built.first_rounds_beginInTurn :
    beginInTurn.Built ∧
      (∃ F, beginInTurn.Passes ⟨F, [], true, 1⟩ ∧ F.get? 2 = some (.ofList [5]) ∧
        F.ofProductions [[3, 4], [5]] = .ofList [4, 5, 7]) ∧
      (∀ point, beginInTurn.Passes point → point.round ≤ 13) ∧
      ∃ rounds, beginInTurn.Passes ⟨beginInTurn.first, [], false, rounds⟩ := by
  have hbuilt : beginInTurn.Built := .ofRules _
  obtain ⟨hpoints, hlast⟩ := Built.first_rounds hbuilt
  refine ⟨hbuilt, ⟨_, Passes.begin.round, by decide, by decide⟩, fun point hpoint => ?_, hlast⟩
  exact (hpoints point hpoint).2.2

end Grammar

end PredictiveGrammar
