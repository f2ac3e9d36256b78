import Mathlib.Algebra.Group.Action.Defs
import Mathlib.Algebra.Order.BigOperators.Group.List
import Mathlib.Algebra.Order.Ring.Nat
import PredictiveGrammar.Proofs.Arena
import PredictiveGrammar.Proofs.FirstSequence

/-!
# The rounds of FIRST reach a fixpoint

Sets are recomputed and replaced in place, in the middle of a round, and compared by size only. What carries
the computation is that a recomputed set always includes the stored one (`FirstSets.Rising`): then a set of
the same size is the same set, and a round that stores nothing has found a fixpoint. Every other round makes
some set larger, and no set is larger than the number of symbols, which bounds the rounds
(`Grammar.WellFormed.first_stable`).
-/

namespace PredictiveGrammar

namespace FirstSets

variable {F : FirstSets} {g : Grammar}

/-! ## One visit -/

/-- The sets with the recomputed set of one non-terminal. -/
def store (F : FirstSets) (nt : NonTerminal) : FirstSets :=
  { F with sets := F.sets.set nt.index (F.ofProductions nt.productions) }

/-- Storing changes the set of one non-terminal to FIRST of its productions. -/
theorem getD_store {nt : NonTerminal} (h : nt.index < F.sets.length) (i : Nat) :
    (F.store nt).getD i = if i = nt.index then F.ofProductions nt.productions else F.getD i := by
  rw [getD, get?, store, List.getElem?_set]
  by_cases hi : nt.index = i
  · rw [if_pos hi, if_pos h, if_pos hi.symm]
    rfl
  · rw [if_neg hi, if_neg (Ne.symm hi)]
    rfl

/-- A visit stores the recomputed set exactly if its size is new. -/
theorem visit_eq {nt : NonTerminal} (h : nt.index < F.sets.length) :
    F.visit nt = if (F.getD nt.index).size = (F.ofProductions nt.productions).size then (F, false)
      else (F.store nt, true) := by
  rw [visit, get?_eq_some h, Option.map_some]
  by_cases hsize : (F.getD nt.index).size = (F.ofProductions nt.productions).size
  · rw [if_pos hsize, if_pos (congrArg some hsize)]
  · rw [if_neg hsize, if_neg fun heq => hsize (Option.some.inj heq)]
    rfl

/-- What holds of the sets while they are computed. -/
structure Rising (g : Grammar) (F : FirstSets) : Prop where
  /-- the sets belong to the grammar -/
  symbols : F.symbols = g.symbols
  /-- every symbol has a set -/
  length : F.sets.length = g.symbols.length
  /-- a symbol without productions begins with itself -/
  others : ∀ i, i < g.symbols.length → ¬ g.isNonTerminal i → F.getD i = {i}
  /-- recomputing loses nothing -/
  rising : ∀ nt ∈ g.nonTerminals, F.getD nt.index ⊆ F.ofProductions nt.productions
  /-- members are terminals or `ε` -/
  members : ∀ i, ∀ a ∈ F.getD i, a = epsilonIndex ∨ g.isTerminal a

section store

variable (hg : g.WellFormed) (hF : Rising g F)
include hg hF

theorem Rising.index_lt {nt : NonTerminal} (hnt : nt ∈ g.nonTerminals) : nt.index < F.sets.length := by
  rw [hF.length]
  exact hg.index_lt hnt

theorem Rising.production_lt {nt : NonTerminal} (hnt : nt ∈ g.nonTerminals) {production : Production}
    (hp : production ∈ nt.productions) : ∀ i ∈ production, i < F.sets.length := by
  rw [hF.length]
  exact hg.production_lt hnt hp

/-- While sets rise, no set loses a member when it is stored anew. -/
theorem Rising.below_store {nt : NonTerminal} (hnt : nt ∈ g.nonTerminals) : F.Below (F.store nt) where
  length := (List.length_set ..).symm
  subset := by
    intro i
    rw [getD_store (hF.index_lt hg hnt)]
    split
    · next hi => exact hi ▸ hF.rising nt hnt
    · exact SymbolSet.Subset.refl _

/-- Storing a recomputed set keeps all sets rising: recomputing anew starts from more. -/
theorem Rising.store {nt : NonTerminal} (hnt : nt ∈ g.nonTerminals) : Rising g (F.store nt) where
  symbols := hF.symbols
  length := (List.length_set ..).trans hF.length
  others := by
    intro i hi hnot
    have hne : i ≠ nt.index := fun heq => hnot (heq ▸ hg.isNonTerminal_index hnt)
    rw [getD_store (hF.index_lt hg hnt), if_neg hne]
    exact hF.others i hi hnot
  rising := by
    intro other hother
    have hmore := (hF.below_store hg hnt).ofProductions_subset other.productions
    rw [getD_store (hF.index_lt hg hnt)]
    split
    -- the stored set, which is FIRST of the productions before and less than it afterwards
    · next heq =>
      obtain rfl := hg.nonTerminal_ext hother hnt heq
      exact hmore
    · exact SymbolSet.Subset.trans (hF.rising other hother) hmore
  members := by
    intro i a ha
    rw [getD_store (hF.index_lt hg hnt)] at ha
    split at ha
    · obtain ⟨production, hp, ha⟩ := mem_ofProductions.mp ha
      -- a member that is not `ε` was a member of some set
      by_cases h0 : a = epsilonIndex
      · exact Or.inl h0
      · obtain ⟨j, -, hj⟩ := exists_of_mem_ofSequence (hF.production_lt hg hnt hp) ha h0
        exact hF.members j a hj
    · exact hF.members i a ha

end store

/-- At first terminals and `ε` have themselves, and non-terminals nothing. -/
theorem getD_initial {i : Nat} (hi : i < g.symbols.length) :
    (initial g).getD i = if g.isNonTerminal i then ∅ else {i} := by
  have hget : g.symbols[i]? = some g.symbols[i] := List.getElem?_eq_getElem hi
  rw [getD, get?, initial, List.getElem?_map, List.getElem?_zipIdx, hget, Grammar.isNonTerminal,
    Grammar.nonTerminalAt?, hget]
  simp

theorem getD_initial_of_le {i : Nat} (hi : g.symbols.length ≤ i) : (initial g).getD i = ∅ := by
  have hnone : (initial g).sets[i]? = none := by
    rw [List.getElem?_eq_none_iff, initial, List.length_map, List.length_zipIdx]
    exact hi
  rw [getD, get?, hnone]
  rfl

/-- Before the first round no non-terminal has a member that could be lost. -/
theorem rising_initial (hg : g.WellFormed) : Rising g (initial g) where
  symbols := rfl
  length := by rw [initial, List.length_map, List.length_zipIdx]
  others := by
    intro i hi hnot
    rw [getD_initial hi, if_neg hnot]
  rising := by
    intro nt hnt
    rw [getD_initial (hg.index_lt hnt), if_pos (hg.isNonTerminal_index hnt)]
    exact fun a ha => absurd ha (SymbolSet.not_mem_empty a)
  members := by
    intro i a ha
    rcases Nat.lt_or_ge i g.symbols.length with hi | hi
    -- a set that is there is empty, or it is that of a terminal or of epsilon
    · rw [getD_initial hi] at ha
      split at ha
      · exact absurd ha (SymbolSet.not_mem_empty a)
      · next hnot =>
        obtain rfl := SymbolSet.mem_singleton.mp ha
        exact (hg.symbol_cases hi).imp_right fun h => h.resolve_right hnot
    -- a set that is not there is read as empty
    · rw [getD_initial_of_le hi] at ha
      exact absurd ha (SymbolSet.not_mem_empty a)

/-! ## One round -/

theorem symbols_visit (F : FirstSets) (nt : NonTerminal) : (F.visit nt).1.symbols = F.symbols := by
  simp only [visit]
  split <;> rfl

/-- The flag of a round says whether some visit changed something. -/
theorem foldl_visit (nts : List NonTerminal) (F : FirstSets) (changed : Bool) :
    nts.foldl (fun state nt => ((state.1.visit nt).1, state.2 || (state.1.visit nt).2)) (F, changed) =
      ((F.round nts).1, changed || (F.round nts).2) := by
  have hround : ∀ (nts : List NonTerminal) (F : FirstSets), F.round nts =
      nts.foldl (fun state nt => ((state.1.visit nt).1, state.2 || (state.1.visit nt).2)) (F, false) :=
    fun _ _ => rfl
  induction nts generalizing F changed with
  | nil => rw [hround, List.foldl_nil, List.foldl_nil, Bool.or_false]
  | cons nt nts ih => rw [hround, List.foldl_cons, List.foldl_cons, ih, ih, Bool.false_or, Bool.or_assoc]

/-- A round visits the first non-terminal and then the others, which see what it left behind. -/
theorem round_cons (nt : NonTerminal) (nts : List NonTerminal) (F : FirstSets) :
    F.round (nt :: nts) =
      (((F.visit nt).1.round nts).1, (F.visit nt).2 || ((F.visit nt).1.round nts).2) := by
  have hfold := foldl_visit nts (F.visit nt).1 (false || (F.visit nt).2)
  rw [Bool.false_or] at hfold
  exact hfold

/-- What every visit keeps, a round keeps. -/
theorem round_induction {P : FirstSets → Prop} {nts : List NonTerminal}
    (hvisit : ∀ F, ∀ nt ∈ nts, P F → P (F.visit nt).1) {F : FirstSets} (h : P F) :
    P (F.round nts).1 := by
  induction nts generalizing F with
  | nil => exact h
  | cons nt nts ih =>
    rw [round_cons]
    exact ih (fun F other hother => hvisit F other (List.mem_cons_of_mem nt hother))
      (hvisit F nt List.mem_cons_self h)

/-- **A visit keeps the sets rising.** -/
theorem Rising.visit (hg : g.WellFormed) (hF : Rising g F) {nt : NonTerminal}
    (hnt : nt ∈ g.nonTerminals) : Rising g (F.visit nt).1 ∧ F.Below (F.visit nt).1 := by
  rw [visit_eq (hF.index_lt hg hnt)]
  split
  · exact ⟨hF, Below.refl F⟩
  · exact ⟨hF.store hg hnt, hF.below_store hg hnt⟩

/-- Every set is the one recomputed from the productions. -/
def Stable (nts : List NonTerminal) (F : FirstSets) : Prop :=
  ∀ nt ∈ nts, F.getD nt.index = F.ofProductions nt.productions

/-- **A round is sound**: it keeps the sets rising, and either finds all its sets stable and stores nothing,
or makes one of them larger. -/
theorem Rising.round (hg : g.WellFormed) {nts : List NonTerminal} (hnts : nts ⊆ g.nonTerminals)
    (hF : Rising g F) :
    Rising g (F.round nts).1 ∧ F.Below (F.round nts).1 ∧
      ((F.round nts).2 = false → (F.round nts).1 = F ∧ Stable nts F) ∧
      ((F.round nts).2 = true →
        ∃ nt ∈ nts, (F.getD nt.index).size < ((F.round nts).1.getD nt.index).size) := by
  induction nts generalizing F with
  | nil => exact ⟨hF, Below.refl F, fun _ => ⟨rfl, fun _ h => absurd h List.not_mem_nil⟩, fun h => by cases h⟩
  | cons nt nts ih =>
    have hnt : nt ∈ g.nonTerminals := hnts List.mem_cons_self
    obtain ⟨hrising, hbelow⟩ := hF.visit hg hnt
    obtain ⟨hrising', hbelow', hstable, hgrown⟩ := ih (fun _ h => hnts (List.mem_cons_of_mem nt h)) hrising
    rw [round_cons]
    refine ⟨hrising', hbelow.trans hbelow', ?_⟩
    have hindex := hF.index_lt hg hnt
    by_cases hsize : (F.getD nt.index).size = (F.ofProductions nt.productions).size
    -- the recomputed set includes the stored one and has its size, so it is the stored one
    · have hvisit : F.visit nt = (F, false) := by rw [visit_eq hindex, if_pos hsize]
      have heq := SymbolSet.eq_of_subset_of_size_le (hF.rising nt hnt) (Nat.le_of_eq hsize.symm)
      rw [hvisit] at hstable hgrown ⊢
      refine ⟨?_, ?_⟩
      · intro hchanged
        obtain ⟨hsame, hst⟩ := hstable hchanged
        refine ⟨hsame, fun other hother => ?_⟩
        rcases List.mem_cons.mp hother with rfl | hother
        · exact heq
        · exact hst other hother
      · intro hchanged
        obtain ⟨other, hother, hlt⟩ := hgrown hchanged
        exact ⟨other, List.mem_cons_of_mem nt hother, hlt⟩
    · have hvisit : F.visit nt = (F.store nt, true) := by rw [visit_eq hindex, if_neg hsize]
      rw [hvisit] at hbelow' ⊢
      refine ⟨fun hchanged => (by cases hchanged), fun _ => ⟨nt, List.mem_cons_self, ?_⟩⟩
      have hlt := SymbolSet.size_lt_of_subset (hF.rising nt hnt) hsize
      have hle := SymbolSet.size_le_of_subset (hbelow'.subset nt.index)
      rw [getD_store hindex, if_pos rfl] at hle
      exact Nat.lt_of_lt_of_le hlt hle

/-! ## All rounds -/

theorem stabilise_succ (nts : List NonTerminal) (rounds : Nat) (F : FirstSets) :
    stabilise nts (rounds + 1) F =
      if (F.round nts).2 then stabilise nts rounds (F.round nts).1 else (F.round nts).1 := rfl

/-- What every visit keeps, the rounds keep. -/
theorem stabilise_induction {P : FirstSets → Prop} {nts : List NonTerminal}
    (hvisit : ∀ F, ∀ nt ∈ nts, P F → P (F.visit nt).1) {rounds : Nat} {F : FirstSets} (h : P F) :
    P (stabilise nts rounds F) := by
  induction rounds generalizing F with
  | zero => exact h
  | succ rounds ih =>
    have hround := round_induction hvisit h
    rw [stabilise_succ]
    split
    · exact ih hround
    · exact hround

/-- The members of the sets of all non-terminals. -/
def total (nts : List NonTerminal) (F : FirstSets) : Nat :=
  (nts.map fun nt => (F.getD nt.index).size).sum

/-- The sizes of all sets together are bounded by the number of sets times a bound on each. -/
theorem total_le {nts : List NonTerminal} {bound : Nat} (h : ∀ nt ∈ nts, (F.getD nt.index).size ≤ bound) :
    total nts F ≤ nts.length * bound := by
  have hsum := List.sum_le_card_nsmul (nts.map fun nt => (F.getD nt.index).size) bound (by simpa using h)
  rwa [List.length_map, smul_eq_mul] at hsum

/-- **Enough rounds reach a fixpoint**: with at most `bound` members in a set, every round but the last
uses up one of the members still possible. -/
theorem Rising.stable_stabilise (hg : g.WellFormed) (hF : Rising g F) (bound : Nat) {rounds : Nat}
    (hbound : ∀ F, Rising g F → ∀ nt ∈ g.nonTerminals, (F.getD nt.index).size ≤ bound)
    (hrounds : g.nonTerminals.length * bound < rounds + total g.nonTerminals F) :
    Stable g.nonTerminals (stabilise g.nonTerminals rounds F) := by
  induction rounds generalizing F with
  | zero =>
    have hle : total g.nonTerminals F ≤ g.nonTerminals.length * bound := total_le (hbound F hF)
    omega
  | succ rounds ih =>
    obtain ⟨hrising, hbelow, hstable, hgrown⟩ := hF.round hg (List.Subset.refl g.nonTerminals)
    rw [stabilise_succ]
    rcases hchanged : (F.round g.nonTerminals).2 with - | -
    · obtain ⟨hsame, hst⟩ := hstable hchanged
      rw [if_neg Bool.false_ne_true, hsame]
      exact hst
    · rw [if_pos rfl]
      refine ih hrising ?_
      have hlt : total g.nonTerminals F < total g.nonTerminals (F.round g.nonTerminals).1 :=
        List.sum_lt_sum _ _ (fun nt _ => SymbolSet.size_le_of_subset (hbelow.subset nt.index))
          (hgrown hchanged)
      omega

end FirstSets

namespace Grammar

variable {g : Grammar}

namespace WellFormed

variable (hg : g.WellFormed)
include hg

/-- So the sets that the rounds end with have risen. -/
theorem first_rising : FirstSets.Rising g g.first :=
  FirstSets.stabilise_induction (fun _ _ hnt hF => (hF.visit hg hnt).1) (FirstSets.rising_initial hg)

/-- **The FIRST sets are a fixpoint**: recomputing any of them changes nothing. -/
theorem first_stable : FirstSets.Stable g.nonTerminals g.first := by
  refine (FirstSets.rising_initial hg).stable_stabilise hg g.memberBound ?_
    (Nat.lt_add_right _ (Nat.lt_succ_self _))
  intro F hF nt hnt
  have hmembers : ∀ a ∈ F.getD nt.index, a ∈ List.range g.symbols.length := by
    intro a ha
    rw [List.mem_range]
    rcases hF.members nt.index a ha with rfl | h
    · exact hg.epsilon_lt
    · exact lt_of_isTerminal h
  have hsize := SymbolSet.size_le_length hmembers
  rw [List.length_range] at hsize
  exact Nat.le_trans hsize (Nat.le_add_right _ _)

end WellFormed

end Grammar

end PredictiveGrammar
