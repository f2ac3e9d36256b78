import PredictiveGrammar.Analysis.Follow
import PredictiveGrammar.Proofs.FirstExact
import PredictiveGrammar.Proofs.Worklists

/-!
# FOLLOW sets are a least closure

What the computation of FOLLOW sets adds to given ones, said without worklists: FIRST of what stands behind an
occurrence, and FOLLOW of the left side where what stands behind can vanish (`Grammar.Carried`).
`Grammar.extendFollow` answers with exactly that (`Grammar.mem_extendFollow`), whatever the grammar is.
-/

namespace PredictiveGrammar

namespace Grammar

variable {g : Grammar} {F : FirstSets} {sets : SetFamily} {o : Occurrence} {a k l : Nat}

/-! ## Occurrences -/

theorem mem_occurrencesIn {left : Nat} {production : Production} :
    o ∈ g.occurrencesIn left production ↔
      o.left = left ∧ g.isNonTerminal o.symbol ∧ ∃ before, production = before ++ o.symbol :: o.rest := by
  induction production with
  | nil => simp [occurrencesIn]
  | cons symbol rest ih =>
    -- the symbol stands in front of the rest, or within it
    have htail : (∃ before, symbol :: rest = before ++ o.symbol :: o.rest) ↔
        symbol = o.symbol ∧ rest = o.rest ∨ ∃ before, rest = before ++ o.symbol :: o.rest := by
      refine ⟨?_, ?_⟩
      · rintro ⟨before, h⟩
        cases before with
        | nil => exact Or.inl (List.cons.inj h)
        | cons b before => exact Or.inr ⟨before, (List.cons.inj h).2⟩
      · rintro (⟨rfl, rfl⟩ | ⟨before, h⟩)
        · exact ⟨[], rfl⟩
        · exact ⟨symbol :: before, congrArg (symbol :: ·) h⟩
    rw [occurrencesIn, htail]
    by_cases hsymbol : g.isNonTerminal symbol
    · rw [if_pos hsymbol, List.mem_cons, ih]
      refine ⟨?_, ?_⟩
      · rintro (rfl | ⟨hleft, hnt, hbefore⟩)
        · exact ⟨rfl, hsymbol, Or.inl ⟨rfl, rfl⟩⟩
        · exact ⟨hleft, hnt, Or.inr hbefore⟩
      · rintro ⟨rfl, hnt, ⟨rfl, rfl⟩ | hbefore⟩
        · exact Or.inl rfl
        · exact Or.inr ⟨rfl, hnt, hbefore⟩
    · rw [if_neg hsymbol, ih]
      refine ⟨?_, ?_⟩
      · rintro ⟨hleft, hnt, hbefore⟩
        exact ⟨hleft, hnt, Or.inr hbefore⟩
      · rintro ⟨hleft, hnt, ⟨rfl, -⟩ | hbefore⟩
        · exact absurd hnt hsymbol
        · exact ⟨hleft, hnt, hbefore⟩

/-- An occurrence is a non-terminal at some place of some production. -/
theorem mem_occurrences :
    o ∈ g.occurrences ↔ ∃ nt ∈ g.nonTerminals, ∃ production ∈ nt.productions,
      o.left = nt.index ∧ g.isNonTerminal o.symbol ∧ ∃ before, production = before ++ o.symbol :: o.rest := by
  simp only [occurrences, List.mem_flatMap, mem_occurrencesIn]

/-! ## What is added and where it flows -/

/-- Before anything flows, a set has what it was given and FIRST of what stands behind an occurrence, without `ε`. -/
theorem mem_directFollow :
    a ∈ (g.directFollow F sets).getD k ↔
      a ∈ sets.getD k ∨ ∃ o ∈ g.occurrences, o.symbol = k ∧ a ∈ F.ofSequence o.rest ∧ a ≠ epsilonIndex := by
  rw [directFollow, SetFamily.mem_getD_foldl_add, SetFamily.mem_getD_foldl_add]
  simp

/-- FOLLOW flows from a left side to another symbol that can stand at the end of a production of it. -/
theorem mem_followEdges :
    l ∈ (g.followEdges F).getD k ↔
      ∃ o ∈ g.occurrences, o.left = k ∧ o.symbol = l ∧ epsilonIndex ∈ F.ofSequence o.rest ∧
        o.symbol ≠ o.left := by
  have hfilter : g.followEdges F =
      (g.occurrences.filter fun o => epsilonIndex ∈ F.ofSequence o.rest ∧ o.symbol ≠ o.left).foldl
        (fun edges o => edges.add o.left {o.symbol}) ∅ := by
    rw [followEdges, List.foldl_filter]
    simp only [decide_eq_true_eq]
  rw [hfilter, SetFamily.mem_getD_foldl_add]
  refine ⟨?_, ?_⟩
  · rintro (h | ⟨o, ho, hleft, hl⟩)
    · exact absurd h (SetFamily.not_mem_getD_empty l k)
    · obtain ⟨ho, hcond⟩ := List.mem_filter.mp ho
      exact ⟨o, ho, hleft, (SymbolSet.mem_singleton.mp hl).symm, of_decide_eq_true hcond⟩
  · rintro ⟨o, ho, hleft, rfl, hcond⟩
    exact Or.inr ⟨o, List.mem_filter.mpr ⟨ho, decide_eq_true hcond⟩, hleft, SymbolSet.mem_singleton.mpr rfl⟩

/-! ## The closure -/

/-- What FOLLOW sets have to hold if they hold given ones. -/
inductive Carried (g : Grammar) (F : FirstSets) (sets : SetFamily) : Nat → Nat → Prop
  /-- what is given -/
  | given {k a : Nat} : a ∈ sets.getD k → Carried g F sets k a
  /-- what can begin behind an occurrence -/
  | first {o : Occurrence} {a : Nat} : o ∈ g.occurrences → a ∈ F.ofSequence o.rest → a ≠ epsilonIndex →
      Carried g F sets o.symbol a
  /-- what can follow the left side, if what stands behind an occurrence can vanish -/
  | left {o : Occurrence} {a : Nat} : o ∈ g.occurrences → epsilonIndex ∈ F.ofSequence o.rest →
      Carried g F sets o.left a → Carried g F sets o.symbol a

/-- **What is carried along productions** is what flows along the edges. -/
theorem carried_iff : g.Carried F sets k a ↔ (g.directFollow F sets).Flows (g.followEdges F) k a := by
  refine ⟨?_, ?_⟩
  · intro h
    induction h with
    | given ha => exact .seed (mem_directFollow.mpr (Or.inl ha))
    | first ho ha hne => exact .seed (mem_directFollow.mpr (Or.inr ⟨_, ho, rfl, ha, hne⟩))
    | @left o a ho h0 _ ih =>
      by_cases heq : o.symbol = o.left
      -- such edges are left out, and are not needed
      · exact heq ▸ ih
      · exact .edge (mem_followEdges.mpr ⟨o, ho, rfl, rfl, h0, heq⟩) ih
  · intro h
    induction h with
    | seed ha =>
      rcases mem_directFollow.mp ha with ha | ⟨o, ho, rfl, ha, hne⟩
      · exact .given ha
      · exact .first ho ha hne
    | edge hl _ ih =>
      obtain ⟨o, ho, rfl, rfl, h0, -⟩ := mem_followEdges.mp hl
      exact .left ho h0 ih

/-- The non-terminals have sets afterwards, also those that no production mentions. -/
theorem mem_keys_directFollow :
    k ∈ (g.directFollow F sets).keys ↔
      k ∈ sets.keys ∨ (∃ nt ∈ g.nonTerminals, nt.index = k) ∨ ∃ o ∈ g.occurrences, o.symbol = k := by
  rw [directFollow, SetFamily.mem_keys_foldl_add, SetFamily.mem_keys_foldl_add, or_assoc]

/-- Edges lead to sets that are there. -/
theorem followEdges_target : ∀ k, ∀ l ∈ (g.followEdges F).getD k, l ∈ (g.directFollow F sets).keys := by
  intro k l hl
  obtain ⟨o, ho, -, rfl, -⟩ := mem_followEdges.mp hl
  exact mem_keys_directFollow.mpr (Or.inr (Or.inr ⟨o, ho, rfl⟩))

/-- **The answer is the least closure** of the sets given. -/
theorem mem_extendFollow {W : FollowSets} (hF : F.isFor g) (hW : W.isFor g) :
    ∃ W', g.extendFollow F W = .ok W' ∧
      (∀ k, k ∈ W'.sets.keys ↔ k ∈ (g.directFollow F W.sets).keys) ∧
      (∀ k a, a ∈ W'.sets.getD k ↔ g.Carried F W.sets k a) ∧ W'.isFor g := by
  refine ⟨{ W with sets := (g.directFollow F W.sets).propagate (g.followEdges F) }, ?_, ?_, ?_, hW⟩
  · rw [extendFollow, checkSets_eq hF hW]
    rfl
  · exact fun k => SetFamily.mem_keys_propagate followEdges_target
  · intro k a
    rw [SetFamily.mem_propagate followEdges_target]
    exact carried_iff.symm

/-- In a well-formed grammar the sets added are those of the non-terminals. -/
theorem WellFormed.mem_keys_directFollow (hg : g.WellFormed) :
    k ∈ (g.directFollow F sets).keys ↔ k ∈ sets.keys ∨ g.isNonTerminal k := by
  rw [Grammar.mem_keys_directFollow]
  refine or_congr_right ⟨?_, fun h => Or.inl (hg.exists_nonTerminal h)⟩
  rintro (⟨nt, hnt, rfl⟩ | ⟨o, ho, rfl⟩)
  · exact hg.isNonTerminal_index hnt
  · obtain ⟨-, -, -, -, -, hsymbol, -⟩ := mem_occurrences.mp ho
    exact hsymbol

/-- FIRST sets belong to the grammar that they were computed from. -/
theorem isFor_first (g : Grammar) : g.first.isFor g :=
  decide_eq_true (FirstSets.stabilise_induction (P := fun F => F.symbols = g.symbols)
    (fun F nt _ hF => (FirstSets.symbols_visit F nt).trans hF) rfl)

theorem isFor_seed (g : Grammar) : (FollowSets.seed g).isFor g := decide_eq_true ⟨rfl, rfl⟩

/-- The seed holds the end mark for the start symbol. -/
theorem mem_seed : a ∈ (FollowSets.seed g).sets.getD k ↔ g.start = some k ∧ a = endMarkIndex := by
  rw [FollowSets.seed]
  rcases g.start with - | start
  · simp
  · rw [SetFamily.mem_getD_add, SymbolSet.mem_singleton, Option.some.injEq, eq_comm]
    simp

/-- At first only the start symbol has a set. -/
theorem mem_keys_seed : k ∈ (FollowSets.seed g).sets.keys ↔ g.start = some k := by
  rw [FollowSets.seed]
  rcases g.start with - | start
  · simp [SetFamily.mem_keys_iff]
  · rw [SetFamily.mem_keys_add, Option.some.injEq, eq_comm]
    simp [SetFamily.mem_keys_iff]

/-- FOLLOW sets are the sets of a worklist that has run empty. -/
theorem exists_drained {W : FollowSets} (h : g.follow g.first = .ok W) :
    ∃ steps state, state = Worklist.run (g.followEdges g.first) steps
      (.initial (g.directFollow g.first (FollowSets.seed g).sets)) ∧ state.sets = W.sets ∧ state.queue = [] := by
  rw [follow, extendFollow, checkSets_eq g.isFor_first g.isFor_seed] at h
  have hsets : (g.directFollow g.first (FollowSets.seed g).sets).propagate (g.followEdges g.first) = W.sets :=
    congrArg FollowSets.sets (Except.ok.inj h)
  obtain ⟨-, hqueue⟩ := (Worklist.Sound.initial 0).run (followEdges_target (F := g.first))
    (Worklist.potential_initial (g.directFollow g.first (FollowSets.seed g).sets))
  exact ⟨_, _, rfl, hsets, hqueue⟩

end Grammar

end PredictiveGrammar
