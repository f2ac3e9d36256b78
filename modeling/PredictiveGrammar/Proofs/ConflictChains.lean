import Mathlib.Data.List.Chain
import PredictiveGrammar.Proofs.ConflictCounts
import PredictiveGrammar.Proofs.TableCells

/-!
# What the conflicts of a table report

A conflict arises where a production is to be used for a terminal that an earlier production of the same non-terminal
was to be used for, and it names the last one of these (`clashesAfter_claims`). So in one cell the conflicts lead from
each production that claims it to the next one (`filter_clashesAfter`). The conflicts of a built grammar are the ones
that there should be, in order, and there are none exactly if no two productions of a non-terminal are to be used for
the same terminal (`Grammar.Built.conflicts_exact`).
-/

namespace PredictiveGrammar

/-! ## Neighbours in a list -/

section Neighbours

variable {α β : Type}

/-- Every element of a list but the last, with the next one. -/
def neighbours (l : List α) : List (α × α) := l.zip l.tail

theorem neighbours_cons_cons (a b : α) (l : List α) : neighbours (a :: b :: l) = (a, b) :: neighbours (b :: l) := rfl

theorem neighbours_map (f : α → β) (l : List α) : neighbours (l.map f) = (neighbours l).map (Prod.map f f) := by
  rw [neighbours, ← List.map_tail, List.zip_map]
  rfl

theorem map_snd_neighbours (l : List α) : (neighbours l).map Prod.snd = l.tail :=
  List.map_snd_zip (by simp)

theorem map_fst_neighbours (l : List α) : (neighbours l).map Prod.fst = l.dropLast := by
  induction l with
  | nil => rfl
  | cons a l ih =>
    cases l with
    | nil => rfl
    | cons b l => rw [neighbours_cons_cons, List.map_cons, ih, List.dropLast_cons_cons]

/-- The second of a pair is the first of the next one. -/
theorem isChain_neighbours (l : List α) : (neighbours l).IsChain fun e e' => e.2 = e'.1 := by
  rw [List.isChain_iff_getElem]
  intro i hi
  simp [neighbours]

end Neighbours

/-! ## Clashes one after the other -/

section Clashes

variable {earlier made made' : List (Nat × Production)} {F : FirstSets} {W : FollowSets} {nt : NonTerminal}
  {production : Production}

/-- Claims that come later clash with all that were made before. -/
theorem clashesAfter_append :
    clashesAfter earlier (made ++ made') =
      clashesAfter earlier made ++ clashesAfter (made.reverse ++ earlier) made' := by
  induction made generalizing earlier with
  | nil => rfl
  | cons c made ih =>
    obtain ⟨terminal, production⟩ := c
    rw [List.cons_append, clashesAfter, clashesAfter, ih, List.append_assoc, List.reverse_cons, List.append_assoc]
    rfl

/-- The claims of one production do not clash with each other. -/
theorem clashesAfter_map {terminals : List Nat} (hnodup : terminals.Nodup) :
    clashesAfter earlier (terminals.map fun terminal => (terminal, production)) =
      terminals.filterMap fun terminal =>
        (earlier.lookup terminal).map fun holder => ⟨terminal, holder, production⟩ := by
  induction terminals generalizing earlier with
  | nil => rfl
  | cons terminal terminals ih =>
    obtain ⟨hnot, hnodup⟩ := List.nodup_cons.mp hnodup
    have hrest : terminals.filterMap (fun other => (((terminal, production) :: earlier).lookup other).map
          fun holder => (⟨other, holder, production⟩ : Clash)) =
        terminals.filterMap fun other => (earlier.lookup other).map fun holder => ⟨other, holder, production⟩ := by
      refine List.filterMap_congr fun other hother => ?_
      have hne : other ≠ terminal := fun heq => hnot (heq ▸ hother)
      rw [SetFamily.lookup_cons_eq_ite, if_neg hne]
    rw [List.map_cons, clashesAfter, ih hnodup, hrest, List.filterMap_cons]
    cases earlier.lookup terminal with
    | none => rfl
    | some holder => rfl

/-- **The clashes of a cell** lead from each production that claims it to the next one. -/
theorem filter_clashesAfter (terminal : Nat) :
    (clashesAfter earlier made).filter (·.terminal = terminal) =
      (neighbours ((earlier.lookup terminal).toList ++ (made.filter (·.1 = terminal)).map (·.2))).map
        fun e => ⟨terminal, e.1, e.2⟩ := by
  induction made generalizing earlier with
  | nil =>
    cases earlier.lookup terminal with
    | none => rfl
    | some holder => rfl
  | cons c made ih =>
    obtain ⟨other, production⟩ := c
    rw [clashesAfter, List.filter_append, ih, SetFamily.lookup_cons_eq_ite]
    by_cases h : terminal = other
    · subst h
      cases earlier.lookup terminal with
      | none => simp
      | some holder => simp [neighbours_cons_cons]
    · cases earlier.lookup other with
      | none => simp [h, Ne.symm h]
      | some holder => simp [h, Ne.symm h]

/-- **The clashes of a row** stand in the order of the productions and of the terminals that they are to be used for,
and each is with the last production before that is to be used for the terminal. -/
theorem clashesAfter_claims (before productions : List Production) :
    clashesAfter (claims F W { nt with productions := before }).reverse (claims F W { nt with productions }) =
      (productions.zipIdx before.length).flatMap fun e =>
        (predict F W nt.index e.1).toList.filterMap fun terminal =>
          (((before ++ productions).take e.2).filter (terminal ∈ predict F W nt.index ·)).getLast?.map
            fun holder => ⟨terminal, holder, e.1⟩ := by
  induction productions generalizing before with
  | nil => rfl
  | cons production productions ih =>
    have hlater := ih (before ++ [production])
    -- the claims of a production come behind those before it, and in front of the others
    have hclaims : claims F W { nt with productions := before ++ [production] } =
        claims F W { nt with productions := before } ++
          (predict F W nt.index production).toList.map fun terminal => (terminal, production) := by
      simp [claims]
    have hcons : claims F W { nt with productions := production :: productions } =
        ((predict F W nt.index production).toList.map fun terminal => (terminal, production)) ++
          claims F W { nt with productions } := by
      simp [claims]
    rw [hclaims, List.reverse_append, List.append_assoc, List.singleton_append, List.length_append,
      List.length_singleton] at hlater
    rw [hcons, clashesAfter_append, clashesAfter_map (SymbolSet.nodup_toList _), List.zipIdx_cons,
      List.flatMap_cons, List.take_left]
    refine congrArg₂ (· ++ ·) (List.filterMap_congr fun terminal _ => ?_) hlater
    rw [lookup_claims_eq]

end Clashes

/-! ## What should be reported -/

/-- The conflicts of one cell. -/
def Table.conflictsAt (T : Table) (nonTerminal terminal : String) : List Conflict :=
  T.conflicts.filter fun c => c.nonTerminal = nonTerminal ∧ c.terminal = terminal

/-- The conflicts of a cell tell how it passed from each of the productions that claimed it to the next one. -/
structure Table.Chained (T : Table) (nonTerminal terminal : String) (claimants : List (List String)) : Prop where
  /-- there is one less than there are productions, if there are any -/
  count : (T.conflictsAt nonTerminal terminal).length = claimants.length - 1
  /-- the productions but the last one were replaced, in order -/
  replaced : (T.conflictsAt nonTerminal terminal).map Conflict.replaced = claimants.dropLast
  /-- the productions but the first one were chosen, in order -/
  chosen : (T.conflictsAt nonTerminal terminal).map Conflict.chosen = claimants.tail
  /-- what one conflict chose, the next one replaced -/
  linked : (T.conflictsAt nonTerminal terminal).IsChain fun c c' => c.chosen = c'.replaced
  /-- what the last one chose, the cell holds -/
  last : ∀ c, (T.conflictsAt nonTerminal terminal).getLast? = some c → T.get? nonTerminal terminal = some c.chosen

/-- The neighbours among the productions that claimed a cell make up its conflicts. -/
theorem Table.chained_of_neighbours {T : Table} {nonTerminal terminal : String} {claimants : List (List String)}
    (hconflicts : T.conflictsAt nonTerminal terminal =
      (neighbours claimants).map fun e => ⟨nonTerminal, terminal, e.1, e.2⟩)
    (hcell : T.get? nonTerminal terminal = claimants.getLast?) : T.Chained nonTerminal terminal claimants where
  count := by
    rw [hconflicts, List.length_map, ← List.length_map Prod.snd, map_snd_neighbours, List.length_tail]
  replaced := by
    rw [hconflicts, List.map_map]
    exact map_fst_neighbours claimants
  chosen := by
    rw [hconflicts, List.map_map]
    exact map_snd_neighbours claimants
  linked := by
    rw [hconflicts, List.isChain_map]
    exact isChain_neighbours claimants
  last := by
    intro c hc
    rw [hconflicts, List.getLast?_map, Option.map_eq_some_iff] at hc
    obtain ⟨e, he, rfl⟩ := hc
    -- the last of several is the last behind the first
    have htail : claimants.tail.getLast? = some e.2 := by
      rw [← map_snd_neighbours, List.getLast?_map, he]
      rfl
    rw [List.getLast?_tail] at htail
    split at htail
    · cases htail
    · exact hcell.trans htail

namespace Grammar

/-- The terminals that a production is to be used for, in order of their indices. -/
def lookaheads (g : Grammar) (W : FollowSets) (nt : NonTerminal) (production : Production) : List Nat :=
  (List.range g.symbols.length).filter (g.Selects W nt production ·)

/-- The last production before a place that is to be used for a terminal. -/
def lastBefore? (g : Grammar) (W : FollowSets) (nt : NonTerminal) (place terminal : Nat) : Option Production :=
  ((nt.productions.take place).filter (g.Selects W nt · terminal)).getLast?

/-- The conflicts that there should be: going through the non-terminals, the productions of each, and the terminals that
each is to be used for, one wherever an earlier production is to be used for the terminal as well. -/
def overwrites (g : Grammar) (W : FollowSets) : List Conflict :=
  g.nonTerminals.flatMap fun nt => nt.productions.zipIdx.flatMap fun (production, place) =>
    (g.lookaheads W nt production).filterMap fun terminal =>
      (g.lastBefore? W nt place terminal).map fun earlier =>
        { nonTerminal := nt.name
          terminal := g.label terminal
          replaced := earlier.map g.label
          chosen := production.map g.label }

end Grammar

/-- What the conflicts of a table should say about a grammar with these FOLLOW sets. -/
structure Table.Diagnoses (T : Table) (g : Grammar) (W : FollowSets) : Prop where
  /-- they are the ones that there should be, in order -/
  conflicts : T.conflicts = g.overwrites W
  /-- those of one cell lead from each production that claims it to the next one -/
  cells : ∀ nt ∈ g.nonTerminals, ∀ terminal name, g.isTerminal terminal → g.nameOf terminal = .ok name →
    T.Chained nt.name name ((nt.productions.filter (g.Selects W nt · terminal)).map (·.map g.label))
  /-- there are none exactly if no two productions of a non-terminal, by place, are to be used for the same terminal -/
  eq_nil_iff : T.conflicts = [] ↔ ∀ nt ∈ g.nonTerminals, nt.productions.Pairwise fun production later =>
    ∀ terminal, g.Selects W nt production terminal → ¬ g.Selects W nt later terminal

/-! ## What is reported -/

namespace Grammar

variable {g : Grammar} {W : FollowSets} {nt : NonTerminal} {production : Production} {terminal : Nat}

theorem filter_selects (productions : List Production) (terminal : Nat) :
    productions.filter (g.Selects W nt · terminal) =
      productions.filter (terminal ∈ predict g.first W nt.index ·) :=
  List.filter_congr fun _ _ => decide_eq_decide.mpr selects_iff

namespace WellFormed

variable (hg : g.WellFormed) (hW : W.Exact g)
include hg hW

/-- The terminals that a production is used for, in ascending order. -/
theorem lookaheads_eq (hnt : nt ∈ g.nonTerminals) (hp : production ∈ nt.productions) :
    g.lookaheads W nt production = (predict g.first W nt.index production).toList := by
  have hset : (⟨g.lookaheads W nt production, List.pairwise_lt_range.filter _⟩ : SymbolSet) =
      predict g.first W nt.index production := by
    ext a
    change a ∈ g.lookaheads W nt production ↔ _
    rw [lookaheads, List.mem_filter, List.mem_range, decide_eq_true_iff, selects_iff, and_iff_right_iff_imp]
    exact fun ha => lt_of_isTerminal (hg.isTerminal_of_mem_predict hW hnt hp ha)
  exact congrArg SymbolSet.toList hset

/-- The conflicts are the ones that there should be. -/
theorem conflicts_eq : (g.namedTable g.first W).conflicts = g.overwrites W := by
  rw [namedTable, fills, List.flatMap_map, overwrites]
  refine List.flatMap_congr fun nt hnt => ?_
  have hclashes : (g.fillRow g.first W nt).clashes = nt.productions.zipIdx.flatMap fun e =>
      (predict g.first W nt.index e.1).toList.filterMap fun terminal =>
        ((nt.productions.take e.2).filter (terminal ∈ predict g.first W nt.index ·)).getLast?.map
          fun holder => ⟨terminal, holder, e.1⟩ := by
    rw [hg.fillRow_claims (hg.isTerminal_of_mem_claims hW) hnt]
    exact clashesAfter_claims [] nt.productions
  rw [hclashes, List.map_flatMap]
  refine List.flatMap_congr fun e he => ?_
  obtain ⟨production, place⟩ := e
  have hp : production ∈ nt.productions := List.fst_mem_of_mem_zipIdx he
  dsimp only
  rw [List.map_filterMap, hg.lookaheads_eq hW hnt hp]
  refine List.filterMap_congr fun terminal _ => ?_
  rw [lastBefore?, filter_selects, Option.map_map]
  rfl

/-- The conflicts of a cell lead from each production that claims it to the next one. -/
theorem chained (hnt : nt ∈ g.nonTerminals) (hterminal : g.isTerminal terminal) :
    (g.namedTable g.first W).Chained nt.name (g.label terminal)
      ((nt.productions.filter (g.Selects W nt · terminal)).map (·.map g.label)) := by
  have hclaims := hg.isTerminal_of_mem_claims hW
  rw [filter_selects]
  refine Table.chained_of_neighbours ?_ ?_
  · have hsplit : (g.namedTable g.first W).conflictsAt nt.name (g.label terminal) =
        ((g.namedTable g.first W).conflicts.filter (·.nonTerminal = nt.name)).filter
          (·.terminal = g.label terminal) := by
      rw [Table.conflictsAt, List.filter_filter]
      exact List.filter_congr fun c _ => by simp [Bool.and_comm]
    -- names of terminals are unique, so the clashes for the name are those for the terminal
    have hlabel : ∀ clash ∈ clashesAfter [] (claims g.first W nt),
        g.label clash.terminal = g.label terminal ↔ clash.terminal = terminal := by
      intro clash hclash
      have hlt := lt_of_isTerminal (hclaims nt hnt _ (mem_of_mem_clashesAfter hclash).1)
      exact ⟨hg.label_inj hlt (lt_of_isTerminal hterminal), congrArg g.label⟩
    rw [hsplit, hg.filter_conflicts hclaims hnt, List.filter_map]
    have hfilter : (clashesAfter [] (claims g.first W nt)).filter
          ((fun c : Conflict => decide (c.terminal = g.label terminal)) ∘ g.namedClash nt) =
        (clashesAfter [] (claims g.first W nt)).filter (·.terminal = terminal) :=
      List.filter_congr fun clash hclash => decide_eq_decide.mpr (hlabel clash hclash)
    rw [hfilter, filter_clashesAfter, filter_claims, neighbours_map, List.map_map, List.map_map]
    rfl
  · rw [hg.get?_named hclaims hnt hterminal, lookup_claims_eq, List.getLast?_map]

/-- **The conflicts say what they should.** -/
theorem diagnoses_namedTable : (g.namedTable g.first W).Diagnoses g W where
  conflicts := hg.conflicts_eq hW
  cells := by
    intro nt hnt terminal name hterminal hname
    obtain ⟨-, rfl⟩ := nameOf_eq_ok_iff.mp hname
    exact hg.chained hW hnt hterminal
  eq_nil_iff := by
    rw [hg.conflicts_eq_nil_iff (hg.isTerminal_of_mem_claims hW)]
    refine forall₂_congr fun nt _ => ?_
    rw [clashesAfter_claims_eq_nil_iff]
    simp only [selects_iff]

end WellFormed

/-! ## In built grammars -/

/-- **Conflict diagnostics are exact.** Going through the non-terminals of a built grammar, the productions of each, and
the terminals that each is to be used for, the table reports a conflict wherever an earlier production is to be used for
the terminal as well, with the last such one. So the conflicts of a cell are one less than the productions that claim it
and lead from each to the next one and to what the cell holds, and there are none exactly if the productions of each
non-terminal are to be used for different terminals. -/
theorem Built.conflicts_exact (hg : g.Built) :
    ∃ W T, g.follow g.first = .ok W ∧ g.table g.first W = .ok T ∧ T.Diagnoses g W := by
  have hwf := hg.wellFormed
  obtain ⟨W, hfollow, hW⟩ := hwf.follow_eq
  exact ⟨W, _, hfollow, hwf.table_own hW, hwf.diagnoses_namedTable hW⟩

/-- A grammar in which every alternative of `A` is to be used for `a`, and two of them are equal. -/
def claimedInTurn : Grammar := .ofRules [⟨"S", [["A", "a"]]⟩, ⟨"A", [["a"], ["B"], ["a"]]⟩, ⟨"B", [["a"], []]⟩]

/-- There the cell of `A` and `a` passed from `a` to `B` and back. -/
theorem Built.conflicts_exact_claimedInTurn :
    claimedInTurn.Built ∧ ∃ W T, claimedInTurn.follow claimedInTurn.first = .ok W ∧
      claimedInTurn.table claimedInTurn.first W = .ok T ∧
      (T.conflictsAt "A" "a").map Conflict.replaced = [["a"], ["B"]] ∧
      (T.conflictsAt "A" "a").map Conflict.chosen = [["B"], ["a"]] ∧ T.get? "A" "a" = some ["a"] := by
  have hbuilt : claimedInTurn.Built := .ofRules _
  obtain ⟨W, T, hW, hT, hdiagnoses⟩ := Built.conflicts_exact hbuilt
  have hA : ⟨3, "A", [[5], [4], [5]]⟩ ∈ claimedInTurn.nonTerminals := by decide
  have hselects : ∀ production ∈ [[5], [4], [5]],
      claimedInTurn.Selects W ⟨3, "A", [[5], [4], [5]]⟩ production 5 := by
    intro production hp
    exact Or.inl (by revert production; decide)
  have hcell := hdiagnoses.cells _ hA 5 "a" (by decide) (by decide)
  rw [List.filter_eq_self.mpr fun production hp => decide_eq_true (hselects production hp)] at hcell
  have hchosen : (T.conflictsAt "A" "a").map Conflict.chosen = [["B"], ["a"]] := hcell.chosen.trans (by decide)
  refine ⟨hbuilt, W, T, hW, hT, hcell.replaced.trans (by decide), hchosen, ?_⟩
  have hlast : (T.conflictsAt "A" "a").getLast?.map Conflict.chosen = some ["a"] := by
    rw [← List.getLast?_map, hchosen]
    rfl
  obtain ⟨c, hc, hca⟩ := Option.map_eq_some_iff.mp hlast
  rw [hcell.last c hc, hca]

end Grammar

end PredictiveGrammar
