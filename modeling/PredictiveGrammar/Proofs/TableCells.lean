import PredictiveGrammar.Proofs.Prediction

/-!
# What stands in the cells of a table

A production is to be used for the terminals that it can begin with, and if it can vanish, also for those that can
follow its left side (`Grammar.Selects`). The productions of a non-terminal claim their cells in order of declaration,
and the claims to one cell are the productions that are to be used for its terminal, in that order (`filter_claims`).
So a cell holds the last of them (`lookup_claims_eq`), and the table of a built grammar has all cells that there should
be and holds in each what it should (`Grammar.Built.table_exact`).
-/

namespace PredictiveGrammar

/-! ## Looking up -/

variable {made : List (Nat × Production)} {F : FirstSets} {W : FollowSets} {nt : NonTerminal}

/-- Looking up finds what stands first beside a key. -/
theorem lookup_eq_head? (made : List (Nat × Production)) (terminal : Nat) :
    made.lookup terminal = ((made.filter (·.1 = terminal)).map (·.2)).head? := by
  induction made with
  | nil => rfl
  | cons c made ih =>
    obtain ⟨other, production⟩ := c
    rw [SetFamily.lookup_cons_eq_ite, ih]
    by_cases h : terminal = other
    · simp [h]
    · simp [h, Ne.symm h]

/-! ## The claims to a cell -/

/-- **The claims to a cell** are the productions that are to be used for its terminal, in order. -/
theorem filter_claims (terminal : Nat) :
    ((claims F W nt).filter (·.1 = terminal)).map (·.2) =
      nt.productions.filter (terminal ∈ predict F W nt.index ·) := by
  rw [claims]
  induction nt.productions with
  | nil => rfl
  | cons production productions ih =>
    -- a production claims a cell once or not at all
    have hfilter : (predict F W nt.index production).toList.filter (· = terminal) =
        if terminal ∈ predict F W nt.index production then [terminal] else [] := by
      rw [List.filter_eq, (SymbolSet.nodup_toList _).count]
      by_cases h : terminal ∈ predict F W nt.index production
      · simp [h]
      · simp [h]
    rw [List.flatMap_cons, List.filter_append, List.map_append, ih, List.filter_map, List.map_map, List.filter_cons]
    change ((predict F W nt.index production).toList.filter (· = terminal)).map (fun _ => production) ++ _ = _
    rw [hfilter]
    by_cases h : terminal ∈ predict F W nt.index production
    · simp [h]
    · simp [h]

/-- **A cell holds the last production that is to be used for its terminal.** -/
theorem lookup_claims_eq (terminal : Nat) :
    (claims F W nt).reverse.lookup terminal =
      (nt.productions.filter (terminal ∈ predict F W nt.index ·)).getLast? := by
  rw [lookup_eq_head?, List.filter_reverse, List.map_reverse, List.head?_reverse, filter_claims]

/-! ## What a table should say -/

namespace Grammar

/-- A production of a non-terminal is to be used for a terminal that it can begin with, and if it can vanish, for one
that can follow the non-terminal. -/
def Selects (g : Grammar) (W : FollowSets) (nt : NonTerminal) (production : Production) (terminal : Nat) : Prop :=
  terminal ∈ g.first.ofSequence production ∧ terminal ≠ epsilonIndex ∨
    epsilonIndex ∈ g.first.ofSequence production ∧ ∃ set ∈ W.get? nt.index, terminal ∈ set

instance (g : Grammar) (W : FollowSets) (nt : NonTerminal) (production : Production) (terminal : Nat) :
    Decidable (g.Selects W nt production terminal) :=
  inferInstanceAs (Decidable (_ ∨ _))

/-- What the cell of a non-terminal and a terminal should hold. -/
structure CellFor (g : Grammar) (W : FollowSets) (nt : NonTerminal) (terminal : Nat) (cell : Option (List String)) :
    Prop where
  /-- by name, the production that is to be used and behind which no other is -/
  some_iff : ∀ right, cell = some right ↔ ∃ (i : Nat) (production : Production),
    nt.productions[i]? = some production ∧ g.Selects W nt production terminal ∧
      (∀ (j : Nat) (later : Production), i < j → nt.productions[j]? = some later → ¬ g.Selects W nt later terminal) ∧
      g.namesOf production = .ok right
  /-- nothing exactly if no production is to be used -/
  none_iff : cell = none ↔ ∀ production ∈ nt.productions, ¬ g.Selects W nt production terminal

end Grammar

/-- What a table should say about a grammar with these FOLLOW sets, where `columns` are its terminals by index. -/
structure Table.Exact (T : Table) (g : Grammar) (W : FollowSets) (columns : List Nat) : Prop where
  /-- the terminals stand in order of their indices, except that the end mark stands last -/
  order : ∃ others : List Nat, columns = others ++ [endMarkIndex] ∧ others.Pairwise (· < ·) ∧
    ∀ terminal, terminal ∈ others ↔ g.isTerminal terminal ∧ terminal ≠ endMarkIndex
  /-- there is a column for each of them -/
  terminals : g.namesOf columns = .ok T.terminals
  /-- no production is to be used for anything else -/
  covered : ∀ nt ∈ g.nonTerminals, ∀ production ∈ nt.productions, ∀ terminal,
    g.Selects W nt production terminal → terminal ∈ columns
  /-- there is a row for each non-terminal, in order of declaration -/
  rows : T.rows.map Row.nonTerminal = g.nonTerminals.map NonTerminal.name
  /-- there is a cell for each column -/
  widths : ∀ row ∈ T.rows, row.cells.length = T.terminals.length
  /-- a cell holds what it should, and the table answers with it when it is asked by name -/
  cells : ∀ (k j : Nat) (nt : NonTerminal) (terminal : Nat) (name : String), g.nonTerminals[k]? = some nt →
    columns[j]? = some terminal → g.nameOf terminal = .ok name →
      ∃ row cell, T.rows[k]? = some row ∧ row.cells[j]? = some cell ∧ T.get? nt.name name = cell ∧
        g.CellFor W nt terminal cell

/-! ## What it does say -/

namespace Grammar

variable {g : Grammar} {production : Production} {terminal : Nat}

theorem selects_iff : g.Selects W nt production terminal ↔ terminal ∈ predict g.first W nt.index production := by
  have hfollow : (∃ set ∈ W.get? nt.index, terminal ∈ set) ↔ terminal ∈ W.sets.getD nt.index := by
    rw [SetFamily.getD, FollowSets.get?]
    cases W.sets.get? nt.index with
    | none => simp
    | some set => simp
  rw [Selects, mem_predict, hfollow]

/-- The terminals stand in order of their indices. -/
theorem pairwise_terminals (g : Grammar) : (g.terminals.map (·.1)).Pairwise (· < ·) := by
  have hindices : (g.symbols.zipIdx.map Prod.snd).Pairwise (· < ·) :=
    List.zipIdx_map_snd 0 g.symbols ▸ List.pairwise_lt_range'
  refine List.pairwise_map.mpr (List.pairwise_filterMap.mpr ((List.pairwise_map.mp hindices).imp ?_))
  intro a a' hlt e he e' he'
  obtain ⟨name, -, rfl⟩ := Option.map_eq_some_iff.mp he
  obtain ⟨name', -, rfl⟩ := Option.map_eq_some_iff.mp he'
  exact hlt

namespace WellFormed

variable (hg : g.WellFormed)
include hg

/-- The last production that is to be used is what the cell should hold. -/
theorem cellFor_last (hnt : nt ∈ g.nonTerminals) (terminal : Nat) :
    g.CellFor W nt terminal
      (((nt.productions.filter (terminal ∈ predict g.first W nt.index ·)).getLast?).map (·.map g.label)) := by
  have hnames : ∀ p ∈ nt.productions, g.namesOf p = .ok (p.map g.label) :=
    fun p hp => namesOf_eq (hg.production_lt hnt hp)
  constructor
  -- a cell that is filled, and why nothing later selects the terminal
  · intro right
    rw [Option.map_eq_some_iff]
    constructor
    · rintro ⟨p, hlast, rfl⟩
      obtain ⟨i, hi, hp, hlater⟩ := getLast?_filter_eq_some_iff.mp hlast
      refine ⟨i, p, hi, selects_iff.mpr (of_decide_eq_true hp), fun j later hj hget hselects => ?_,
        hnames p (List.mem_of_getElem? hi)⟩
      exact hlater j later hj hget (decide_eq_true (selects_iff.mp hselects))
    · rintro ⟨i, p, hi, hp, hlater, hright⟩
      rw [hnames p (List.mem_of_getElem? hi)] at hright
      refine ⟨p, getLast?_filter_eq_some_iff.mpr ⟨i, hi, decide_eq_true (selects_iff.mp hp), ?_⟩, Except.ok.inj hright⟩
      exact fun j later hj hget hmem => hlater j later hj hget (selects_iff.mpr (of_decide_eq_true hmem))
  · rw [Option.map_eq_none_iff, List.getLast?_eq_none_iff, List.filter_eq_nil_iff]
    refine forall₂_congr fun p _ => ?_
    rw [decide_eq_true_iff, selects_iff]

variable (hW : W.Exact g)
include hW

theorem getElem?_rows {k : Nat} (hk : g.nonTerminals[k]? = some nt) :
    (g.namedTable g.first W).rows[k]? = some (g.namedRow nt (.holding g.columns (claims g.first W nt).reverse
      (clashesAfter [] (claims g.first W nt)))) := by
  have hfill := hg.fillRow_claims (hg.isTerminal_of_mem_claims hW) (List.mem_of_getElem? hk)
  rw [namedTable, fills, List.map_map, List.getElem?_map, hk, ← hfill]
  rfl

/-- **The table says what it should.** -/
theorem exact_namedTable : (g.namedTable g.first W).Exact g W g.columns where
  order := by
    refine ⟨(g.terminals.map (·.1)).filter (· != endMarkIndex), rfl, g.pairwise_terminals.filter _, fun a => ?_⟩
    have hcolumns := hg.mem_columns (a := a)
    rw [columns, List.mem_append, List.mem_singleton] at hcolumns
    rw [← hcolumns]
    -- the columns are the terminals in ascending order, the end mark taken out and put behind
    constructor
    · intro h
      exact ⟨Or.inl h, by simpa using (List.mem_filter.mp h).2⟩
    · rintro ⟨h | h, hne⟩
      · exact h
      · exact absurd h hne
  terminals := hg.nameColumns_eq
  covered := by
    intro nt hnt production hp terminal hselects
    exact hg.mem_columns.mpr (hg.isTerminal_of_mem_predict hW hnt hp (selects_iff.mp hselects))
  rows := by
    rw [namedTable, fills, List.map_map, List.map_map]
    rfl
  widths := by
    intro row hrow
    obtain ⟨nt, -, rfl⟩ := (hg.mem_rows (hg.isTerminal_of_mem_claims hW)).mp hrow
    simp [namedRow, RowFill.holding, namedTable]
  cells := by
    intro k j nt terminal name hk hj hname
    have hnt := List.mem_of_getElem? hk
    have hterminal := hg.mem_columns.mp (List.mem_of_getElem? hj)
    obtain ⟨-, rfl⟩ := nameOf_eq_ok_iff.mp hname
    refine ⟨_, _, hg.getElem?_rows hW hk, ?_, hg.get?_named (hg.isTerminal_of_mem_claims hW) hnt hterminal, ?_⟩
    -- the cell by place
    · rw [namedRow, RowFill.holding, List.map_map, List.getElem?_map, hj]
      rfl
    -- the last claim to it
    · rw [lookup_claims_eq]
      exact hg.cellFor_last hnt terminal

end WellFormed

/-! ## In built grammars -/

/-- **Table cells are exact.** The table of a built grammar has a column for each terminal, in order of their indices
and the end mark last, and a row for each non-terminal, in order of declaration; and each cell holds the last
production of the non-terminal that is to be used for the terminal, if any is, which is also the answer by name. -/
theorem Built.table_exact (hg : g.Built) :
    ∃ W T columns, g.follow g.first = .ok W ∧ g.table g.first W = .ok T ∧ T.Exact g W columns := by
  have hwf := hg.wellFormed
  obtain ⟨W, hfollow, hW⟩ := hwf.follow_eq
  exact ⟨W, _, g.columns, hfollow, hwf.table_own hW, hwf.exact_namedTable hW⟩

/-- A grammar in which `a` can begin the last alternative of `A`, and can follow `A` as well. -/
def claimedTwice : Grammar := .ofRules [⟨"S", [["A", "a"]]⟩, ⟨"A", [["a"], ["B"]]⟩, ⟨"B", [["a"], []]⟩]

/-- There the cell of `A` and `a` holds the last alternative, and that of `A` and the end mark is empty. -/
theorem Built.table_exact_claimedTwice :
    claimedTwice.Built ∧ ∃ W T, claimedTwice.follow claimedTwice.first = .ok W ∧
      claimedTwice.table claimedTwice.first W = .ok T ∧ T.get? "A" "a" = some ["B"] ∧ T.get? "A" "$" = none := by
  have hbuilt : claimedTwice.Built := .ofRules _
  obtain ⟨W, T, columns, hW, hT, hexact⟩ := Built.table_exact hbuilt
  have hA : claimedTwice.nonTerminals[1]? = some ⟨3, "A", [[5], [4]]⟩ := by decide
  have hfollow : W.get? 3 = some {5} := by
    have hknown : (claimedTwice.follow claimedTwice.first).toOption.bind (·.get? 3) = some {5} := by decide
    rwa [hW] at hknown
  refine ⟨hbuilt, W, T, hW, hT, ?_, ?_⟩
  · have hselects : claimedTwice.Selects W ⟨3, "A", [[5], [4]]⟩ [4] 5 := Or.inl (by decide)
    have hcolumn := hexact.covered _ (List.mem_of_getElem? hA) [4] (by decide) 5 hselects
    obtain ⟨j, hj⟩ := List.mem_iff_getElem?.mp hcolumn
    obtain ⟨row, cell, -, -, hget, hcell⟩ := hexact.cells 1 j _ 5 "a" hA hj (by decide)
    refine hget.trans ((hcell.some_iff ["B"]).mpr ⟨1, [4], rfl, hselects, fun i later hi hlater => ?_, by decide⟩)
    rw [List.getElem?_eq_none (Nat.succ_le_of_lt hi)] at hlater
    cases hlater
  · obtain ⟨others, rfl, -, -⟩ := hexact.order
    have hj : (others ++ [endMarkIndex])[others.length]? = some endMarkIndex := by simp
    obtain ⟨row, cell, -, -, hget, hcell⟩ := hexact.cells 1 _ _ endMarkIndex "$" hA hj (by decide)
    refine hget.trans (hcell.none_iff.mpr ?_)
    simp only [Selects, hfollow]
    decide

end Grammar

end PredictiveGrammar
