import PredictiveGrammar.Proofs.Arena
import PredictiveGrammar.Proofs.FillingRows

/-!
# Tables by name

Naming the rows and clashes of a table does not fail if only terminals are claimed
(`Grammar.WellFormed.table_eq`). Since names are unique, asking the table by name finds the cell by index
(`Grammar.WellFormed.get?_named`), and what it answers is a production of the non-terminal asked for
(`Grammar.WellFormed.exists_of_get?_named`).
-/

namespace PredictiveGrammar

/-! ## Asking a table -/

theorem Table.mem_of_find? {T : Table} {name : String} {row : Row}
    (h : T.rows.find? (·.nonTerminal = name) = some row) : row ∈ T.rows ∧ row.nonTerminal = name :=
  ⟨List.mem_of_find?_eq_some h, by simpa using List.find?_some h⟩

/-- A cell is found by the place of its terminal in the row of its non-terminal. -/
theorem Table.get?_eq {T : Table} {name terminal : String} {j : Nat} {row : Row} {cell : Option (List String)}
    (hj : T.terminals.idxOf? terminal = some j) (hrow : T.rows.find? (·.nonTerminal = name) = some row)
    (hcell : row.cells[j]? = some cell) : T.get? name terminal = cell := by
  simp [Table.get?, hj, hrow, hcell]

/-- An answer comes from a cell of the row for the name. -/
theorem Table.exists_of_get? {T : Table} {name terminal : String} {right : List String}
    (h : T.get? name terminal = some right) :
    ∃ row ∈ T.rows, row.nonTerminal = name ∧ some right ∈ row.cells := by
  simp only [Table.get?, Option.bind_eq_bind, Option.bind_eq_some_iff] at h
  obtain ⟨j, -, row, hrow, cell, hcell, rfl⟩ := h
  obtain ⟨hmem, hname⟩ := Table.mem_of_find? hrow
  exact ⟨row, hmem, hname, List.mem_of_getElem? hcell⟩

namespace Grammar

variable {g : Grammar} {F : FirstSets} {W : FollowSets} {nt : NonTerminal} {a : Nat}

/-! ## Naming -/

/-- The row of a non-terminal by name, where every index has a name. -/
def namedRow (g : Grammar) (nt : NonTerminal) (row : RowFill) : Row :=
  ⟨nt.name, row.cells.map fun cell => cell.2.map (·.map g.label)⟩

/-- A clash by name, where every index has a name. -/
def namedClash (g : Grammar) (nt : NonTerminal) (clash : Clash) : Conflict :=
  ⟨nt.name, g.label clash.terminal, clash.replaced.map g.label, clash.chosen.map g.label⟩

/-- The filled rows with their non-terminals. -/
def fills (g : Grammar) (F : FirstSets) (W : FollowSets) : List (NonTerminal × RowFill) :=
  g.nonTerminals.map fun nt => (nt, g.fillRow F W nt)

/-- The table of the filled rows, where every index has a name. -/
def namedTable (g : Grammar) (F : FirstSets) (W : FollowSets) : Table where
  terminals := g.columns.map g.label
  rows := (g.fills F W).map fun fill => g.namedRow fill.1 fill.2
  conflicts := (g.fills F W).flatMap fun fill => fill.2.clashes.map (g.namedClash fill.1)

/-- Naming a row does not fail if its productions are in range. -/
theorem nameRow_eq {row : RowFill}
    (h : ∀ cell ∈ row.cells, ∀ production, cell.2 = some production →
      ∀ i ∈ production, i < g.symbols.length) : g.nameRow nt row = .ok (g.namedRow nt row) := by
  have hcells : row.cells.mapM (fun cell : Nat × Option Production => cell.2.mapM g.namesOf) =
      .ok (row.cells.map fun cell => cell.2.map (·.map g.label)) := by
    refine mapM_eq_ok fun cell hcell => ?_
    rcases hp : cell.2 with - | production
    · rfl
    · have hnames := namesOf_eq (h cell hcell production hp)
      change (some <$> g.namesOf production) = _
      rw [hnames]
      rfl
  change (do
    let cells ← row.cells.mapM (fun cell : Nat × Option Production => cell.2.mapM g.namesOf)
    return (⟨nt.name, cells⟩ : Row)) = _
  rw [hcells]
  rfl

/-- Naming a clash does not fail if its productions are in range. -/
theorem nameClash_eq {clash : Clash} (hterminal : clash.terminal < g.symbols.length)
    (hreplaced : ∀ i ∈ clash.replaced, i < g.symbols.length)
    (hchosen : ∀ i ∈ clash.chosen, i < g.symbols.length) :
    g.nameClash nt clash = .ok (g.namedClash nt clash) := by
  rw [nameClash, nameOf_eq hterminal, namesOf_eq hreplaced, namesOf_eq hchosen]
  rfl

end Grammar

/-- A clash is between claims. -/
theorem mem_of_mem_clashesAfter {earlier made : List (Nat × Production)} {clash : Clash}
    (h : clash ∈ clashesAfter earlier made) :
    (clash.terminal, clash.chosen) ∈ made ∧ (clash.terminal, clash.replaced) ∈ earlier ++ made := by
  induction made generalizing earlier with
  | nil => cases h
  | cons c made ih =>
    obtain ⟨terminal, production⟩ := c
    rw [clashesAfter, List.mem_append, Option.mem_toList, Option.map_eq_some_iff] at h
    rcases h with ⟨holder, hholder, rfl⟩ | h
    · obtain ⟨l, m, rfl, -⟩ := List.lookup_eq_some_iff.mp hholder
      exact ⟨List.mem_cons_self, by simp⟩
    · obtain ⟨hchosen, hreplaced⟩ := ih h
      refine ⟨List.mem_cons_of_mem _ hchosen, ?_⟩
      simp only [List.mem_append, List.mem_cons] at hreplaced ⊢
      rcases hreplaced with (hreplaced | hreplaced) | hreplaced
      · exact Or.inr (Or.inl hreplaced)
      · exact Or.inl hreplaced
      · exact Or.inr (Or.inr hreplaced)

namespace Grammar

variable {g : Grammar} {F : FirstSets} {W : FollowSets} {nt : NonTerminal} {a : Nat}

/-- Every column is there once. -/
theorem nodup_columns (g : Grammar) : g.columns.Nodup := by
  have hterminals : (g.terminals.map (·.1)).Nodup := by
    have hindices : (g.symbols.zipIdx.map Prod.snd).Nodup := List.zipIdx_map_snd 0 g.symbols ▸ List.nodup_range'
    refine List.pairwise_map.mpr (List.pairwise_filterMap.mpr ((List.pairwise_map.mp hindices).imp ?_))
    intro a a' hne e he e' he'
    obtain ⟨name, -, rfl⟩ := Option.map_eq_some_iff.mp he
    obtain ⟨name', -, rfl⟩ := Option.map_eq_some_iff.mp he'
    exact hne
  exact (hterminals.filter _).append (List.nodup_singleton _) (by simp)

namespace WellFormed

variable (hg : g.WellFormed)
include hg

/-- The columns are the terminals. -/
theorem mem_columns : a ∈ g.columns ↔ g.isTerminal a := by
  rw [columns, List.mem_append, List.mem_filter, mem_terminals, List.mem_singleton, bne_iff_ne]
  refine ⟨?_, ?_⟩
  · rintro (⟨h, -⟩ | rfl)
    · exact h
    · exact hg.isTerminal_endMark
  · intro h
    by_cases hend : a = endMarkIndex
    · exact Or.inr hend
    · exact Or.inl ⟨h, hend⟩

/-- The column found for the name of a terminal is its own. -/
theorem exists_column (ha : g.isTerminal a) :
    ∃ j, (g.columns.map g.label).idxOf? (g.label a) = some j ∧ g.columns[j]? = some a := by
  have hmem : g.label a ∈ g.columns.map g.label := List.mem_map_of_mem (hg.mem_columns.mpr ha)
  obtain ⟨j, hj⟩ := Option.isSome_iff_exists.mp (List.isSome_idxOf?.mpr hmem)
  obtain ⟨hlt, heq, -⟩ := List.idxOf?_eq_some_iff.mp hj
  rw [List.length_map] at hlt
  rw [List.getElem_map] at heq
  have hcolumn := lt_of_isTerminal (hg.mem_columns.mp (List.getElem_mem hlt))
  refine ⟨j, hj, ?_⟩
  rw [List.getElem?_eq_getElem hlt, hg.label_inj hcolumn (lt_of_isTerminal ha) heq]

/-- Naming the columns does not fail. -/
theorem nameColumns_eq : g.namesOf g.columns = .ok (g.columns.map g.label) :=
  namesOf_eq fun _ hi => lt_of_isTerminal (hg.mem_columns.mp hi)

theorem lt_of_mem_claims (hnt : nt ∈ g.nonTerminals) : ∀ c ∈ claims F W nt, ∀ i ∈ c.2, i < g.symbols.length := by
  rintro ⟨terminal, production⟩ hc
  exact hg.production_lt hnt (mem_claims.mp hc).1

section claimed

variable (hclaims : ∀ nt ∈ g.nonTerminals, ∀ c ∈ claims F W nt, g.isTerminal c.1)
include hclaims

/-- A row holds the claims to its cells, the last one on top. -/
theorem fillRow_claims (hnt : nt ∈ g.nonTerminals) :
    g.fillRow F W nt = .holding g.columns (claims F W nt).reverse (clashesAfter [] (claims F W nt)) :=
  fillRow_eq fun c hc => hg.mem_columns.mpr (hclaims nt hnt c hc)

/-- Naming the clashes of a row does not fail. -/
theorem nameClashes_eq (hnt : nt ∈ g.nonTerminals) :
    (g.fillRow F W nt).clashes.mapM (g.nameClash nt) = .ok ((g.fillRow F W nt).clashes.map (g.namedClash nt)) := by
  refine mapM_eq_ok fun clash hclash => ?_
  rw [hg.fillRow_claims hclaims hnt] at hclash
  obtain ⟨hchosen, hreplaced⟩ := mem_of_mem_clashesAfter hclash
  exact nameClash_eq (lt_of_isTerminal (hclaims nt hnt _ hchosen)) (hg.lt_of_mem_claims hnt _ hreplaced)
    (hg.lt_of_mem_claims hnt _ hchosen)

/-- **Naming a table does not fail.** -/
theorem table_eq (hF : F.isFor g) (hW : W.isFor g) : g.table F W = .ok (g.namedTable F W) := by
  have hrows : (g.fills F W).mapM (fun fill => g.nameRow fill.1 fill.2) =
      .ok ((g.fills F W).map fun fill => g.namedRow fill.1 fill.2) := by
    refine mapM_eq_ok fun fill hfill => ?_
    obtain ⟨nt, hnt, rfl⟩ := List.mem_map.mp hfill
    refine nameRow_eq ?_
    rw [hg.fillRow_claims hclaims hnt]
    intro cell hcell production hp
    obtain ⟨column, -, rfl⟩ := List.mem_map.mp hcell
    exact hg.lt_of_mem_claims hnt _ (mem_of_lookup_reverse hp)
  have hclashes : (g.fills F W).mapM (fun fill => fill.2.clashes.mapM (g.nameClash fill.1)) =
      .ok ((g.fills F W).map fun fill => fill.2.clashes.map (g.namedClash fill.1)) := by
    refine mapM_eq_ok fun fill hfill => ?_
    obtain ⟨nt, hnt, rfl⟩ := List.mem_map.mp hfill
    exact hg.nameClashes_eq hclaims hnt
  rw [table, checkSets_eq hF hW]
  -- the rows are filled once and read twice, for their cells and for their clashes
  change (do
    let rows ← (g.fills F W).mapM fun fill : NonTerminal × RowFill => g.nameRow fill.1 fill.2
    let conflicts ← (g.fills F W).mapM fun fill : NonTerminal × RowFill =>
      fill.2.clashes.mapM (g.nameClash fill.1)
    return (⟨← g.namesOf g.columns, rows, conflicts.flatten⟩ : Table)) = _
  rw [hrows, hclashes, hg.nameColumns_eq, namedTable, List.flatMap_def]
  rfl

/-! ## Asking by name -/

theorem mem_rows {row : Row} :
    row ∈ (g.namedTable F W).rows ↔ ∃ nt ∈ g.nonTerminals, g.namedRow nt (.holding g.columns
      (claims F W nt).reverse (clashesAfter [] (claims F W nt))) = row := by
  have hrows : (g.namedTable F W).rows = g.nonTerminals.map fun nt => g.namedRow nt
      (.holding g.columns (claims F W nt).reverse (clashesAfter [] (claims F W nt))) := by
    rw [namedTable, fills, List.map_map]
    refine List.map_congr_left fun nt hnt => ?_
    rw [Function.comp_apply, hg.fillRow_claims hclaims hnt]
  rw [hrows, List.mem_map]

/-- **Asking by name** finds the last claim to the cell. -/
theorem get?_named (hnt : nt ∈ g.nonTerminals) (ha : g.isTerminal a) :
    (g.namedTable F W).get? nt.name (g.label a) =
      ((claims F W nt).reverse.lookup a).map (·.map g.label) := by
  obtain ⟨j, hj, hcolumn⟩ := hg.exists_column ha
  have hrow : (g.namedTable F W).rows.find? (·.nonTerminal = nt.name) = some (g.namedRow nt
      (.holding g.columns (claims F W nt).reverse (clashesAfter [] (claims F W nt)))) := by
    rcases hfind : (g.namedTable F W).rows.find? (·.nonTerminal = nt.name) with - | row
    · have hnone := List.find?_eq_none.mp hfind _ ((hg.mem_rows hclaims).mpr ⟨nt, hnt, rfl⟩)
      exact absurd (decide_eq_true rfl) hnone
    · obtain ⟨hmem, hname⟩ := Table.mem_of_find? hfind
      obtain ⟨nt', hnt', rfl⟩ := (hg.mem_rows hclaims).mp hmem
      obtain rfl := hg.nonTerminal_name_ext hnt' hnt hname
      exact hfind
  refine Table.get?_eq hj hrow ?_
  rw [namedRow, RowFill.holding, List.map_map, List.getElem?_map, hcolumn]
  rfl

/-- What the table answers is a production of the non-terminal. -/
theorem exists_of_get?_named {name terminal : String} {right : List String}
    (h : (g.namedTable F W).get? name terminal = some right) :
    ∃ nt ∈ g.nonTerminals, nt.name = name ∧ ∃ production ∈ nt.productions,
      production.map g.label = right := by
  obtain ⟨row, hrow, hname, hcell⟩ := Table.exists_of_get? h
  obtain ⟨nt, hnt, rfl⟩ := (hg.mem_rows hclaims).mp hrow
  refine ⟨nt, hnt, hname, ?_⟩
  rw [namedRow, RowFill.holding, List.map_map] at hcell
  obtain ⟨a, -, hright⟩ := List.mem_map.mp hcell
  obtain ⟨production, hlookup, rfl⟩ := Option.map_eq_some_iff.mp hright
  exact ⟨production, (mem_claims.mp (mem_of_lookup_reverse hlookup)).1, rfl⟩

/-- There are no conflicts if no row has clashes. -/
theorem conflicts_eq_nil_iff :
    (g.namedTable F W).conflicts = [] ↔ ∀ nt ∈ g.nonTerminals, clashesAfter [] (claims F W nt) = [] := by
  rw [namedTable, List.flatMap_eq_nil_iff, fills, List.forall_mem_map]
  refine forall₂_congr fun nt hnt => ?_
  rw [hg.fillRow_claims hclaims hnt]
  exact List.map_eq_nil_iff

/-- Without conflicts no row has clashes. -/
theorem clashes_eq_nil (h : (g.namedTable F W).conflicts = []) (hnt : nt ∈ g.nonTerminals) :
    clashesAfter [] (claims F W nt) = [] :=
  (hg.conflicts_eq_nil_iff hclaims).mp h nt hnt

end claimed

end WellFormed

end Grammar

end PredictiveGrammar
