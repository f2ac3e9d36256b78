import PredictiveGrammar.Checked.Reports
import PredictiveGrammar.Proofs.FirstExact
import PredictiveGrammar.Proofs.Prediction

/-!
# FIRST sets and cells stay in range

Every symbol has its FIRST set from the start, so the set of a non-terminal is found and stored at its index
(`Checked.first_eq`). A row has a cell for each column, and a cell holds the number of a production of the row;
claiming a cell keeps both, and what the numbers stand for is what the row with the productions themselves shows
(`CellFill.Shows`). So the checked table is the table (`Checked.table_eq`), and asking it for a cell stays in range as
well.
-/

namespace PredictiveGrammar

/-! ## Cells by column -/

section Columns

variable {α : Type} {columns : List Nat} {cells : List α} {column terminal : Nat}

/-- The cell of a terminal stands in its column. -/
theorem lookup_zip (h : columns.length = cells.length) (terminal : Nat) :
    (columns.zip cells).lookup terminal = (columns.idxOf? terminal).bind (cells[·]?) := by
  induction columns generalizing cells with
  | nil => rfl
  | cons other columns ih =>
    obtain ⟨cell, cells, rfl⟩ := List.exists_cons_of_length_eq_add_one h.symm
    rw [List.zip_cons_cons, SetFamily.lookup_cons_eq_ite, ih (by simpa using h), List.idxOf?_cons]
    by_cases heq : terminal = other
    · simp [heq]
    · simp [heq, Ne.symm heq, Option.bind_map]

/-- Another cell in the column of a terminal. -/
theorem zip_set (hnodup : columns.Nodup) (h : columns[column]? = some terminal) (a : α) :
    columns.zip (cells.set column a) =
      (columns.zip cells).map fun e => (e.1, if e.1 = terminal then a else e.2) := by
  induction columns generalizing cells column with
  | nil => rfl
  | cons other columns ih =>
    obtain ⟨hother, hnodup⟩ := List.nodup_cons.mp hnodup
    rcases cells with - | ⟨cell, cells⟩
    · rfl
    · cases column with
      | zero =>
        obtain rfl := Option.some.inj h
        have hrest : (columns.zip cells).map (fun e => (e.1, if e.1 = other then a else e.2)) = columns.zip cells := by
          refine (List.map_congr_left fun e he => ?_).trans (List.map_id _)
          have hne : e.1 ≠ other := fun heq => hother (heq ▸ (List.of_mem_zip he).1)
          simp [hne]
        simp [hrest]
      | succ column =>
        have hne : other ≠ terminal := fun heq => hother (heq ▸ List.mem_of_getElem? h)
        simp [hne, ih hnodup h]

end Columns

namespace Checked

variable {g : Grammar} {F : FirstSets} {W : FollowSets} {nt : NonTerminal} {nts : List NonTerminal} {columns : List Nat}
  {productions : List Production} {row : CellFill} {fill : RowFill}

/-! ## FIRST sets -/

theorem visit_eq (h : nt.index < F.sets.length) : visit F nt = .ok (F.visit nt) := by
  have hset := List.getElem?_eq_getElem h
  rw [visit, FirstSets.visit, read_eq hset, FirstSets.get?, hset]
  simp only [Option.map_some, Option.some.injEq, ok_bind, write_eq h]
  split <;> rfl

theorem length_visit (F : FirstSets) (nt : NonTerminal) : (F.visit nt).1.sets.length = F.sets.length := by
  simp only [FirstSets.visit]
  split <;> simp

/-- A round stays in range and keeps the number of sets. -/
theorem round_eq (h : ∀ nt ∈ nts, nt.index < F.sets.length) :
    round nts F = .ok (F.round nts) ∧ (F.round nts).1.sets.length = F.sets.length := by
  refine foldlM_eq_ok (P := fun state : FirstSets × Bool => state.1.sets.length = F.sets.length)
    (fun state nt hnt hstate => ⟨?_, ?_⟩) rfl
  · rw [visit_eq (hstate ▸ h nt hnt)]
    rfl
  · exact (length_visit state.1 nt).trans hstate

/-- So do the rounds until nothing changes. -/
theorem stabilise_eq (rounds : Nat) (h : ∀ nt ∈ nts, nt.index < F.sets.length) :
    stabilise nts rounds F = .ok (FirstSets.stabilise nts rounds F) := by
  induction rounds generalizing F with
  | zero => rfl
  | succ rounds ih =>
    obtain ⟨hround, hlength⟩ := round_eq h
    rw [stabilise, hround, FirstSets.stabilise_succ, ok_bind]
    generalize F.round nts = answer at hlength ⊢
    obtain ⟨next, changed⟩ := answer
    cases changed with
    | true => exact ih fun nt hnt => hlength ▸ h nt hnt
    | false => rfl

/-- **Computing FIRST sets stays in range**: every symbol has a set. -/
theorem first_eq (hg : g.WellFormed) : first g = .ok g.first :=
  stabilise_eq _ fun _ => (FirstSets.rising_initial hg).index_lt hg

/-! ## Rows -/

/-- A row with the numbers of productions shows what a row with the productions themselves does. -/
structure CellFill.Shows (columns : List Nat) (productions : List Production) (row : CellFill) (fill : RowFill) :
    Prop where
  /-- there is a cell for each column -/
  length : row.cells.length = columns.length
  /-- the cells hold numbers of productions -/
  lt : ∀ number, some number ∈ row.cells → number < productions.length
  /-- the numbers stand for the productions that hold the cells -/
  cells : fill.cells = columns.zip (row.cells.map (·.bind (productions[·]?)))
  /-- the clashes are the same -/
  clashes : row.clashes = fill.clashes

/-- The productions that hold the cells, in order of the columns. -/
theorem CellFill.Shows.holders (h : row.Shows columns productions fill) :
    fill.cells.map (·.2) = row.cells.map (·.bind (productions[·]?)) := by
  rw [h.cells]
  exact List.map_snd_zip (by simp [h.length])

theorem CellFill.shows_blank (columns : List Nat) (productions : List Production) :
    CellFill.Shows columns productions ⟨columns.map fun _ => none, []⟩ (.blank columns) where
  length := by simp
  lt := by simp
  cells := by
    rw [List.map_map]
    exact List.map_prod_left_eq_zip
  clashes := rfl

/-- Another production holds a cell. -/
theorem CellFill.Shows.hold (h : row.Shows columns productions fill) (hnodup : columns.Nodup)
    {entry : Production × Nat} (hentry : productions[entry.2]? = some entry.1) {column terminal : Nat}
    (hcolumn : columns[column]? = some terminal) (clashes : List Clash) :
    CellFill.Shows columns productions ⟨row.cells.set column (some entry.2), clashes⟩
      ⟨fill.cells.map fun e => (e.1, if e.1 = terminal then some entry.1 else e.2), clashes⟩ where
  length := by simpa using h.length
  lt := by
    intro number hnumber
    rcases List.mem_or_eq_of_mem_set hnumber with hold | heq
    · exact h.lt number hold
    · obtain rfl := Option.some.inj heq
      exact (List.getElem?_eq_some_iff.mp hentry).1
  cells := by
    rw [h.cells, List.map_set, zip_set hnodup hcolumn, Option.bind_some, hentry]
  clashes := rfl

/-- **One claim** goes to a cell that is there, and the production that held it is there too. -/
theorem CellFill.Shows.claim (h : row.Shows columns productions fill) (hnodup : columns.Nodup)
    {entry : Production × Nat} (hentry : productions[entry.2]? = some entry.1) (terminal : Nat) :
    ∃ row', Checked.claim columns productions entry row terminal = .ok row' ∧
      row'.Shows columns productions (fill.claim entry.1 terminal) := by
  have hlookup : fill.cells.lookup terminal = (columns.idxOf? terminal).bind
      ((row.cells.map (·.bind (productions[·]?)))[·]?) := by
    rw [h.cells, lookup_zip (by simp [h.length])]
  rw [Checked.claim, RowFill.claim, hlookup]
  cases hcolumn : columns.idxOf? terminal with
  -- a terminal without a column claims nothing
  | none => exact ⟨row, rfl, h⟩
  | some column =>
    obtain ⟨hlt, heq, -⟩ := List.idxOf?_eq_some_iff.mp hcolumn
    have hterminal : columns[column]? = some terminal := by rw [List.getElem?_eq_getElem hlt, heq]
    have hlt : column < row.cells.length := h.length ▸ hlt
    have hcell := List.getElem?_eq_getElem hlt
    generalize row.cells[column] = holder at hcell
    simp only [read_eq hcell, write_eq hlt, ok_bind, Option.bind_some, List.getElem?_map, hcell, Option.map_some]
    cases holder with
    | none => exact ⟨_, rfl, h.clashes ▸ h.hold hnodup hentry hterminal row.clashes⟩
    -- a cell that another production holds, which is a conflict
    | some previous =>
      have hprevious := List.getElem?_eq_getElem (h.lt previous (List.mem_of_getElem? hcell))
      simp only [read_eq hprevious, Option.bind_some, hprevious]
      exact ⟨_, rfl, h.clashes ▸ h.hold hnodup hentry hterminal _⟩

/-- **Filling a row stays in range.** -/
theorem fillRow_shows (g : Grammar) (F : FirstSets) (W : FollowSets) (nt : NonTerminal) :
    ∃ row, fillRow g F W nt = .ok row ∧ row.Shows g.columns nt.productions (g.fillRow F W nt) := by
  have hfold : g.fillRow F W nt = nt.productions.zipIdx.foldl
      (fun row entry => row.claimAll entry.1 (predict F W nt.index entry.1)) (.blank g.columns) := by
    have hproductions := List.zipIdx_map_fst 0 nt.productions
    rw [Grammar.fillRow]
    conv_lhs => rw [← hproductions, List.foldl_map]
  rw [hfold]
  refine foldlM_follows (fun row fill entry hentry h => ?_) (CellFill.shows_blank g.columns nt.productions)
  exact foldlM_follows (fun row fill terminal _ h =>
    h.claim g.nodup_columns (List.mem_zipIdx_iff_getElem?.mp hentry) terminal) h

/-! ## The table -/

section named

variable (hg : g.WellFormed) (hclaims : ∀ nt ∈ g.nonTerminals, ∀ c ∈ claims F W nt, g.isTerminal c.1)
include hg hclaims

/-- **Naming a row stays in range**, and so does naming its clashes. -/
theorem tableRow_eq (hnt : nt ∈ g.nonTerminals) : tableRow g F W nt =
    .ok (g.namedRow nt (g.fillRow F W nt), (g.fillRow F W nt).clashes.map (g.namedClash nt)) := by
  obtain ⟨row, hrow, hshows⟩ := fillRow_shows g F W nt
  -- every cell that is held names its production
  have hcells : row.cells.mapM (fun cell => cell.mapM fun number => do
      of (g.namesOf (← read nt.productions number))) =
      .ok (row.cells.map fun cell => (cell.bind (nt.productions[·]?)).map (·.map g.label)) := by
    refine mapM_eq_ok fun cell hcell => ?_
    cases cell with
    | none => rfl
    | some number =>
      have hproduction := List.getElem?_eq_getElem (hshows.lt number hcell)
      have hnames := Grammar.namesOf_eq (hg.production_lt hnt (List.mem_of_getElem? hproduction))
      rw [Option.bind_some, hproduction]
      change some <$> (read nt.productions number >>= fun production => of (g.namesOf production)) = _
      rw [read_eq hproduction, ok_bind, hnames]
      rfl
  -- and the row that is filled without checks has the same names
  have hnamed : g.namedRow nt (g.fillRow F W nt) =
      ⟨nt.name, row.cells.map fun cell => (cell.bind (nt.productions[·]?)).map (·.map g.label)⟩ := by
    have hholders := congrArg (List.map (Option.map (List.map g.label))) hshows.holders
    rw [List.map_map, List.map_map] at hholders
    exact congrArg (Row.mk nt.name) hholders
  rw [tableRow, hrow, ok_bind, hcells, hnamed, hshows.clashes, hg.nameClashes_eq hclaims hnt]
  rfl

/-- **Filling the table stays in range.** -/
theorem table_eq (hF : F.isFor g) (hW : W.isFor g) : table g F W = .ok (g.namedTable F W) := by
  rw [table, Grammar.checkSets_eq hF hW, of_ok, ok_bind, mapM_eq_ok fun nt hnt => tableRow_eq hg hclaims hnt,
    hg.nameColumns_eq]
  simp [Grammar.namedTable, Grammar.fills, List.flatMap_map, Function.comp_def]

/-- The rows of the table have a cell for each column. -/
theorem length_cells {row : Row} (hrow : row ∈ (g.namedTable F W).rows) :
    row.cells.length = (g.namedTable F W).terminals.length := by
  obtain ⟨nt, hnt, rfl⟩ := (hg.mem_rows hclaims).mp hrow
  simp [Grammar.namedRow, RowFill.holding, Grammar.namedTable]

end named

/-- **Asking for a cell stays in range** if the rows have a cell for each column. -/
theorem cell?_eq {T : Table} (h : ∀ row ∈ T.rows, row.cells.length = T.terminals.length) (name terminal : String) :
    cell? T name terminal = .ok (T.get? name terminal) := by
  rw [cell?, Table.get?]
  cases hcolumn : T.terminals.idxOf? terminal with
  | none => rfl
  | some column =>
    cases hrow : T.rows.find? (·.nonTerminal = name) with
    | none => rfl
    | some row =>
      obtain ⟨hlt, -⟩ := List.idxOf?_eq_some_iff.mp hcolumn
      rw [← h row (List.mem_of_find?_eq_some hrow)] at hlt
      have hcell := List.getElem?_eq_getElem hlt
      simp [read_eq hcell, hcell]

end Checked

end PredictiveGrammar
