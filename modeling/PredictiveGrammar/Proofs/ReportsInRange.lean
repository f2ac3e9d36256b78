import PredictiveGrammar.Proofs.CellsInRange

/-!
# Reports stay in range

Members of FIRST and FOLLOW sets have names, so every report can be made (`Checked.report_eq`). Only the plain text of
a table goes to its cells by column, and all lines of a table have the same length (`Checked.tableText_eq`). So the
checked reports are the reports (`Checked.reports_eq`).
-/

namespace PredictiveGrammar

variable {g : Grammar} {W : FollowSets} {grid : List (List String)} {line : List String} {widths : List Nat}
  {n column : Nat}

namespace Checked

/-! ## The text of a table -/

/-- The length of what a line has in a column. -/
def cellWidth (column : Nat) (cells : List String) : Nat := (cells[column]?.map String.length).getD 0

/-- Measuring a column stays in range if every line reaches it. -/
theorem columnWidth_eq (h : ∀ line ∈ grid, column < line.length) :
    columnWidth grid column = .ok ((grid.map (cellWidth column)).foldr max 0) := by
  have hwidths : grid.mapM (fun line => String.length <$> read line column) = .ok (grid.map (cellWidth column)) := by
    refine mapM_eq_ok fun line hline => ?_
    have hcell := List.getElem?_eq_getElem (h line hline)
    rw [read_eq hcell, cellWidth, hcell]
    rfl
  rw [columnWidth, hwidths]
  rfl

theorem map_length_eq (h : line.length = n) :
    line.map String.length = (List.range n).map fun column => cellWidth column line := by
  subst h
  refine List.ext_getElem (by simp) fun column hcolumn _ => ?_
  rw [List.length_map] at hcolumn
  simp [cellWidth, hcolumn]

/-- Every column is as wide as its widest cell. -/
theorem columnWidths_eq_map (hne : grid ≠ []) (h : ∀ line ∈ grid, line.length = n) :
    PredictiveGrammar.columnWidths grid =
      (List.range n).map fun column => (grid.map (cellWidth column)).foldr max 0 := by
  induction grid using PredictiveGrammar.columnWidths.induct with
  | case1 => exact absurd rfl hne
  | case2 line =>
    rw [PredictiveGrammar.columnWidths, map_length_eq (h line List.mem_cons_self)]
    simp
  | case3 line lines hlines ih =>
    obtain ⟨hline, hlines'⟩ := List.forall_mem_cons.mp h
    rw [PredictiveGrammar.columnWidths, map_length_eq hline, ih hlines hlines']
    · simp [List.zipWith_map]
    · exact hlines

/-- Measuring all columns does if lines have the same length. -/
theorem columnWidths_eq (hne : grid ≠ []) (h : ∀ line ∈ grid, line.length = n) :
    columnWidths grid = .ok (PredictiveGrammar.columnWidths grid) := by
  obtain ⟨header, lines, rfl⟩ := List.exists_cons_of_ne_nil hne
  have hheader : read (header :: lines) 0 = .ok header := rfl
  rw [columnWidths, hheader, ok_bind, h header List.mem_cons_self, columnWidths_eq_map hne h]
  exact mapM_eq_ok fun column hcolumn => columnWidth_eq fun line hline => by
    rw [h line hline]
    exact List.mem_range.mp hcolumn

/-- Padding a line stays in range if there is a width for every cell. -/
theorem padLine_eq (h : line.length = widths.length) :
    padLine widths line = .ok (List.zipWith Text.padLeft widths line) := by
  have hcells : padLine widths line =
      .ok (line.zipIdx.map fun cell => Text.padLeft (widths[cell.2]?.getD 0) cell.1) := by
    refine mapM_eq_ok fun cell hcell => ?_
    have hlt := (List.getElem?_eq_some_iff.mp (List.mem_zipIdx_iff_getElem?.mp hcell)).1
    have hwidth := List.getElem?_eq_getElem (h ▸ hlt)
    change (read widths cell.2 >>= fun width => pure (Text.padLeft width cell.1)) = _
    rw [read_eq hwidth, hwidth]
    rfl
  rw [hcells]
  refine congrArg Except.ok (List.ext_getElem (by simp [h]) fun column hcolumn hzip => ?_)
  have hwidth : column < widths.length := by
    rw [List.length_zipWith] at hzip
    omega
  simp [hwidth]

/-- **The plain text of a table stays in range** if its rows have a cell for each column. -/
theorem tableText_eq {T : Table} (h : ∀ row ∈ T.rows, row.cells.length = T.terminals.length) :
    tableText T = .ok T.toPlain := by
  have hlines : ∀ line ∈ T.grid, line.length = T.terminals.length + 1 := by simpa [Table.grid] using h
  have hne : T.grid ≠ [] := by simp [Table.grid]
  have hwidths := columnWidths_eq_map hne hlines
  have hpadded : T.grid.mapM (fun line => Text.join " | " <$> padLine (PredictiveGrammar.columnWidths T.grid) line) =
      .ok (T.grid.map fun line =>
        Text.join " | " (List.zipWith Text.padLeft (PredictiveGrammar.columnWidths T.grid) line)) := by
    refine mapM_eq_ok fun line hline => ?_
    rw [padLine_eq (by simp [hwidths, hlines line hline])]
    rfl
  rw [tableText, columnWidths_eq hne hlines, ok_bind, hpadded]
  rfl

end Checked

/-! ## Sets by name -/

namespace Grammar

theorem exists_namesOfSet {set : SymbolSet} (h : ∀ a ∈ set, a < g.symbols.length) :
    ∃ names, g.namesOfSet set = .ok names := by
  have hmembers : ∀ a ∈ (set.erase epsilonIndex).toList, a < g.symbols.length := fun a ha =>
    h a (SymbolSet.mem_erase.mp ha).1
  rw [namesOfSet, namesOf_eq hmembers]
  exact ⟨_, rfl⟩

/-- If all sets can be named, so can a report on them be made. -/
theorem exists_setReport (kind : SetKind) {find : Nat → Option SymbolSet}
    (h : ∀ nt ∈ g.nonTerminals, ∃ names, g.namesOfSet? (find nt.index) = .ok names) :
    ∃ report, g.setReport kind find = .ok report := by
  choose! names hnames using h
  have hentries : g.nonTerminals.mapM (fun nt => do return (⟨nt.name, ← g.namesOfSet? (find nt.index)⟩ : SetEntry)) =
      .ok (g.nonTerminals.map fun nt => ⟨nt.name, names nt⟩) := by
    refine mapM_eq_ok fun nt hnt => ?_
    rw [hnames nt hnt]
    rfl
  rw [setReport, hentries]
  exact ⟨_, rfl⟩

namespace WellFormed

variable (hg : g.WellFormed)
include hg

/-- FIRST of a non-terminal holds indices of symbols. -/
theorem exists_first {nt : NonTerminal} (hnt : nt ∈ g.nonTerminals) :
    ∃ set, g.first.get? nt.index = some set ∧ ∀ a ∈ set, a < g.symbols.length := by
  refine ⟨_, FirstSets.get?_eq_some (hg.length_first ▸ hg.index_lt hnt), fun a ha => ?_⟩
  rcases hg.first_rising.members nt.index a ha with rfl | hterminal
  · exact hg.epsilon_lt
  · exact lt_of_isTerminal hterminal

/-- So does FOLLOW. -/
theorem exists_follow (hW : W.Exact g) {nt : NonTerminal} (hnt : nt ∈ g.nonTerminals) :
    ∃ set, W.get? nt.index = some set ∧ ∀ a ∈ set, a < g.symbols.length := by
  have hindex := hg.isNonTerminal_index hnt
  refine ⟨_, SetFamily.get?_eq_some_getD ((hW.keys nt.index).mpr hindex), fun a ha => ?_⟩
  rcases (hW.mem_iff _ hindex a).mp ha with ⟨hterminal, -⟩ | ⟨rfl, -⟩
  · exact lt_of_isTerminal hterminal
  · exact lt_of_isTerminal hg.isTerminal_endMark

/-- FIRST of a non-terminal can be named. -/
theorem exists_names_first {nt : NonTerminal} (hnt : nt ∈ g.nonTerminals) :
    ∃ names, g.namesOfSet? (g.first.get? nt.index) = .ok names := by
  obtain ⟨set, hset, hlt⟩ := hg.exists_first hnt
  rw [hset]
  exact exists_namesOfSet hlt

/-- FOLLOW of a non-terminal can be named. -/
theorem exists_names_follow (hW : W.Exact g) {nt : NonTerminal} (hnt : nt ∈ g.nonTerminals) :
    ∃ names, g.namesOfSet? (W.get? nt.index) = .ok names := by
  obtain ⟨set, hset, hlt⟩ := hg.exists_follow hW hnt
  rw [hset]
  exact exists_namesOfSet hlt

/-- The summary of all sets can be made. -/
theorem exists_summaryReport (hW : W.Exact g) : ∃ report, g.summaryReport g.first W = .ok report := by
  choose! first hfirst using fun nt (hnt : nt ∈ g.nonTerminals) => hg.exists_names_first hnt
  choose! follow hfollow using fun nt (hnt : nt ∈ g.nonTerminals) => hg.exists_names_follow hW hnt
  refine ⟨g.nonTerminals.map fun nt => ⟨nt.name, g.first.nullable nt.index, first nt, follow nt⟩, ?_⟩
  refine mapM_eq_ok fun nt hnt => ?_
  rw [hfirst nt hnt, hfollow nt hnt]
  rfl

end WellFormed

end Grammar

/-! ## All reports -/

namespace Checked

variable (hg : g.WellFormed) (hW : W.Exact g)
include hg hW

theorem table_own : table g g.first W = .ok (g.namedTable g.first W) :=
  table_eq hg (hg.isTerminal_of_mem_claims hW) g.isFor_first hW.isFor

/-- **Every report is made and written.** -/
theorem report_eq (kind : ReportKind) (format : Format) :
    ∃ made, g.report g.first W kind = .ok made ∧ report g g.first W kind = .ok made ∧
      render format made = .ok (made.render format) := by
  cases kind with
  | rules =>
    have hmade : g.report g.first W .rules = .ok (.rules g.namedRules) := by
      rw [Grammar.report, hg.rules_eq]
      rfl
    exact ⟨_, hmade, congrArg of hmade, by cases format <;> rfl⟩
  | first =>
    obtain ⟨sets, hsets⟩ := Grammar.exists_setReport .first fun nt => hg.exists_names_first
    have hmade : g.report g.first W .first = .ok (.sets sets) := by
      rw [Grammar.report, Grammar.firstReport, hsets]
      rfl
    exact ⟨_, hmade, congrArg of hmade, by cases format <;> rfl⟩
  | follow =>
    obtain ⟨sets, hsets⟩ := Grammar.exists_setReport .follow fun nt => hg.exists_names_follow hW
    have hmade : g.report g.first W .follow = .ok (.sets sets) := by
      rw [Grammar.report, Grammar.followReport, hsets]
      rfl
    exact ⟨_, hmade, congrArg of hmade, by cases format <;> rfl⟩
  | summary =>
    obtain ⟨summary, hsummary⟩ := hg.exists_summaryReport hW
    have hmade : g.report g.first W .summary = .ok (.summary summary) := by
      rw [Grammar.report, hsummary]
      rfl
    exact ⟨_, hmade, congrArg of hmade, by cases format <;> rfl⟩
  | table =>
    have hmade : g.report g.first W .table = .ok (.table (g.namedTable g.first W)) := by
      rw [Grammar.report, hg.table_own hW]
      rfl
    -- only the plain text of a table looks up by index
    have htext := tableText_eq fun row => length_cells hg (hg.isTerminal_of_mem_claims hW)
    refine ⟨_, hmade, by rw [report, table_own hg hW]; rfl, ?_⟩
    cases format with
    | plain => exact htext
    | tex => rfl
    | json => rfl

omit hW in
/-- **All reports asked for are made and written**, one text for each. -/
theorem reports_eq (kinds : List ReportKind) (format : Format) :
    ∃ texts, reports g kinds format = .ok texts ∧ g.reports kinds format = .ok texts ∧ texts.length = kinds.length := by
  obtain ⟨W, hfollow, hW⟩ := hg.follow_eq
  choose made hplain hchecked hrender using fun kind => report_eq hg hW kind format
  refine ⟨kinds.map fun kind => (made kind).render format, ?_, ?_, List.length_map _⟩
  · rw [reports, first_eq hg, ok_bind, hfollow, of_ok, ok_bind]
    exact mapM_eq_ok fun kind _ => by rw [hchecked, ok_bind, hrender]
  · rw [Grammar.reports, hfollow, ok_bind]
    exact mapM_eq_ok fun kind _ => by rw [hplain]; rfl

end Checked

end PredictiveGrammar
