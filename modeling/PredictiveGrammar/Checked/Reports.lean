import PredictiveGrammar.Checked.Access
import PredictiveGrammar.Report.Kinds

/-!
# Analyses and reports, access by access

FIRST sets are read and stored at the indices of their non-terminals. A row of the table has its cells by column and
holds the numbers of productions (`Checked.claim`). The plain text of the table goes to the cells of its lines by
column to find the widths.
-/

namespace PredictiveGrammar

namespace Checked

/-! ## FIRST sets -/

/-- Recomputes the set of one non-terminal and stores it if its size is new; says whether it was. -/
def visit (F : FirstSets) (nt : NonTerminal) : Checked (FirstSets × Bool) := do
  let set := F.ofProductions nt.productions
  if (← read F.sets nt.index).size = set.size then return (F, false)
  else return ({ F with sets := ← write F.sets nt.index set }, true)

/-- Visits some non-terminals in order; says whether any set was stored. -/
def round (nts : List NonTerminal) (F : FirstSets) : Checked (FirstSets × Bool) :=
  nts.foldlM (fun state nt => do
    let (F, changed) ← visit state.1 nt
    return (F, state.2 || changed)) (F, false)

/-- Repeats rounds, at most as many as `rounds`, until one stores nothing. -/
def stabilise (nts : List NonTerminal) : (rounds : Nat) → FirstSets → Checked FirstSets
  | 0, F => return F
  | rounds + 1, F => do
    let (next, changed) ← round nts F
    if changed then stabilise nts rounds next else return next

/-- The FIRST sets of a grammar. -/
def first (g : Grammar) : Checked FirstSets :=
  stabilise g.nonTerminals (g.nonTerminals.length * g.memberBound + 1) (.initial g)

/-! ## The table -/

/-- A row as filled so far. -/
structure CellFill where
  /-- for each column the number of the production that holds the cell -/
  cells : List (Option Nat)
  /-- the clashes so far -/
  clashes : List Clash

/-- Gives a production, which comes with its number, the cell of `terminal`. Without such a column nothing happens. -/
def claim (columns : List Nat) (productions : List Production) (entry : Production × Nat) (row : CellFill)
    (terminal : Nat) : Checked CellFill :=
  match columns.idxOf? terminal with
  | none => return row
  | some column => do
    let holder ← read row.cells column
    let cells ← write row.cells column (some entry.2)
    match holder with
    | none => return ⟨cells, row.clashes⟩
    | some previous => return ⟨cells, row.clashes ++ [⟨terminal, ← read productions previous, entry.1⟩]⟩

/-- The row of a non-terminal, by index. -/
def fillRow (g : Grammar) (F : FirstSets) (W : FollowSets) (nt : NonTerminal) : Checked CellFill :=
  nt.productions.zipIdx.foldlM (fun row entry =>
      (predict F W nt.index entry.1).toList.foldlM (claim g.columns nt.productions entry) row)
    ⟨g.columns.map fun _ => none, []⟩

/-- The row of a non-terminal and the conflicts in it, by name. -/
def tableRow (g : Grammar) (F : FirstSets) (W : FollowSets) (nt : NonTerminal) : Checked (Row × List Conflict) := do
  let row ← fillRow g F W nt
  let cells ← row.cells.mapM fun cell => cell.mapM fun number => do of (g.namesOf (← read nt.productions number))
  return (⟨nt.name, cells⟩, ← of (row.clashes.mapM (g.nameClash nt)))

/-- The predictive parsing table of a grammar. -/
def table (g : Grammar) (F : FirstSets) (W : FollowSets) : Checked Table := do
  of (g.checkSets F W)
  let rows ← g.nonTerminals.mapM (tableRow g F W)
  return ⟨← of (g.namesOf g.columns), rows.map (·.1), rows.flatMap (·.2)⟩

/-- The production in the cell of a non-terminal and a terminal. -/
def cell? (T : Table) (nonTerminal terminal : String) : Checked (Option (List String)) :=
  match T.terminals.idxOf? terminal, T.rows.find? (·.nonTerminal = nonTerminal) with
  | some column, some row => read row.cells column
  | _, _ => return none

/-! ## The text of a table -/

/-- The width of the widest cell of a column. -/
def columnWidth (grid : List (List String)) (column : Nat) : Checked Nat := do
  let widths ← grid.mapM fun line => String.length <$> read line column
  return widths.foldr max 0

/-- The width of each column of the first line. -/
def columnWidths (grid : List (List String)) : Checked (List Nat) := do
  (List.range (← read grid 0).length).mapM (columnWidth grid)

/-- The cells of a line, each padded to the width of its column. -/
def padLine (widths : List Nat) (line : List String) : Checked (List String) :=
  line.zipIdx.mapM fun (cell, column) => return Text.padLeft (← read widths column) cell

/-- The lines of the table, then a line for each conflict. -/
def tableText (T : Table) : Checked String := do
  let widths ← columnWidths T.grid
  let lines ← T.grid.mapM fun line => Text.join " | " <$> padLine widths line
  return Text.join "\n" (lines ++ T.conflicts.map Conflict.toPlain)

/-! ## Reports -/

/-- A report on a grammar. -/
def report (g : Grammar) (F : FirstSets) (W : FollowSets) : ReportKind → Checked Report
  | .table => .table <$> table g F W
  | kind => of (g.report F W kind)

/-- The text of a report. -/
def render : Format → Report → Checked String
  | .plain, .table T => tableText T
  | format, report => return report.render format

/-- The texts of some reports on a grammar. -/
def reports (g : Grammar) (kinds : List ReportKind) (format : Format) : Checked (List String) := do
  let F ← first g
  let W ← of (g.follow F)
  kinds.mapM fun kind => do render format (← report g F W kind)

end Checked

end PredictiveGrammar
