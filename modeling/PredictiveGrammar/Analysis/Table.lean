import PredictiveGrammar.Analysis.Follow

/-!
# Predictive parsing tables

The table says which production to use for a non-terminal when a terminal comes next. A production claims
the cells of the terminals that can begin it, and if it derives the empty word, those of the terminals
that can stand behind the non-terminal (`predict`). Productions claim their cells in order; a later claim
takes a cell from an earlier one and is recorded as a clash (`RowFill.claim`). A grammar is LL(1) if the
table has no conflicts.

Filling works on indices; `Grammar.table` then gives the names.
-/

namespace PredictiveGrammar

/-! ## The table -/

/-- The cells of one non-terminal. -/
structure Row where
  /-- the name of the non-terminal -/
  nonTerminal : String
  /-- for each column the chosen production, if any -/
  cells : List (Option (List String))
deriving DecidableEq

/-- A cell that a later production took from an earlier one. -/
structure Conflict where
  /-- the row -/
  nonTerminal : String
  /-- the column -/
  terminal : String
  /-- the earlier production -/
  replaced : List String
  /-- the later production -/
  chosen : List String
deriving DecidableEq

/-- A predictive parsing table. -/
structure Table where
  /-- the columns -/
  terminals : List String
  /-- a row for each non-terminal, in order of declaration -/
  rows : List Row
  /-- all conflicts, in the order in which they arose -/
  conflicts : List Conflict
deriving DecidableEq

/-- The production in the cell of a non-terminal and a terminal. -/
def Table.get? (T : Table) (nonTerminal terminal : String) : Option (List String) := do
  let column ← T.terminals.idxOf? terminal
  let row ← T.rows.find? (·.nonTerminal = nonTerminal)
  (← row.cells[column]?)

/-! ## Filling a row -/

/-- The terminals for which a production of the non-terminal at `left` is to be used. -/
def predict (F : FirstSets) (W : FollowSets) (left : Nat) (production : Production) : SymbolSet :=
  let first := F.ofSequence production
  if epsilonIndex ∈ first then first.erase epsilonIndex ∪ W.sets.getD left
  else first.erase epsilonIndex

/-- A cell of the row for `terminal` that was claimed twice. -/
structure Clash where
  /-- the column -/
  terminal : Nat
  /-- the earlier production -/
  replaced : Production
  /-- the later production -/
  chosen : Production
deriving DecidableEq

/-- A row as filled so far. -/
structure RowFill where
  /-- each column's terminal with the production that holds the cell -/
  cells : List (Nat × Option Production)
  /-- the clashes so far -/
  clashes : List Clash
deriving DecidableEq

namespace RowFill

/-- A row without productions. -/
def blank (columns : List Nat) : RowFill := ⟨columns.map (·, none), []⟩

/-- Gives a production the cell of `terminal`. Without such a column nothing happens. -/
def claim (production : Production) (row : RowFill) (terminal : Nat) : RowFill :=
  match row.cells.lookup terminal with
  | none => row
  | some cell =>
    { cells := row.cells.map fun (column, cell) =>
        (column, if column = terminal then some production else cell)
      clashes := match cell with
        | none => row.clashes
        | some holder => row.clashes ++ [⟨terminal, holder, production⟩] }

/-- Gives a production all cells of some terminals, in ascending order. -/
def claimAll (row : RowFill) (production : Production) (terminals : SymbolSet) : RowFill :=
  terminals.toList.foldl (claim production) row

end RowFill

namespace Grammar

/-- The terminals of the columns: all in order, the end mark last. -/
def columns (g : Grammar) : List Nat :=
  (g.terminals.map (·.1)).filter (· != endMarkIndex) ++ [endMarkIndex]

/-- The row of a non-terminal, by index. -/
def fillRow (g : Grammar) (F : FirstSets) (W : FollowSets) (nt : NonTerminal) : RowFill :=
  nt.productions.foldl (fun row production => row.claimAll production (predict F W nt.index production))
    (.blank g.columns)

/-! ## Naming -/

/-- The row of a non-terminal, by name. -/
def nameRow (g : Grammar) (nt : NonTerminal) (row : RowFill) : Except GrammarError Row :=
  return ⟨nt.name, ← row.cells.mapM fun (_, cell) => cell.mapM g.namesOf⟩

/-- A clash in the row of a non-terminal, by name. -/
def nameClash (g : Grammar) (nt : NonTerminal) (clash : Clash) : Except GrammarError Conflict :=
  return ⟨nt.name, ← g.nameOf clash.terminal, ← g.namesOf clash.replaced, ← g.namesOf clash.chosen⟩

/-- The predictive parsing table of a grammar, from its own FIRST and FOLLOW sets. -/
def table (g : Grammar) (F : FirstSets) (W : FollowSets) : Except GrammarError Table := do
  g.checkSets F W
  let fills := g.nonTerminals.map fun nt => (nt, g.fillRow F W nt)
  let rows ← fills.mapM fun (nt, row) => g.nameRow nt row
  let conflicts ← fills.mapM fun (nt, row) => row.clashes.mapM (g.nameClash nt)
  return ⟨← g.namesOf g.columns, rows, conflicts.flatten⟩

end Grammar

end PredictiveGrammar
