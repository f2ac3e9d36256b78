import PredictiveGrammar.Analysis.Table
import PredictiveGrammar.Json
import PredictiveGrammar.Text.Pieces
import PredictiveGrammar.Text.Tex

/-!
# Parsing tables as text

A parsing table as plain text, TeX and JSON. The plain text pads every column to its widest cell and
lists the conflicts below the table; the TeX text leaves the conflicts out.
-/

namespace PredictiveGrammar

open Text

/-! ## Plain text -/

/-- The text of a cell; an empty cell is blank. -/
def cellText : Option (List String) → String
  | some production => join " " production
  | none => ""

/-- The table's lines, uncut: the columns' names behind a blank corner, then each row behind the name
of its non-terminal. -/
def Table.grid (T : Table) : List (List String) :=
  ("" :: T.terminals) :: T.rows.map fun row => row.nonTerminal :: row.cells.map cellText

/-- The width of each column of a grid: that of its widest cell. -/
def columnWidths : List (List String) → List Nat
  | [] => []
  | [line] => line.map String.length
  | line :: lines => List.zipWith max (line.map String.length) (columnWidths lines)

/-- `conflict at [A, a]: one production replaced by another`. -/
def Conflict.toPlain (conflict : Conflict) : String :=
  "conflict at [" ++ conflict.nonTerminal ++ ", " ++ conflict.terminal ++ "]: " ++
    join " " conflict.replaced ++ " replaced by " ++ join " " conflict.chosen

/-- The lines of the table, then a line for each conflict. -/
def Table.toPlain (T : Table) : String :=
  let widths := columnWidths T.grid
  let lines := T.grid.map fun line => join " | " (List.zipWith padLeft widths line)
  join "\n" (lines ++ T.conflicts.map Conflict.toPlain)

/-! ## TeX -/

/-- A terminal in TeX. -/
def texTerminal (name : String) : String := "\\text\x7b" ++ Tex.escape name ++ "\x7d"

/-- A symbol of a production in TeX; the table says which names are terminals. -/
def Table.texSymbol (T : Table) (name : String) : String :=
  if name = epsilon then "\\epsilon"
  else if name ∈ T.terminals then texTerminal name
  else Tex.escape name

/-- A cell in TeX. -/
def Table.texCell (T : Table) : Option (List String) → String
  | some production => join " \\ " (production.map T.texSymbol)
  | none => ""

/-- A TeX array with a row for each non-terminal. -/
def Table.toTex (T : Table) : String :=
  let columns := join "" (T.terminals.map fun _ => "|l")
  let header := ("\\[\\begin\x7barray\x7d\x7bc" ++ columns ++ "\x7d\n") :: T.terminals.map texTerminal
  let rows := T.rows.map fun row => join " & " (Tex.escape row.nonTerminal :: row.cells.map T.texCell)
  join " & " header ++ "\\\\\\hline\n" ++ join "\\\\\n" rows ++ "\n\\end\x7barray\x7d\\]"

/-! ## JSON -/

/-- A cell as a JSON value. -/
def cellJson : Option (List String) → JsonValue
  | some production => .strings production
  | none => .null

/-- A row as a JSON object. -/
def Row.toJson (row : Row) : JsonValue :=
  .object [("non_terminal", .string row.nonTerminal), ("cells", .array (row.cells.map cellJson))]

/-- A conflict as a JSON object. -/
def Conflict.toJson (conflict : Conflict) : JsonValue :=
  .object [("non_terminal", .string conflict.nonTerminal), ("terminal", .string conflict.terminal),
    ("replaced", .strings conflict.replaced), ("chosen", .strings conflict.chosen)]

/-- The table as a JSON object. -/
def Table.toJson (T : Table) : JsonValue :=
  .object [("terminals", .strings T.terminals), ("rows", .array (T.rows.map Row.toJson)),
    ("conflicts", .array (T.conflicts.map Conflict.toJson))]

end PredictiveGrammar
