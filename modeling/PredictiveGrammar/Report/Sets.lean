import PredictiveGrammar.Analysis.Follow
import PredictiveGrammar.Json
import PredictiveGrammar.Text.Pieces
import PredictiveGrammar.Text.Tex

/-!
# FIRST and FOLLOW sets as text

A `SetReport` lists FIRST or FOLLOW of every non-terminal by name, the members of a set sorted by code
points with `ε` behind the others (`Grammar.namesOfSet`). A `SummaryReport` puts FIRST and FOLLOW of
each non-terminal side by side and says whether it derives the empty word.
-/

namespace PredictiveGrammar

open Text

/-- The names of the members of a set, sorted, `ε` last. -/
def Grammar.namesOfSet (g : Grammar) (set : SymbolSet) : Except GrammarError (List String) := do
  let names ← g.namesOf (set.erase epsilonIndex).toList
  let sorted := names.mergeSort (· ≤ ·)
  return if epsilonIndex ∈ set then sorted ++ [epsilon] else sorted

/-- The names of the members of a set, none if there is no set. -/
def Grammar.namesOfSet? (g : Grammar) : Option SymbolSet → Except GrammarError (List String)
  | some set => g.namesOfSet set
  | none => return []

/-! ## One kind of sets -/

/-- The set of one non-terminal. -/
structure SetEntry where
  /-- the non-terminal -/
  name : String
  /-- the members of its set -/
  members : List String
deriving DecidableEq

/-- The sets of one kind. -/
structure SetReport where
  /-- the kind -/
  kind : SetKind
  /-- an entry for each non-terminal, in order of declaration -/
  entries : List SetEntry
deriving DecidableEq

namespace SetEntry

/-- `FIRST(A) = { a, b }`. -/
def toPlain (kind : SetKind) (entry : SetEntry) : String :=
  kind.name ++ "(" ++ entry.name ++ ") = \x7b " ++ join ", " entry.members ++ " \x7d"

/-- A row of a TeX array. -/
def toTex (kind : SetKind) (entry : SetEntry) : String :=
  let members := Tex.replaceEpsilon "\\epsilon" (join ", " (entry.members.map Tex.escape))
  "\\mathrm\x7b" ++ kind.name ++ "\x7d(" ++ Tex.escape entry.name ++ ") &=& \\\x7b " ++ members ++
    " \\\x7d"

/-- The entry as a JSON object. -/
def toJson (entry : SetEntry) : JsonValue :=
  .object [("name", .string entry.name), ("set", .strings entry.members)]

end SetEntry

namespace SetReport

/-- One set a line. -/
def toPlain (report : SetReport) : String := join "\n" (report.entries.map (·.toPlain report.kind))

/-- A TeX array with one row for each set. -/
def toTex (report : SetReport) : String :=
  "\\[\\begin\x7barray\x7d\x7brcl\x7d\n" ++
    join "\\\\\n" (report.entries.map (·.toTex report.kind)) ++ "\n\\end\x7barray\x7d\\]"

/-- The sets as a JSON object. -/
def toJson (report : SetReport) : JsonValue :=
  .object [("kind", .string report.kind.name), ("data", .array (report.entries.map SetEntry.toJson))]

end SetReport

namespace Grammar

/-- The report on some sets, each found by the index of its non-terminal. -/
def setReport (g : Grammar) (kind : SetKind) (find : Nat → Option SymbolSet) :
    Except GrammarError SetReport :=
  return ⟨kind, ← g.nonTerminals.mapM fun nt => return ⟨nt.name, ← g.namesOfSet? (find nt.index)⟩⟩

/-- The report on FIRST sets. -/
def firstReport (g : Grammar) (F : FirstSets) : Except GrammarError SetReport :=
  g.setReport .first F.get?

/-- The report on FOLLOW sets. -/
def followReport (g : Grammar) (W : FollowSets) : Except GrammarError SetReport :=
  g.setReport .follow W.get?

end Grammar

/-! ## Both kinds side by side -/

/-- What is known of one non-terminal. -/
structure SummaryEntry where
  /-- the non-terminal -/
  name : String
  /-- whether it derives the empty word -/
  nullable : Bool
  /-- the members of FIRST -/
  first : List String
  /-- the members of FOLLOW -/
  follow : List String
deriving DecidableEq

namespace SummaryEntry

/-- The four columns between bars. -/
def toPlain (entry : SummaryEntry) : String :=
  join " | " [entry.name, toString entry.nullable, join ", " entry.first, join ", " entry.follow]

/-- The members of a set in a cell of a TeX table. -/
def texMembers (members : List String) : String :=
  Tex.replaceEpsilon "$\\epsilon$" (join "\\ " (members.map Tex.escape))

/-- A row of a TeX table. -/
def toTex (entry : SummaryEntry) : String :=
  join " & " [Tex.escape entry.name, toString entry.nullable, texMembers entry.first,
    texMembers entry.follow]

/-- The entry as a JSON object. -/
def toJson (entry : SummaryEntry) : JsonValue :=
  .object [("name", .string entry.name), ("nullable", .bool entry.nullable),
    ("first", .strings entry.first), ("follow", .strings entry.follow)]

end SummaryEntry

/-- An entry for each non-terminal, in order of declaration. -/
abbrev SummaryReport := List SummaryEntry

namespace SummaryReport

/-- One non-terminal a line. -/
def toPlain (report : SummaryReport) : String := join "\n" (report.map SummaryEntry.toPlain)

/-- A TeX table with one row for each non-terminal. -/
def toTex (report : SummaryReport) : String :=
  "\\begin\x7btabular\x7d\x7bc|c|c|c\x7d\nSymbol & Nullable & First & Follow\\\\\\hline\n" ++
    join "\\\\\n " (report.map SummaryEntry.toTex) ++ "\\\\\n\\end\x7btabular\x7d"

/-- The entries as a JSON object. -/
def toJson (report : SummaryReport) : JsonValue :=
  .object [("data", .array (report.map SummaryEntry.toJson))]

end SummaryReport

/-- The summary of FIRST and FOLLOW sets. -/
def Grammar.summaryReport (g : Grammar) (F : FirstSets) (W : FollowSets) :
    Except GrammarError SummaryReport :=
  g.nonTerminals.mapM fun nt => return {
    name := nt.name
    nullable := F.nullable nt.index
    first := ← g.namesOfSet? (F.get? nt.index)
    follow := ← g.namesOfSet? (W.get? nt.index) }

end PredictiveGrammar
