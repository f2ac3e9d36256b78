import PredictiveGrammar.Report.Kinds

/-!
# Reports are recovered from JSON

Decoders for the JSON values of rules, summaries and tables, which look at the names of fields and not at their order.
What they recover from a report's value is the report (`Rules.ofJson?_toJson`, `SummaryReport.ofJson?_toJson`,
`Table.ofJson?_toJson`).
-/

namespace PredictiveGrammar

namespace JsonValue

/-- The text that a value is. -/
def text? : JsonValue → Option String
  | .string value => some value
  | _ => none

/-- The truth value that a value is. -/
def bool? : JsonValue → Option Bool
  | .bool value => some value
  | _ => none

/-- The value of a field of an object. -/
def field? (name : String) : JsonValue → Option JsonValue
  | .object fields => fields.lookup name
  | _ => none

/-- A field is found where it comes first. -/
@[simp] theorem field?_self {name : String} {value : JsonValue} {fields : List (String × JsonValue)} :
    field? name (.object ((name, value) :: fields)) = some value :=
  List.lookup_cons_self

/-- A field is found behind fields with other names. -/
theorem field?_cons {name other : String} {value : JsonValue} {fields : List (String × JsonValue)} (h : name ≠ other) :
    field? name (.object ((other, value) :: fields)) = field? name (.object fields) := by
  simp only [field?, List.lookup_cons, beq_false_of_ne h]

/-- The items of an array, each decoded. -/
def items? {α : Type} (decode : JsonValue → Option α) : JsonValue → Option (List α)
  | .array items => items.mapM decode
  | _ => none

/-- The items of an array of texts. -/
def texts? : JsonValue → Option (List String) := items? text?

variable {α : Type} {encode : α → JsonValue} {decode : JsonValue → Option α}

/-- An array is recovered if every item is. -/
theorem items?_map (h : ∀ a, decode (encode a) = some a) (l : List α) :
    items? decode (.array (l.map encode)) = some l := by
  rw [items?]
  induction l with
  | nil => rfl
  | cons a l ih =>
    rw [List.map_cons, List.mapM_cons, h a, ih]
    rfl

/-- An array of texts is read back as these texts. -/
theorem texts?_strings (l : List String) : texts? (strings l) = some l := by
  have htext : ∀ value : String, text? (.string value) = some value := fun _ => rfl
  exact items?_map htext l

end JsonValue

/-! ## Rules -/

/-- The rule that a value describes. -/
def Rule.ofJson? (value : JsonValue) : Option Rule := do
  let left ← (← value.field? "left").text?
  let rights ← (← value.field? "rights").items? JsonValue.texts?
  return ⟨left, rights⟩

/-- The rules that a value describes. -/
def Rules.ofJson? (value : JsonValue) : Option (List Rule) := do
  (← value.field? "productions").items? Rule.ofJson?

theorem Rule.ofJson?_toJson (rule : Rule) : Rule.ofJson? rule.toJson = some rule := by
  have hrights := JsonValue.items?_map JsonValue.texts?_strings rule.rights
  simp [Rule.ofJson?, Rule.toJson, JsonValue.field?_cons, JsonValue.text?, hrights]

/-- **Rules are recovered.** -/
theorem Rules.ofJson?_toJson (rules : List Rule) : Rules.ofJson? (Rules.toJson rules) = some rules :=
  JsonValue.items?_map Rule.ofJson?_toJson rules

/-! ## Summaries -/

/-- The summary of a non-terminal that a value describes. -/
def SummaryEntry.ofJson? (value : JsonValue) : Option SummaryEntry := do
  let name ← (← value.field? "name").text?
  let nullable ← (← value.field? "nullable").bool?
  let first ← (← value.field? "first").texts?
  let follow ← (← value.field? "follow").texts?
  return ⟨name, nullable, first, follow⟩

/-- The summary that a value describes. -/
def SummaryReport.ofJson? (value : JsonValue) : Option SummaryReport := do
  (← value.field? "data").items? SummaryEntry.ofJson?

theorem SummaryEntry.ofJson?_toJson (entry : SummaryEntry) : SummaryEntry.ofJson? entry.toJson = some entry := by
  simp [SummaryEntry.ofJson?, SummaryEntry.toJson, JsonValue.field?_cons, JsonValue.text?, JsonValue.bool?,
    JsonValue.texts?_strings]

/-- **Summaries are recovered.** -/
theorem SummaryReport.ofJson?_toJson (report : SummaryReport) : SummaryReport.ofJson? report.toJson = some report :=
  JsonValue.items?_map SummaryEntry.ofJson?_toJson report

/-! ## Tables -/

/-- The cell that a value describes. -/
def cellOfJson? : JsonValue → Option (Option (List String))
  | .null => some none
  | value => some <$> value.texts?

/-- The row that a value describes. -/
def Row.ofJson? (value : JsonValue) : Option Row := do
  let nonTerminal ← (← value.field? "non_terminal").text?
  let cells ← (← value.field? "cells").items? cellOfJson?
  return ⟨nonTerminal, cells⟩

/-- The conflict that a value describes. -/
def Conflict.ofJson? (value : JsonValue) : Option Conflict := do
  let nonTerminal ← (← value.field? "non_terminal").text?
  let terminal ← (← value.field? "terminal").text?
  let replaced ← (← value.field? "replaced").texts?
  let chosen ← (← value.field? "chosen").texts?
  return ⟨nonTerminal, terminal, replaced, chosen⟩

/-- The table that a value describes. -/
def Table.ofJson? (value : JsonValue) : Option Table := do
  let terminals ← (← value.field? "terminals").texts?
  let rows ← (← value.field? "rows").items? Row.ofJson?
  let conflicts ← (← value.field? "conflicts").items? Conflict.ofJson?
  return ⟨terminals, rows, conflicts⟩

/-- An empty cell and one with a production are told apart. -/
theorem cellOfJson?_cellJson (cell : Option (List String)) : cellOfJson? (cellJson cell) = some cell := by
  cases cell with
  | none => rfl
  | some production => exact congrArg (Option.map some) (JsonValue.texts?_strings production)

theorem Row.ofJson?_toJson (row : Row) : Row.ofJson? row.toJson = some row := by
  have hcells := JsonValue.items?_map cellOfJson?_cellJson row.cells
  simp [Row.ofJson?, Row.toJson, JsonValue.field?_cons, JsonValue.text?, hcells]

theorem Conflict.ofJson?_toJson (conflict : Conflict) : Conflict.ofJson? conflict.toJson = some conflict := by
  simp [Conflict.ofJson?, Conflict.toJson, JsonValue.field?_cons, JsonValue.text?, JsonValue.texts?_strings]

/-- **Tables are recovered.** -/
theorem Table.ofJson?_toJson (T : Table) : Table.ofJson? T.toJson = some T := by
  have hrows := JsonValue.items?_map Row.ofJson?_toJson T.rows
  have hconflicts := JsonValue.items?_map Conflict.ofJson?_toJson T.conflicts
  simp [Table.ofJson?, Table.toJson, JsonValue.field?_cons, JsonValue.texts?_strings, hrows, hconflicts]

end PredictiveGrammar
