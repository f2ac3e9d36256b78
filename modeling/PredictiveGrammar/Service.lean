import PredictiveGrammar.Grammar.RuleText
import PredictiveGrammar.Report.Kinds
import PredictiveGrammar.Transform.Sequence

/-!
# JSON answers to rule text

Four functions from rule text to a JSON object, for callers that can pass nothing but text. An answer is
a report on the grammar of the text, or an object that holds the message of the error that was met.
-/

namespace PredictiveGrammar

namespace Service

/-- The object that holds an error's message. -/
def errorJson (error : GrammarError) : JsonValue := .object [("error", .string error.message)]

/-- The text of an answer. -/
def answer : Except GrammarError JsonValue → String
  | .ok value => value.render
  | .error error => (errorJson error).render

/-- The rules of the text without direct left recursion. -/
def eliminateLeftRecursion (text : String) : String :=
  answer do Rules.toJson <$> (← (← Grammar.parse text).withoutLeftRecursion).rules

/-- The rules of the text, left factored once. -/
def factorLeft (text : String) : String :=
  answer do Rules.toJson <$> (← (← Grammar.parse text).leftFactored).rules

/-- What the empty word, FIRST and FOLLOW are for each non-terminal of the text. -/
def summary (text : String) : String :=
  answer do
    let g ← Grammar.parse text
    let F := g.first
    SummaryReport.toJson <$> g.summaryReport F (← g.follow F)

/-- The parsing table of the text. -/
def table (text : String) : String :=
  answer do
    let g ← Grammar.parse text
    let F := g.first
    Table.toJson <$> g.table F (← g.follow F)

end Service

end PredictiveGrammar
