import PredictiveGrammar.Report.Rules
import PredictiveGrammar.Report.Sets
import PredictiveGrammar.Report.Table

/-!
# Kinds of reports

Five things can be reported of a grammar: its rules, its FIRST sets, its FOLLOW sets, a summary of both,
and its parsing table. Each can be written as plain text, TeX or JSON.
-/

namespace PredictiveGrammar

/-- What is reported of a grammar. -/
inductive ReportKind
  | rules
  | first
  | follow
  | summary
  | table
deriving DecidableEq

/-- How a report is written. -/
inductive Format
  | plain
  | tex
  | json
deriving DecidableEq

/-- A report on a grammar. -/
inductive Report
  /-- its rules -/
  | rules (rules : List Rule)
  /-- its FIRST or FOLLOW sets -/
  | sets (sets : SetReport)
  /-- FIRST and FOLLOW sets side by side -/
  | summary (summary : SummaryReport)
  /-- its parsing table -/
  | table (table : Table)

/-- The text of a report. -/
def Report.render : Format → Report → String
  | .plain, .rules list => Rules.toPlain list
  | .plain, .sets report => report.toPlain
  | .plain, .summary report => report.toPlain
  | .plain, .table T => T.toPlain
  | .tex, .rules list => Rules.toTex list
  | .tex, .sets report => report.toTex
  | .tex, .summary report => report.toTex
  | .tex, .table T => T.toTex
  | .json, .rules list => (Rules.toJson list).render
  | .json, .sets report => report.toJson.render
  | .json, .summary report => report.toJson.render
  | .json, .table T => T.toJson.render

namespace Grammar

/-- A report on a grammar, from its FIRST and FOLLOW sets. -/
def report (g : Grammar) (F : FirstSets) (W : FollowSets) : ReportKind → Except GrammarError Report
  | .rules => .rules <$> g.rules
  | .first => .sets <$> g.firstReport F
  | .follow => .sets <$> g.followReport W
  | .summary => .summary <$> g.summaryReport F W
  | .table => .table <$> g.table F W

/-- The texts of some reports on a grammar, whose FIRST and FOLLOW sets are computed once. -/
def reports (g : Grammar) (kinds : List ReportKind) (format : Format) :
    Except GrammarError (List String) := do
  let F := g.first
  let W ← g.follow F
  kinds.mapM fun kind => Report.render format <$> g.report F W kind

end Grammar

end PredictiveGrammar
