import PredictiveGrammar.Analysis.Table
import PredictiveGrammar.CommandLine.Run
import PredictiveGrammar.Grammar.Derivation
import PredictiveGrammar.Main
import PredictiveGrammar.Service
import PredictiveGrammar.Transform.Built
import PredictiveGrammar.Proofs.Arena
import PredictiveGrammar.Proofs.Building
import PredictiveGrammar.Proofs.SetSize
import PredictiveGrammar.Proofs.TidyRules
import PredictiveGrammar.Proofs.FreshNames
import PredictiveGrammar.Proofs.Replacement
import PredictiveGrammar.Proofs.BuiltGrammars
import PredictiveGrammar.Proofs.Derivations
import PredictiveGrammar.Proofs.FirstFixpoint
import PredictiveGrammar.Proofs.FirstExact
import PredictiveGrammar.Proofs.Worklists
import PredictiveGrammar.Proofs.FollowClosure
import PredictiveGrammar.Proofs.FollowExact
import PredictiveGrammar.Proofs.Words
import PredictiveGrammar.Proofs.FillingRows
import PredictiveGrammar.Proofs.LeftmostDerivations
import PredictiveGrammar.Proofs.NamedTables
import PredictiveGrammar.Proofs.Prediction
import PredictiveGrammar.Proofs.PredictiveParser
import PredictiveGrammar.Proofs.NamedWords
import PredictiveGrammar.Proofs.BaseCases
import PredictiveGrammar.Proofs.UnrolledWords
import PredictiveGrammar.Proofs.LeftRecursionWords
import PredictiveGrammar.Proofs.LeftFactoringWords
import PredictiveGrammar.Proofs.ParserHalts
import PredictiveGrammar.Proofs.NamedSets
import PredictiveGrammar.Proofs.CutText
import PredictiveGrammar.Proofs.ReadRules
import PredictiveGrammar.Proofs.WrittenRules
import PredictiveGrammar.Proofs.RoundTrip
import PredictiveGrammar.Proofs.TransformedText
import PredictiveGrammar.Proofs.Groups
import PredictiveGrammar.Proofs.RepeatedFactoring
import PredictiveGrammar.Proofs.FactoredSets
import PredictiveGrammar.Proofs.EditedGrammars
import PredictiveGrammar.Proofs.NoLeftRecursion
import PredictiveGrammar.Proofs.Sessions
import PredictiveGrammar.Transform.Register
import PredictiveGrammar.Proofs.Registration
import PredictiveGrammar.Proofs.StoredTables
import PredictiveGrammar.Proofs.UnrolledSets
import PredictiveGrammar.Proofs.FactoredTables
import PredictiveGrammar.Checked.Grammars
import PredictiveGrammar.Checked.Reports
import PredictiveGrammar.Proofs.BuildingInRange
import PredictiveGrammar.Proofs.CellsInRange
import PredictiveGrammar.Proofs.ReportsInRange
import PredictiveGrammar.Proofs.Totality
import PredictiveGrammar.Proofs.ConflictCounts
import PredictiveGrammar.Proofs.DeclarationOrder
import PredictiveGrammar.Proofs.TexLayouts
import PredictiveGrammar.Proofs.TexReports
import PredictiveGrammar.Proofs.Runs
import PredictiveGrammar.Json.Reader
import PredictiveGrammar.Proofs.JsonRoundTrip
import PredictiveGrammar.Proofs.RecoveredReports
import PredictiveGrammar.Proofs.ServiceAnswers
import PredictiveGrammar.Proofs.TableCells
import PredictiveGrammar.Proofs.ConflictChains
import PredictiveGrammar.Proofs.FollowOperator
import PredictiveGrammar.Proofs.LineGrammar
import PredictiveGrammar.Proofs.AcceptedTexts
import PredictiveGrammar.Proofs.GroupedRules
import PredictiveGrammar.Proofs.RejectedTexts
import PredictiveGrammar.Proofs.LineEdits
import PredictiveGrammar.Proofs.TextLayout
import PredictiveGrammar.Proofs.FactoredShape
import PredictiveGrammar.Proofs.IntroducedNames
import PredictiveGrammar.Proofs.FirstRounds
import PredictiveGrammar.Proofs.Requeues
import PredictiveGrammar.Proofs.ArgumentForms
