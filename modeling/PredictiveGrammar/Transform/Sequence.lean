import PredictiveGrammar.Transform.LeftFactoring
import PredictiveGrammar.Transform.LeftRecursion

/-!
# Sequences of transformations

The two transformations can be asked for one after the other, in any order and any number of times.
-/

namespace PredictiveGrammar

/-- A transformation of a whole grammar. -/
inductive Transformation
  | eliminateLeftRecursion
  | factorLeft
deriving DecidableEq

/-- Does one transformation. -/
def Transformation.apply : Transformation → Grammar → Except GrammarError Grammar
  | .eliminateLeftRecursion, g => g.withoutLeftRecursion
  | .factorLeft, g => g.leftFactored

/-- Does some transformations in order. -/
def Grammar.transform (g : Grammar) : List Transformation → Except GrammarError Grammar
  | [] => .ok g
  | step :: steps => do (← step.apply g).transform steps

end PredictiveGrammar
