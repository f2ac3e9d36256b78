import PredictiveGrammar.Grammar.FreshName
import PredictiveGrammar.Transform.Basic

/-!
# Eliminating left recursion

A rule is left recursive if one of its alternatives starts with its own left side. Such a rule
`A -> A α | β` becomes `A -> β A'` and `A' -> α A' | ε` with a fresh name for `A'`. If there is no `β`,
the first rule is `A -> A'`; an alternative that is just `A` has the `α` that is just `ε`. Recursion
through other left sides stays as it is.
-/

namespace PredictiveGrammar

namespace Rule

/-- Whether an alternative starts with the rule's own left side. -/
def isRecursive (rule : Rule) (right : List String) : Bool := right.head? = some rule.left

/-- What follows the left side in the alternatives that start with it. -/
def loops (rule : Rule) : List (List String) :=
  (rule.rights.filter rule.isRecursive).map fun right =>
    if right.tail.isEmpty then [epsilon] else right.tail

/-- The alternatives that do not start with the left side. -/
def bases (rule : Rule) : List (List String) := rule.rights.filter (!rule.isRecursive ·)

/-- The rule without its recursion: every base, then the loop. -/
def entry (rule : Rule) (loop : String) : Rule :=
  ⟨rule.left, if rule.bases.isEmpty then [[loop]] else rule.bases.map (· ++ [loop])⟩

/-- The rule that goes through the loop any number of times. -/
def loop (rule : Rule) (loop : String) : Rule :=
  ⟨loop, rule.loops.map (· ++ [loop]) ++ [[epsilon]]⟩

end Rule

/-- Unrolls every left-recursive rule; the fresh rule stands behind the one it comes from. -/
def unrollRules (used : List String) : List Rule → List Rule
  | [] => []
  | rule :: rules =>
    if rule.loops.isEmpty then rule :: unrollRules used rules
    else
      let loop := freshName used (rule.left ++ "'")
      rule.entry loop :: rule.loop loop :: unrollRules (loop :: used) rules

/-- The grammar without direct left recursion. -/
def Grammar.withoutLeftRecursion (g : Grammar) : Except GrammarError Grammar :=
  g.rebuilt unrollRules

end PredictiveGrammar
