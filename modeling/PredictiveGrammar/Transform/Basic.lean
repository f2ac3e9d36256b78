import PredictiveGrammar.Grammar.Rules

/-!
# Transforming a grammar by name

A transformation works on the rules of a grammar by name, and the result is built anew from the rules
that come out. The names in use go in with the rules, so that a transformation can introduce names that
mean nothing yet. The start symbol keeps its name; its index may change.
-/

namespace PredictiveGrammar

/-- The grammar of the transformed rules, started from the symbol with the old start symbol's name.
`transform` is given the names in use and the rules. -/
def Grammar.rebuilt (g : Grammar) (transform : List String → List Rule → List Rule) :
    Except GrammarError Grammar := do
  let rules ← g.rules
  let start ← g.startName?
  return (Grammar.ofRules (transform g.names rules)).startedFrom start

end PredictiveGrammar
