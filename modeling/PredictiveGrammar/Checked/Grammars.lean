import PredictiveGrammar.Checked.Access
import PredictiveGrammar.Transform.Register

/-!
# Grammars, access by access

Building a grammar gives productions to symbols by index, and transforming one reads first symbols, compares
alternatives place by place and cuts them. `Checked.prepare` does all of it: it builds, chooses start symbols and
transforms, in any order.
-/

namespace PredictiveGrammar

/-- A step from one grammar to the next. -/
inductive Change
  /-- another non-terminal becomes the start symbol -/
  | start (name : String)
  /-- the rules are transformed -/
  | transform (step : Transformation)

/-- Makes one change of a grammar. -/
def Grammar.change (g : Grammar) : Change → Except GrammarError Grammar
  | .start name => g.withStart name
  | .transform step => step.apply g

namespace Checked

/-! ## Building -/

/-- Gives the symbol at `left` the production of an alternative. -/
def addRight (left : Nat) (r : Register) (right : List String) : Checked Register := do
  let (indices, r) := r.findAll Register.newTerminal right
  let production := if indices.isEmpty then [epsilonIndex] else indices
  let symbol ← read r.symbols left
  return { r with symbols := ← write r.symbols left (symbol.withProduction production) }

/-- Adds all alternatives of a rule whose left side has an index already. -/
def addRule (r : Register) (entry : Nat × Rule) : Checked Register := entry.2.rights.foldlM (addRight entry.1) r

/-- The register of a list of rules. -/
def ofRules (rules : List Rule) : Checked Register := do
  let (lefts, r) := Register.empty.findAll Register.newNonTerminal (rules.map Rule.left)
  let r ← (lefts.zip rules).foldlM addRule r
  return { r with start := r.grammar.nonTerminals.head?.map NonTerminal.index }

/-- The non-terminal with this name, if there is one. -/
def nonTerminalNamed? (r : Register) (name : String) : Checked (Option NonTerminal) :=
  match r.table.lookup name with
  | some index => Symbol.nonTerminal? <$> read r.symbols index
  | none => return none

/-! ## Eliminating left recursion -/

/-- What follows the left side in the alternatives that start with it. -/
def loops (rule : Rule) : Checked (List (List String)) :=
  (rule.rights.filter rule.isRecursive).mapM fun right => do
    let rest ← onward right 1
    return if rest.isEmpty then [epsilon] else rest

/-- Unrolls every left-recursive rule. -/
def unrollRules (used : List String) : List Rule → Checked (List Rule)
  | [] => return []
  | rule :: rules => do
    let loops ← loops rule
    if loops.isEmpty then return rule :: (← unrollRules used rules)
    else
      let loop := freshName used (rule.left ++ "'")
      return rule.entry loop :: ⟨loop, loops.map (· ++ [loop]) ++ [[epsilon]]⟩ :: (← unrollRules (loop :: used) rules)

/-! ## Left factoring -/

/-- The alternatives grouped by their first symbols. -/
def groupByHead (rights : List (List String)) : Checked (List (String × List (List String))) :=
  rights.foldlM (fun groups right => return addToGroup (← read right 0) right groups) []

/-- Whether all members of a group have the same symbol at a place. -/
def agree (group : List (List String)) (place : Nat) : Checked Bool :=
  group.allM fun right => return (← read right place) == (← read (← read group 0) place)

/-- At how many of the next `count` places the members of a group agree until they differ. -/
def countShared (group : List (List String)) (place : Nat) : (count : Nat) → Checked Nat
  | 0 => return 0
  | count + 1 => do
    if ← agree group place then return (← countShared group (place + 1) count) + 1 else return 0

/-- How many symbols the members of a group start with in common. -/
def sharedLength (group : List (List String)) : Checked Nat :=
  countShared group 0 ((group.map List.length).min?.getD 0)

/-- Factors the groups of a left side. -/
def factorGroups (left : String) (used : List String) (ordinal : Nat) :
    List (List (List String)) → Checked (List (List String) × List Rule)
  | [] => return ([], [])
  | group :: groups => do
    if group.length = 1 then
      let (rights, fresh) ← factorGroups left used ordinal groups
      return ((← read group 0) :: rights, fresh)
    else
      let length ← sharedLength group
      let name := freshName used (left ++ "_LF" ++ toString ordinal)
      let start ← upTo (← read group 0) length
      let rests ← group.mapM fun right => if right.length = length then return [epsilon] else onward right length
      let (rights, fresh) ← factorGroups left (name :: used) (ordinal + 1) groups
      return ((start ++ [name]) :: rights, ⟨name, rests⟩ :: fresh)

/-- Factors every rule. -/
def factorRules (used : List String) : List Rule → Checked (List Rule)
  | [] => return []
  | rule :: rules => do
    let groups ← groupByHead rule.rights
    let (rights, fresh) ← factorGroups rule.left used 1 (groups.map (·.2))
    return ⟨rule.left, rights⟩ :: fresh ++ (← factorRules (fresh.map Rule.left ++ used) rules)

/-! ## Changes -/

/-- The register of the transformed rules, started from the symbol with the old start symbol's name. -/
def rebuilt (r : Register) (transform : List String → List Rule → Checked (List Rule)) : Checked Register := do
  let rules ← of r.grammar.rules
  let start ← of r.grammar.startName?
  let built ← ofRules (← transform r.table.keys rules)
  return { built with start := start.bind fun name => built.table.lookup name }

/-- Does one transformation. -/
def apply : Transformation → Register → Checked Register
  | .eliminateLeftRecursion, r => rebuilt r unrollRules
  | .factorLeft, r => rebuilt r factorRules

/-- Makes one change. -/
def change (r : Register) : Change → Checked Register
  | .start name => of (r.withStart name)
  | .transform step => apply step r

/-- The register of a list of rules after some changes. -/
def prepare (rules : List Rule) (changes : List Change) : Checked Register := do
  changes.foldlM change (← ofRules rules)

end Checked

end PredictiveGrammar
