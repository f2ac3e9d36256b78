import PredictiveGrammar.Grammar.FreshName
import PredictiveGrammar.Transform.Basic

/-!
# Left factoring

Alternatives of a rule that start with the same symbol form a group, and the groups stand in the order
in which their symbols first appear. A group of one is kept. A larger one becomes its longest common
start followed by a fresh name `A_LF1`, `A_LF2`, …, and the fresh name's alternatives are what is left of
the members, `ε` where nothing is. One factoring does not look into the rules it introduces.
-/

namespace PredictiveGrammar

/-! ## Groups and their common start -/

/-- Puts an alternative at the end of the group of its first symbol, a new group if there is none. -/
def addToGroup (symbol : String) (right : List String) :
    List (String × List (List String)) → List (String × List (List String))
  | [] => [(symbol, [right])]
  | (other, group) :: groups =>
    if other = symbol then (other, group ++ [right]) :: groups
    else (other, group) :: addToGroup symbol right groups

/-- The alternatives grouped by their first symbols; those without symbols are left out. -/
def groupByHead (rights : List (List String)) : List (String × List (List String)) :=
  rights.foldl (fun groups right =>
    match right with
    | [] => groups
    | symbol :: _ => addToGroup symbol right groups) []

/-- The longest common start of two lists. -/
def commonStart : List String → List String → List String
  | a :: l, b :: m => if a = b then a :: commonStart l m else []
  | _, _ => []

/-- The longest common start of the members of a group. -/
def sharedStart : List (List String) → List String
  | [] => []
  | right :: rights => rights.foldl commonStart right

/-- What is left of an alternative behind its first symbols. -/
def remainder (start : List String) (right : List String) : List String :=
  if right.length = start.length then [epsilon] else right.drop start.length

/-! ## Factoring -/

/-- Factors the groups of a left side. The answer holds the left side's new alternatives and the fresh
rules; `ordinal` numbers the next fresh rule. -/
def factorGroups (left : String) (used : List String) (ordinal : Nat) :
    List (List (List String)) → List (List String) × List Rule
  | [] => ([], [])
  | [right] :: groups =>
    let (rights, fresh) := factorGroups left used ordinal groups
    (right :: rights, fresh)
  | group :: groups =>
    let start := sharedStart group
    let name := freshName used (left ++ "_LF" ++ toString ordinal)
    let (rights, fresh) := factorGroups left (name :: used) (ordinal + 1) groups
    ((start ++ [name]) :: rights, ⟨name, group.map (remainder start)⟩ :: fresh)

/-- Factors every rule; its fresh rules stand behind it. -/
def factorRules (used : List String) : List Rule → List Rule
  | [] => []
  | rule :: rules =>
    let (rights, fresh) := factorGroups rule.left used 1 ((groupByHead rule.rights).map (·.2))
    ⟨rule.left, rights⟩ :: fresh ++ factorRules (fresh.map Rule.left ++ used) rules

/-- The grammar with every rule left factored once. A production without symbols is refused: it has no
first symbol to group it by. -/
def Grammar.leftFactored (g : Grammar) : Except GrammarError Grammar :=
  match g.nonTerminals.find? (·.productions.any List.isEmpty) with
  | some nt => .error (.emptyProduction nt.name)
  | none => g.rebuilt factorRules

end PredictiveGrammar
