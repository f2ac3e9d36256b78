import Mathlib.Data.List.AList
import PredictiveGrammar.Transform.Built

/-!
# Grammars with a stored table of names

A grammar can be kept together with a table from names to indices (`Register`). Every symbol that is added is written
into the table, and every name is looked up there. Building goes through the rules twice (`Register.ofRules`): first
every left side that the table does not have becomes a non-terminal; then the names on right sides that it still does
not have become terminals, and each production goes to the symbol that was found for its left side, if that is a
non-terminal. Transformations build anew and look the start symbol up again.

A `Grammar` has no table and finds names among its symbols.
-/

namespace PredictiveGrammar

/-- The indices of names. -/
abbrev NameTable := AList fun _ : String => Nat

/-- A grammar with its table of names. -/
structure Register where
  /-- all symbols -/
  symbols : List Symbol
  /-- the index that was stored for each name -/
  table : NameTable
  /-- the index of the start symbol, if there is one -/
  start : Option Nat

/-- The symbol with one more production, if it can have productions. -/
def Symbol.withProduction (production : Production) : Symbol → Symbol
  | .nonTerminal nt => .nonTerminal { nt with productions := nt.productions ++ [production] }
  | symbol => symbol

namespace Register

/-- The grammar without the table. -/
def grammar (r : Register) : Grammar := ⟨r.symbols, r.start⟩

/-! ## Entering symbols -/

/-- Puts a symbol behind the others and stores its name. -/
def enter (r : Register) (symbol : Symbol) : Register :=
  { r with symbols := r.symbols ++ [symbol], table := r.table.insert symbol.name r.symbols.length }

/-- The register without rules. -/
def empty : Register := (enter ⟨[], ∅, none⟩ .epsilon).enter (.terminal endMark)

/-- A non-terminal, still without productions. -/
def newNonTerminal (index : Nat) (name : String) : Symbol := .nonTerminal ⟨index, name, []⟩

/-- A terminal; it does not know its index. -/
def newTerminal (_ : Nat) (name : String) : Symbol := .terminal name

/-- The index of a name. A name that the table does not have is entered. -/
def find (create : Nat → String → Symbol) (r : Register) (name : String) : Nat × Register :=
  match r.table.lookup name with
  | some index => (index, r)
  | none => (r.symbols.length, r.enter (create r.symbols.length name))

/-- The indices of some names, one after the other. -/
def findAll (create : Nat → String → Symbol) (r : Register) : List String → List Nat × Register
  | [] => ([], r)
  | name :: names =>
    let (index, r) := r.find create name
    let (indices, r) := r.findAll create names
    (index :: indices, r)

/-! ## Building -/

/-- Gives the symbol at `left` the production of an alternative. -/
def addRight (left : Nat) (r : Register) (right : List String) : Register :=
  let (indices, r) := r.findAll newTerminal right
  let production := if indices.isEmpty then [epsilonIndex] else indices
  { r with symbols := r.symbols.modify left (.withProduction production) }

/-- Adds all alternatives of a rule whose left side has an index already. -/
def addRule (r : Register) (entry : Nat × Rule) : Register := entry.2.rights.foldl (addRight entry.1) r

/-- The register of a list of rules. -/
def ofRules (rules : List Rule) : Register :=
  let (lefts, r) := empty.findAll newNonTerminal (rules.map Rule.left)
  let r := (lefts.zip rules).foldl addRule r
  { r with start := r.grammar.nonTerminals.head?.map NonTerminal.index }

/-! ## Changing -/

/-- The same rules with another non-terminal as start symbol. -/
def withStart (r : Register) (name : String) : Except GrammarError Register :=
  match r.table.lookup name with
  | some index =>
    if r.grammar.isNonTerminal index then .ok { r with start := some index }
    else .error (.undeclaredStart name)
  | none => .error (.undeclaredStart name)

/-- The register of the transformed rules, started from the symbol with the old start symbol's name. -/
def rebuilt (r : Register) (transform : List String → List Rule → List Rule) :
    Except GrammarError Register := do
  let rules ← r.grammar.rules
  let start ← r.grammar.startName?
  let built := ofRules (transform r.table.keys rules)
  return { built with start := start.bind fun name => built.table.lookup name }

/-- Does one transformation. -/
def apply : Transformation → Register → Except GrammarError Register
  | .eliminateLeftRecursion, r => r.rebuilt unrollRules
  | .factorLeft, r =>
    match r.grammar.nonTerminals.find? (·.productions.any List.isEmpty) with
    | some nt => .error (.emptyProduction nt.name)
    | none => r.rebuilt factorRules

/-- The registers that come from rules by choosing a start symbol and by transformations. -/
inductive Reached : Register → Prop
  | empty : Reached .empty
  | ofRules (rules : List Rule) : Reached (.ofRules rules)
  | withStart {r s : Register} {name : String} : Reached r → r.withStart name = .ok s → Reached s
  | transform {r s : Register} {step : Transformation} : Reached r → r.apply step = .ok s → Reached s

end Register

end PredictiveGrammar
