import PredictiveGrammar.Error

/-!
# Grammars

A `Grammar` lists its symbols; a symbol is known by its index in that list, and productions are lists of
indices. Index 0 is `ε` and index 1 the end mark `$`. Names are kept in the symbols only: the way from a
name to its index (`Grammar.indexOf?`) reads the list.

Productions and the start symbol can be set to any index, so asking for the name behind an index can
fail (`Grammar.nameOf`).
-/

namespace PredictiveGrammar

/-- The symbols of a production, by index. -/
abbrev Production := List Nat

/-- The name of the symbol that stands for the empty word. -/
abbrev epsilon : String := "ε"

/-- The name of the terminal that stands for the end of the input. -/
abbrev endMark : String := "$"

/-- The index of `ε` in every grammar. -/
abbrev epsilonIndex : Nat := 0

/-- The index of the end mark in every grammar. -/
abbrev endMarkIndex : Nat := 1

/-- A symbol with productions of its own. -/
structure NonTerminal where
  /-- its index among the symbols -/
  index : Nat
  /-- its name -/
  name : String
  /-- its productions, in order of declaration -/
  productions : List Production
deriving DecidableEq

/-- A symbol of a grammar. -/
inductive Symbol
  /-- the symbol for the empty word -/
  | epsilon
  /-- a symbol that stands for itself -/
  | terminal (name : String)
  /-- a symbol with productions -/
  | nonTerminal (nt : NonTerminal)
deriving DecidableEq

/-- The name of a symbol. -/
def Symbol.name : Symbol → String
  | .epsilon => PredictiveGrammar.epsilon
  | .terminal name => name
  | .nonTerminal nt => nt.name

/-- The non-terminal that a symbol is, if it is one. -/
def Symbol.nonTerminal? : Symbol → Option NonTerminal
  | .nonTerminal nt => some nt
  | _ => none

/-- The name of the terminal that a symbol is, if it is one. -/
def Symbol.terminal? : Symbol → Option String
  | .terminal name => some name
  | _ => none

/-- A context-free grammar. -/
structure Grammar where
  /-- all symbols; a symbol's index is its place here -/
  symbols : List Symbol
  /-- the index of the start symbol, if there is one -/
  start : Option Nat
deriving DecidableEq

namespace Grammar

/-- The grammar without rules: it knows `ε` and the end mark. -/
def empty : Grammar := ⟨[.epsilon, .terminal endMark], none⟩

/-! ## Names and indices -/

/-- The names of all symbols, by index. -/
def names (g : Grammar) : List String := g.symbols.map Symbol.name

/-- The index of the symbol with this name. -/
def indexOf? (g : Grammar) (name : String) : Option Nat := g.names.idxOf? name

/-- Every name with its index, sorted by name. -/
def symbolTable (g : Grammar) : List (String × Nat) :=
  g.names.zipIdx.mergeSort fun a b => a.1 ≤ b.1

/-- The name of the symbol at an index. -/
def nameOf (g : Grammar) (index : Nat) : Except GrammarError String :=
  match g.symbols[index]? with
  | some symbol => .ok symbol.name
  | none => .error (.unknownSymbol index)

/-- The names of the symbols at some indices. -/
def namesOf (g : Grammar) (indices : List Nat) : Except GrammarError (List String) :=
  indices.mapM g.nameOf

/-- The name of the start symbol, if there is one. -/
def startName? (g : Grammar) : Except GrammarError (Option String) :=
  match g.start with
  | some index => some <$> g.nameOf index
  | none => .ok none

/-! ## Kinds of symbols -/

/-- The non-terminals, in order of their indices. -/
def nonTerminals (g : Grammar) : List NonTerminal := g.symbols.filterMap Symbol.nonTerminal?

/-- The terminals with their indices, in order. -/
def terminals (g : Grammar) : List (Nat × String) :=
  g.symbols.zipIdx.filterMap fun (symbol, index) => symbol.terminal?.map (index, ·)

/-- The non-terminal at an index, if there is one. -/
def nonTerminalAt? (g : Grammar) (index : Nat) : Option NonTerminal :=
  g.symbols[index]?.bind Symbol.nonTerminal?

/-- Whether there is a non-terminal at an index. -/
def isNonTerminal (g : Grammar) (index : Nat) : Bool := (g.nonTerminalAt? index).isSome

/-- The non-terminal with this name, if there is one. -/
def nonTerminalNamed? (g : Grammar) (name : String) : Option NonTerminal :=
  (g.indexOf? name).bind g.nonTerminalAt?

/-! ## Changes -/

/-- The same rules with another non-terminal as start symbol. -/
def withStart (g : Grammar) (name : String) : Except GrammarError Grammar :=
  match g.indexOf? name with
  | some index =>
    if g.isNonTerminal index then .ok { g with start := some index }
    else .error (.undeclaredStart name)
  | none => .error (.undeclaredStart name)

/-- Gives the non-terminal at `index` one more production, which may hold any indices. -/
def addProduction? (g : Grammar) (index : Nat) (production : Production) : Option Grammar :=
  (g.nonTerminalAt? index).map fun nt =>
    let nt := { nt with productions := nt.productions ++ [production] }
    { g with symbols := g.symbols.set index (.nonTerminal nt) }

end Grammar

end PredictiveGrammar
