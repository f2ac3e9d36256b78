import PredictiveGrammar.Grammar.Basic
import PredictiveGrammar.Sets.SymbolSet

/-!
# FIRST sets

FIRST of a symbol holds the terminals that can begin what the symbol derives, and `ε` if it derives the
empty word. `Grammar.first` starts from the terminals, each alone in its own set, and goes round the
non-terminals, recomputing each set from the productions in place, until a whole round changes the size
of no set (`FirstSets.stabilise`).

The sets remember the symbols they were computed from, so that other analyses can refuse sets of another
grammar (`FirstSets.isFor`).
-/

namespace PredictiveGrammar

/-- FIRST of every symbol of a grammar. -/
structure FirstSets where
  /-- the set of each symbol, by index -/
  sets : List SymbolSet
  /-- the symbols of the grammar the sets belong to -/
  symbols : List Symbol
deriving DecidableEq

namespace FirstSets

/-! ## Reading the sets -/

/-- FIRST of the symbol at an index. -/
def get? (F : FirstSets) (symbol : Nat) : Option SymbolSet := F.sets[symbol]?

/-- Whether the symbol at an index derives the empty word. -/
def nullable (F : FirstSets) (symbol : Nat) : Bool :=
  (F.get? symbol).any fun set => decide (epsilonIndex ∈ set)

/-- What can begin with this symbol, `ε` apart. An index without a set counts as a terminal. -/
def heads (F : FirstSets) (symbol : Nat) : SymbolSet :=
  match F.get? symbol with
  | some set => set.erase epsilonIndex
  | none => {symbol}

/-- FIRST of a sequence of symbols. It holds `ε` if every symbol of the sequence derives the empty
word. -/
def ofSequence (F : FirstSets) : List Nat → SymbolSet
  | [] => {epsilonIndex}
  | symbol :: rest =>
    if F.nullable symbol then F.heads symbol ∪ F.ofSequence rest else F.heads symbol

/-- FIRST of a choice between sequences. -/
def ofProductions (F : FirstSets) (productions : List Production) : SymbolSet :=
  productions.foldl (fun set production => set ∪ F.ofSequence production) ∅

/-- Whether the sets belong to a grammar with these symbols. -/
def isFor (F : FirstSets) (g : Grammar) : Bool := F.symbols = g.symbols

/-! ## Computing the sets -/

/-- Before the first round: a terminal begins with itself, a non-terminal with nothing yet. -/
def initial (g : Grammar) : FirstSets where
  sets := g.symbols.zipIdx.map fun (symbol, index) =>
    if symbol.nonTerminal?.isSome then ∅ else {index}
  symbols := g.symbols

/-- Recomputes the set of one non-terminal and stores it if its size is new; says whether it was. -/
def visit (F : FirstSets) (nt : NonTerminal) : FirstSets × Bool :=
  let set := F.ofProductions nt.productions
  if (F.get? nt.index).map SymbolSet.size = some set.size then (F, false)
  else ({ F with sets := F.sets.set nt.index set }, true)

/-- Visits some non-terminals in order; says whether any set was stored. -/
def round (nts : List NonTerminal) (F : FirstSets) : FirstSets × Bool :=
  nts.foldl (fun state nt =>
    let (F, changed) := state.1.visit nt
    (F, state.2 || changed)) (F, false)

/-- Repeats rounds, at most as many as `rounds`, until one stores nothing. -/
def stabilise (nts : List NonTerminal) : (rounds : Nat) → FirstSets → FirstSets
  | 0, F => F
  | rounds + 1, F =>
    let (next, changed) := F.round nts
    if changed then stabilise nts rounds next else next

end FirstSets

namespace Grammar

/-- No set can hold more than this many members: each is a symbol or an index in a production. -/
def memberBound (g : Grammar) : Nat :=
  g.symbols.length + (g.nonTerminals.flatMap fun nt => nt.productions.flatten).length

/-- The FIRST sets of a grammar. Sets only grow, so every round but the last adds a member to one of
them, which bounds the rounds. -/
def first (g : Grammar) : FirstSets :=
  FirstSets.stabilise g.nonTerminals (g.nonTerminals.length * g.memberBound + 1) (.initial g)

end Grammar

end PredictiveGrammar
