import PredictiveGrammar.Grammar.Basic

/-!
# Grammars and their rules

A `Rule` gives alternatives to a left side, all by name. `Grammar.ofRules` builds a grammar from a list of
rules and `Grammar.rules` reads the rules of a grammar back.

Building numbers the names first: `ε` and `$`, then all left sides, then what else occurs on right sides,
each name where it first appears. A name is a terminal exactly if it is never a left side, whatever the
order of use and declaration. Left sides may repeat; their alternatives accumulate. The names `ε` and `$`
are never non-terminals, so a rule for one of them only contributes the names on its right.
-/

namespace PredictiveGrammar

/-- Alternatives for a left side, by name. -/
@[ext] structure Rule where
  /-- the name that is defined -/
  left : String
  /-- the alternatives; each is a list of names -/
  rights : List (List String)
deriving DecidableEq

/-! ## Numbering names -/

/-- Numbers one more name: it goes behind the known ones unless it is one of them. -/
def number (known : List String) (name : String) : List String :=
  if name ∈ known then known else known ++ [name]

/-- The two names that every grammar knows. -/
def reserved : List String := [epsilon, endMark]

/-- The reserved names and all left sides. -/
def declared (rules : List Rule) : List String :=
  (rules.map Rule.left).foldl number reserved

/-- All names of a list of rules, each at its index. -/
def numbered (rules : List Rule) : List String :=
  (rules.flatMap fun rule => rule.rights.flatten).foldl number (declared rules)

/-! ## Building -/

/-- The indices of an alternative. One without symbols stands for the empty word. -/
def encode (known : List String) (right : List String) : Production :=
  if right.isEmpty then [epsilonIndex] else right.map (known.idxOf ·)

/-- The productions that the rules give to a left side, in order. -/
def productionsFor (rules : List Rule) (known : List String) (left : String) : List Production :=
  (rules.filter (·.left = left)).flatMap fun rule => rule.rights.map (encode known)

/-- The symbol with a name and an index, where the indices below `count` are reserved or left sides. -/
def symbolFor (rules : List Rule) (known : List String) (count : Nat) (name : String)
    (index : Nat) : Symbol :=
  if index = epsilonIndex then .epsilon
  else if endMarkIndex < index ∧ index < count then
    .nonTerminal ⟨index, name, productionsFor rules known name⟩
  else .terminal name

namespace Grammar

/-- The grammar of a list of rules. Its start symbol is the first left side that is not reserved. -/
def ofRules (rules : List Rule) : Grammar :=
  let known := numbered rules
  let count := (declared rules).length
  { symbols := known.zipIdx.map fun (name, index) => symbolFor rules known count name index
    start := if reserved.length < count then some reserved.length else none }

/-- The rules of a grammar, one for each non-terminal in order. -/
def rules (g : Grammar) : Except GrammarError (List Rule) :=
  g.nonTerminals.mapM fun nt => return ⟨nt.name, ← nt.productions.mapM g.namesOf⟩

/-- The same grammar started from the symbol with this name. -/
def startedFrom (g : Grammar) (name : Option String) : Grammar :=
  { g with start := name.bind g.indexOf? }

end Grammar

end PredictiveGrammar
