import PredictiveGrammar.Analysis.First
import PredictiveGrammar.Analysis.Propagation

/-!
# FOLLOW sets

FOLLOW of a non-terminal holds the terminals that can stand behind it, and the end mark if it can stand
at the end. An `Occurrence` of `B` in a production of `A` with `rest` behind it contributes in two ways:
FIRST of `rest` without `ε` is part of FOLLOW of `B`, and if `rest` derives the empty word, so is FOLLOW
of `A`. The first kind is added once (`Grammar.directFollow`), the second flows along edges
(`Grammar.followEdges`).

`Grammar.extendFollow` grows given sets to the least ones closed under both, and `Grammar.follow` starts
it with the end mark behind the start symbol. Both refuse sets that belong to another grammar.
-/

namespace PredictiveGrammar

/-! ## Occurrences of non-terminals in productions -/

/-- A non-terminal in a production. -/
structure Occurrence where
  /-- the non-terminal that the production belongs to -/
  left : Nat
  /-- the non-terminal that occurs -/
  symbol : Nat
  /-- what stands behind it in the production -/
  rest : List Nat
deriving DecidableEq

namespace Grammar

/-- The occurrences of non-terminals in one production of `left`, in order. -/
def occurrencesIn (g : Grammar) (left : Nat) : Production → List Occurrence
  | [] => []
  | symbol :: rest =>
    if g.isNonTerminal symbol then ⟨left, symbol, rest⟩ :: g.occurrencesIn left rest
    else g.occurrencesIn left rest

/-- The occurrences of non-terminals in all productions. -/
def occurrences (g : Grammar) : List Occurrence :=
  g.nonTerminals.flatMap fun nt => nt.productions.flatMap (g.occurrencesIn nt.index)

end Grammar

/-! ## The sets -/

/-- FOLLOW of the non-terminals of a grammar. -/
structure FollowSets where
  /-- the set of each non-terminal, by index -/
  sets : SetFamily
  /-- the symbols of the grammar the sets belong to -/
  symbols : List Symbol
  /-- the start symbol of the grammar the sets belong to -/
  start : Option Nat
deriving DecidableEq

namespace FollowSets

/-- FOLLOW of the non-terminal at an index. -/
def get? (W : FollowSets) (nt : Nat) : Option SymbolSet := W.sets.get? nt

/-- Whether the sets belong to a grammar with these symbols and this start symbol. -/
def isFor (W : FollowSets) (g : Grammar) : Bool := W.start = g.start ∧ W.symbols = g.symbols

/-- The end mark behind the start symbol and nothing else. -/
def seed (g : Grammar) : FollowSets where
  sets := match g.start with
    | some start => (∅ : SetFamily).add start {endMarkIndex}
    | none => ∅
  symbols := g.symbols
  start := g.start

end FollowSets

namespace Grammar

/-- Gives every non-terminal a set, and adds FIRST of what stands behind each occurrence. -/
def directFollow (g : Grammar) (F : FirstSets) (sets : SetFamily) : SetFamily :=
  g.occurrences.foldl
    (fun sets o => sets.add o.symbol ((F.ofSequence o.rest).erase epsilonIndex))
    (g.nonTerminals.foldl (fun sets nt => sets.add nt.index ∅) sets)

/-- The edges along which FOLLOW flows, from the left side to an occurrence with nothing but empty
words behind it. An edge from a non-terminal to itself says nothing and is left out. -/
def followEdges (g : Grammar) (F : FirstSets) : SetFamily :=
  g.occurrences.foldl
    (fun edges o =>
      if epsilonIndex ∈ F.ofSequence o.rest ∧ o.symbol ≠ o.left then edges.add o.left {o.symbol}
      else edges)
    ∅

/-- Refuses FIRST and FOLLOW sets of another grammar, FIRST sets before FOLLOW sets. -/
def checkSets (g : Grammar) (F : FirstSets) (W : FollowSets) : Except GrammarError Unit :=
  if F.isFor g = false then .error (.mismatchedSets .first)
  else if W.isFor g = false then .error (.mismatchedSets .follow)
  else .ok ()

/-- Sets of the grammar itself are not refused. -/
theorem checkSets_eq {g : Grammar} {F : FirstSets} {W : FollowSets} (hF : F.isFor g) (hW : W.isFor g) :
    g.checkSets F W = .ok () := by
  rw [checkSets, hF, hW]
  rfl

/-- The least sets that contain the given ones and are closed under what the occurrences ask for. -/
def extendFollow (g : Grammar) (F : FirstSets) (W : FollowSets) : Except GrammarError FollowSets := do
  g.checkSets F W
  return { W with sets := (g.directFollow F W.sets).propagate (g.followEdges F) }

/-- The FOLLOW sets of a grammar. -/
def follow (g : Grammar) (F : FirstSets) : Except GrammarError FollowSets :=
  g.extendFollow F (.seed g)

end Grammar

end PredictiveGrammar
