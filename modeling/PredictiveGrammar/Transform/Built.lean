import PredictiveGrammar.Grammar.RuleText
import PredictiveGrammar.Transform.Sequence

/-!
# Built grammars

The grammars that callers can get without touching productions or the start symbol by hand: from rules
or rule text, by choosing a start symbol, and by transformations. `Grammar.Built` says how a grammar came
about, where `Grammar.WellFormed` says what its symbols look like. Setting them by hand gives further grammars
(`Grammar.Edited`), in which productions may be empty or hold indices of no symbol.
-/

namespace PredictiveGrammar

namespace Grammar

/-- The grammars that come from rules by choosing a start symbol and by transformations. -/
inductive Built : Grammar → Prop
  | empty : Built .empty
  | ofRules (rules : List Rule) : Built (.ofRules rules)
  | withStart {g h : Grammar} {name : String} : Built g → g.withStart name = .ok h → Built h
  | transform {g h : Grammar} {step : Transformation} : Built g → step.apply g = .ok h → Built h

/-- The grammars that come about if productions and the start symbol are also set by hand. -/
inductive Edited : Grammar → Prop
  | built {g : Grammar} : Built g → Edited g
  | addProduction {g h : Grammar} {index : Nat} {production : Production} :
      Edited g → g.addProduction? index production = some h → Edited h
  | setStart {g : Grammar} (start : Option Nat) : Edited g → Edited { g with start }
  | withStart {g h : Grammar} {name : String} : Edited g → g.withStart name = .ok h → Edited h
  | transform {g h : Grammar} {step : Transformation} : Edited g → step.apply g = .ok h → Edited h

/-- A grammar read from rule text is built from rules. -/
theorem Built.parse {text : String} {g : Grammar} (h : Grammar.parse text = .ok g) : Built g := by
  unfold Grammar.parse at h
  cases hr : RuleText.readRules text with
  | error e => simp [hr, Functor.map, Except.map] at h
  | ok rules =>
    simp only [hr, Functor.map, Except.map, Except.ok.injEq] at h
    exact h ▸ .ofRules rules

/-- The symbols of a grammar are in order: `ε`, the end mark, the non-terminals, the other terminals.
Names are unique, every index in use is one of a symbol, and there is a start symbol as soon as there is
a non-terminal. -/
structure WellFormed (g : Grammar) : Prop where
  /-- index 0 is `ε` -/
  epsilon : g.symbols[epsilonIndex]? = some .epsilon
  /-- index 1 is the end mark -/
  endMark : g.symbols[endMarkIndex]? = some (.terminal PredictiveGrammar.endMark)
  /-- the non-terminals come first, all other symbols are terminals -/
  blocks : ∃ (nts : List NonTerminal) (names : List String),
    g.symbols.drop 2 = nts.map Symbol.nonTerminal ++ names.map Symbol.terminal
  /-- a non-terminal knows its index -/
  index : ∀ (i : Nat) (nt : NonTerminal), g.symbols[i]? = some (.nonTerminal nt) → nt.index = i
  /-- no two symbols have the same name -/
  names : g.names.Nodup
  /-- productions hold symbols of the grammar, at least one -/
  productions : ∀ nt ∈ g.nonTerminals, ∀ production ∈ nt.productions,
    production ≠ [] ∧ ∀ i ∈ production, i < g.symbols.length
  /-- the start symbol is a non-terminal, and missing only if there is none -/
  start : ∀ i, g.start = some i → g.isNonTerminal i
  /-- a grammar with non-terminals has a start symbol -/
  started : g.nonTerminals ≠ [] → g.start.isSome

end Grammar

end PredictiveGrammar
