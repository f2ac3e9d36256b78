import PredictiveGrammar.Proofs.TidyRules
import PredictiveGrammar.Transform.LeftRecursion

/-!
# Base cases

A rule all of whose alternatives start with its left side yields no word. `Rule.withBaseCase` gives such a rule the
alternative `ε`, and `Grammar.withBaseCases` does so for the non-terminals of a grammar.
-/

namespace PredictiveGrammar

/-! ## Base cases -/

/-- The rule with the base `ε` if it has alternatives but no base. -/
def Rule.withBaseCase (rule : Rule) : Rule :=
  if rule.rights ≠ [] ∧ rule.bases = [] then ⟨rule.left, rule.rights ++ [[epsilon]]⟩ else rule

@[simp] theorem Rule.left_withBaseCase (rule : Rule) : rule.withBaseCase.left = rule.left := by
  rw [Rule.withBaseCase]
  split <;> rfl

/-- A base case changes no left side. -/
theorem lefts_withBaseCase (rules : List Rule) :
    (rules.map Rule.withBaseCase).map Rule.left = rules.map Rule.left := by
  simp

/-- A rule gets the alternative `ε` if it has alternatives and all of them are loops. -/
theorem Rule.mem_rights_withBaseCase {rule : Rule} {right : List String} :
    right ∈ rule.withBaseCase.rights ↔
      right ∈ rule.rights ∨ rule.rights ≠ [] ∧ rule.bases = [] ∧ right = [epsilon] := by
  rw [Rule.withBaseCase]
  by_cases h : rule.rights ≠ [] ∧ rule.bases = []
  · rw [if_pos h, List.mem_append, List.mem_singleton, ← and_assoc, and_iff_right h]
  · rw [if_neg h, ← and_assoc]
    exact (or_iff_left fun h' => h h'.1).symm

/-- The bases are the alternatives that do not start with the left side. -/
theorem Rule.mem_bases {rule : Rule} {right : List String} :
    right ∈ rule.bases ↔ right ∈ rule.rights ∧ right.head? ≠ some rule.left := by
  simp [Rule.bases, Rule.isRecursive]

/-- A loop is what stands behind the left side in an alternative that starts with it, or `ε` if nothing does. -/
theorem Rule.mem_loops {rule : Rule} {loop : List String} :
    loop ∈ rule.loops ↔ ∃ rest, rule.left :: rest ∈ rule.rights ∧
      (if rest.isEmpty then [epsilon] else rest) = loop := by
  rw [Rule.loops, List.mem_map]
  refine ⟨?_, ?_⟩
  · rintro ⟨right, hright, rfl⟩
    obtain ⟨hmem, hrecursive⟩ := List.mem_filter.mp hright
    obtain ⟨rest, rfl⟩ := List.head?_eq_some_iff.mp (of_decide_eq_true hrecursive)
    exact ⟨rest, hmem, rfl⟩
  · rintro ⟨rest, hmem, rfl⟩
    exact ⟨rule.left :: rest, List.mem_filter.mpr ⟨hmem, decide_eq_true rfl⟩, rfl⟩

/-- A rule without loops has bases, so it stays as it is. -/
theorem Rule.withBaseCase_of_loops {rule : Rule} (h : rule.loops = []) : rule.withBaseCase = rule := by
  rw [Rule.withBaseCase, if_neg]
  rintro ⟨hne, hbases⟩
  obtain ⟨right, hright⟩ := List.exists_mem_of_ne_nil _ hne
  by_cases hhead : right.head? = some rule.left
  · obtain ⟨rest, rfl⟩ := List.head?_eq_some_iff.mp hhead
    have hloop := Rule.mem_loops.mpr ⟨rest, hright, rfl⟩
    rw [h] at hloop
    exact absurd hloop List.not_mem_nil
  · have hbase := Rule.mem_bases.mpr ⟨hright, hhead⟩
    rw [hbases] at hbase
    exact absurd hbase List.not_mem_nil

/-- Loops come from alternatives, so there are some. -/
theorem Rule.rights_ne_nil_of_loops {rule : Rule} (h : rule.loops ≠ []) : rule.rights ≠ [] := by
  obtain ⟨loop, hloop⟩ := List.exists_mem_of_ne_nil _ h
  obtain ⟨rest, hmem, -⟩ := Rule.mem_loops.mp hloop
  exact List.ne_nil_of_mem hmem

/-- The fresh rule goes round a loop once more or stops. -/
theorem Rule.mem_rights_loop {rule : Rule} {name : String} {right : List String} :
    right ∈ (rule.loop name).rights ↔ (∃ loop ∈ rule.loops, loop ++ [name] = right) ∨ right = [epsilon] := by
  rw [Rule.loop, List.mem_append, List.mem_map, List.mem_singleton]

/-- Every alternative of the entry is a base with the name behind it; without bases the base is nothing. -/
theorem Rule.mem_rights_entry {rule : Rule} {name : String} {right : List String} :
    right ∈ (rule.entry name).rights ↔
      ∃ base, (base ∈ rule.bases ∨ rule.bases = [] ∧ base = []) ∧ base ++ [name] = right := by
  rw [Rule.entry]
  by_cases h : rule.bases = []
  · simp [h, eq_comm]
  · simp [h]


/-! ## Of a grammar -/

/-- The non-terminal with the production `ε` if it has productions and all of them start with itself. -/
def NonTerminal.withBaseCase (nt : NonTerminal) : NonTerminal :=
  if nt.productions ≠ [] ∧ ∀ production ∈ nt.productions, production.head? = some nt.index then
    { nt with productions := nt.productions ++ [[epsilonIndex]] }
  else nt

/-- The symbol, with a base case if it is a non-terminal without one. -/
def Symbol.withBaseCase : Symbol → Symbol
  | .nonTerminal nt => .nonTerminal nt.withBaseCase
  | symbol => symbol

/-- The grammar with the production `ε` for every non-terminal whose productions all start with itself. -/
def Grammar.withBaseCases (g : Grammar) : Grammar :=
  { g with symbols := g.symbols.map Symbol.withBaseCase }

@[simp] theorem NonTerminal.index_withBaseCase (nt : NonTerminal) : nt.withBaseCase.index = nt.index := by
  rw [NonTerminal.withBaseCase]
  split <;> rfl

@[simp] theorem NonTerminal.name_withBaseCase (nt : NonTerminal) : nt.withBaseCase.name = nt.name := by
  rw [NonTerminal.withBaseCase]
  split <;> rfl

/-- The only production that a base case adds is `ε`. -/
theorem NonTerminal.mem_productions_withBaseCase {nt : NonTerminal} {production : Production}
    (h : production ∈ nt.withBaseCase.productions) :
    production ∈ nt.productions ∨ production = [epsilonIndex] := by
  rw [NonTerminal.withBaseCase] at h
  split at h
  · exact (List.mem_append.mp h).imp_right List.mem_singleton.mp
  · exact Or.inl h

@[simp] theorem Symbol.name_withBaseCase (symbol : Symbol) : symbol.withBaseCase.name = symbol.name := by
  cases symbol with
  | nonTerminal nt => exact nt.name_withBaseCase
  | epsilon => rfl
  | terminal name => rfl

namespace Grammar

variable {g : Grammar}

theorem getElem?_withBaseCases (g : Grammar) (i : Nat) :
    g.withBaseCases.symbols[i]? = g.symbols[i]?.map Symbol.withBaseCase :=
  List.getElem?_map ..

/-- No name is added, so that indices and labels stay. -/
theorem names_withBaseCases (g : Grammar) : g.withBaseCases.names = g.names := by
  rw [names, names, withBaseCases, List.map_map]
  exact List.map_congr_left fun symbol _ => symbol.name_withBaseCase

theorem label_withBaseCases (g : Grammar) : g.withBaseCases.label = g.label := by
  funext i
  rw [label, label, names_withBaseCases]

/-- Non-terminals get their base cases one by one. -/
theorem nonTerminals_withBaseCases (g : Grammar) :
    g.withBaseCases.nonTerminals = g.nonTerminals.map NonTerminal.withBaseCase := by
  rw [nonTerminals, nonTerminals, withBaseCases, List.filterMap_map, List.map_filterMap]
  refine List.filterMap_congr fun symbol _ => ?_
  cases symbol <;> rfl

theorem isNonTerminal_withBaseCases {i : Nat} (h : g.isNonTerminal i) : g.withBaseCases.isNonTerminal i := by
  obtain ⟨nt, hnt⟩ := isNonTerminal_iff.mp h
  refine isNonTerminal_iff.mpr ⟨nt.withBaseCase, ?_⟩
  rw [getElem?_withBaseCases, hnt]
  rfl

/-- Where every left-recursive non-terminal has a production that starts otherwise, nothing is added. -/
theorem withBaseCases_eq_self (h : ∀ nt ∈ g.nonTerminals,
    (∃ production ∈ nt.productions, production.head? = some nt.index) →
      ∃ production ∈ nt.productions, production.head? ≠ some nt.index) : g.withBaseCases = g := by
  have hsymbols : g.symbols.map Symbol.withBaseCase = g.symbols := by
    refine (List.map_congr_left fun symbol hsymbol => ?_).trans (List.map_id g.symbols)
    cases symbol with
    | epsilon => rfl
    | terminal name => rfl
    | nonTerminal nt =>
      have hnt : nt ∈ g.nonTerminals := List.mem_filterMap.mpr ⟨.nonTerminal nt, hsymbol, rfl⟩
      refine congrArg Symbol.nonTerminal ?_
      rw [NonTerminal.withBaseCase, if_neg]
      rintro ⟨hne, hall⟩
      obtain ⟨first, hfirst⟩ := List.exists_mem_of_ne_nil _ hne
      obtain ⟨production, hp, hother⟩ := h nt hnt ⟨first, hfirst, hall first hfirst⟩
      exact hother (hall production hp)
  rw [withBaseCases, hsymbols]

namespace WellFormed

variable (hg : g.WellFormed)
include hg

/-- **Base cases keep a grammar well formed.** -/
theorem withBaseCases : g.withBaseCases.WellFormed where
  epsilon := by
    rw [getElem?_withBaseCases, hg.epsilon]
    rfl
  endMark := by
    rw [getElem?_withBaseCases, hg.endMark]
    rfl
  blocks := by
    obtain ⟨nts, names, hblocks⟩ := hg.blocks
    refine ⟨nts.map NonTerminal.withBaseCase, names, ?_⟩
    rw [Grammar.withBaseCases, ← List.map_drop, hblocks, List.map_append, List.map_map, List.map_map,
      List.map_map]
    rfl
  index := by
    intro i nt hnt
    rw [getElem?_withBaseCases, Option.map_eq_some_iff] at hnt
    obtain ⟨symbol, hsymbol, heq⟩ := hnt
    -- a base case changes no symbol into another kind
    cases symbol with
    | epsilon => cases heq
    | terminal name => cases heq
    | nonTerminal old =>
      obtain rfl := Symbol.nonTerminal.inj heq
      rw [NonTerminal.index_withBaseCase]
      exact hg.index i old hsymbol
  names := by
    rw [names_withBaseCases]
    exact hg.names
  productions := by
    intro nt hnt production hp
    rw [nonTerminals_withBaseCases] at hnt
    obtain ⟨old, hold, rfl⟩ := List.mem_map.mp hnt
    rw [Grammar.withBaseCases, List.length_map]
    -- the added production has the symbol `ε` only
    rcases NonTerminal.mem_productions_withBaseCase hp with hp | rfl
    · exact hg.productions old hold production hp
    · exact ⟨List.cons_ne_nil _ _, List.forall_mem_singleton.mpr hg.epsilon_lt⟩
  start := fun i hi => isNonTerminal_withBaseCases (hg.start i hi)
  started := by
    intro hne
    refine hg.started fun hnil => hne ?_
    rw [nonTerminals_withBaseCases, hnil]
    rfl

/-- The base cases by index are the base cases by name. -/
theorem namedRules_withBaseCases : g.withBaseCases.namedRules = g.namedRules.map Rule.withBaseCase := by
  rw [namedRules, namedRules, nonTerminals_withBaseCases, label_withBaseCases, List.map_map, List.map_map]
  refine List.map_congr_left fun nt hnt => ?_
  -- by name as by number, a rule has alternatives but no base
  have hcond : ((⟨nt.name, nt.productions.map (·.map g.label)⟩ : Rule).rights ≠ [] ∧
      (⟨nt.name, nt.productions.map (·.map g.label)⟩ : Rule).bases = []) ↔
      (nt.productions ≠ [] ∧ ∀ production ∈ nt.productions, production.head? = some nt.index) := by
    refine and_congr (not_congr List.map_eq_nil_iff) ?_
    rw [List.eq_nil_iff_forall_not_mem]
    refine ⟨?_, ?_⟩
    · intro hnone production hp
      by_contra hne
      exact hnone _ (Rule.mem_bases.mpr ⟨List.mem_map_of_mem hp, fun h => hne ((hg.head?_map_label_iff hnt hp).mp h)⟩)
    · intro hall right hright
      obtain ⟨hmem, hne⟩ := Rule.mem_bases.mp hright
      obtain ⟨production, hp, rfl⟩ := List.mem_map.mp hmem
      exact hne ((hg.head?_map_label_iff hnt hp).mpr (hall production hp))
  rw [Function.comp_apply, Function.comp_apply, Rule.withBaseCase, NonTerminal.withBaseCase]
  by_cases h : nt.productions ≠ [] ∧ ∀ production ∈ nt.productions, production.head? = some nt.index
  · rw [if_pos h, if_pos (hcond.mpr h), List.map_append, List.map_singleton, List.map_singleton,
      hg.label_epsilon]
  · rw [if_neg h, if_neg (mt hcond.mp h)]

end WellFormed

end Grammar

end PredictiveGrammar
