import PredictiveGrammar.Proofs.ConflictCounts
import PredictiveGrammar.Proofs.StoredTables

/-!
# How building groups rules

What building makes of rules, said without the order in which it goes about it. The non-terminals are the left sides
that are not reserved, each where it first occurs (`definedNames`), with all their alternatives in order; the other
terminals are the names that occur on right sides only, each where it first occurs (`borrowedNames`). Numbering names
one at a time gives these lists because a name that is known is passed over (`foldl_number_eq`). The rules that are
read back give the same grammar if nothing had to be grouped and no left side is reserved
(`Grammar.ofRules_regrouped`).
-/

namespace PredictiveGrammar

/-! ## First occurrences -/

/-- The names that rules define, each where it first occurs as a left side. -/
def definedNames (rules : List Rule) : List String := ((rules.map Rule.left).filter (· ∉ reserved)).eraseDups

/-- The names that rules use without defining them, each where it first occurs on a right side. -/
def borrowedNames (rules : List Rule) : List String :=
  ((rules.flatMap fun rule => rule.rights.flatten).filter (· ∉ reserved ++ rules.map Rule.left)).eraseDups

variable {rules : List Rule} {name : String}

/-- The numbering finds left sides in the order in which they are first defined. -/
theorem leftNames_eq_definedNames (rules : List Rule) : leftNames rules = definedNames rules := by
  rw [leftNames, declared, foldl_number_eq, List.drop_left]
  rfl

/-- It finds other names in the order in which they are first used. -/
theorem otherNames_eq_borrowedNames (rules : List Rule) : otherNames rules = borrowedNames rules := by
  rw [otherNames, numbered, foldl_number_eq, List.drop_left, borrowedNames]
  refine congrArg List.eraseDups (List.filter_congr fun name _ => ?_)
  simp only [mem_declared, List.mem_append]

/-- The rules of one left side are put together where the first of them stood. -/
theorem regrouped_eq (rules : List Rule) :
    regrouped rules = (definedNames rules).map fun name => ⟨name, (alternatives rules name).map spelled⟩ := by
  rw [← leftNames_eq_definedNames]
  rfl

/-! ## The grammar of some rules -/

namespace Grammar

theorem rules_ofRules (rules : List Rule) : (ofRules rules).rules = .ok (regrouped rules) := by
  rw [(wellFormed_ofRules rules).rules_eq, namedRules_ofRules]

/-- The non-terminals are the names that are defined. -/
theorem isNonTerminal_indexOf?_iff :
    (∃ i, (ofRules rules).indexOf? name = some i ∧ (ofRules rules).isNonTerminal i) ↔
      name ∈ rules.map Rule.left ∧ name ∉ reserved := by
  have hwf := wellFormed_ofRules rules
  rw [and_comm, ← mem_leftNames]
  refine ⟨?_, exists_index_ofRules⟩
  rintro ⟨i, hi, hnt⟩
  obtain ⟨nt, hmem, rfl⟩ := hwf.exists_nonTerminal hnt
  obtain ⟨-, rfl⟩ := hwf.indexOf?_eq_some_iff.mp hi
  rw [hwf.label_index hmem, ← names_builtNonTerminals, ← nonTerminals_ofRules]
  exact List.mem_map_of_mem hmem

/-- The terminals are the end mark and the names that are used without being defined. -/
theorem terminals_ofRules (rules : List Rule) :
    (ofRules rules).terminals = (endMarkIndex, PredictiveGrammar.endMark) ::
      ((otherNames rules).zipIdx (2 + (leftNames rules).length)).map Prod.swap := by
  have hnone : ∀ (nts : List NonTerminal) (first : Nat), ((nts.map Symbol.nonTerminal).zipIdx first).filterMap
      (fun entry => entry.1.terminal?.map (entry.2, ·)) = [] := by
    intro nts first
    simp [List.zipIdx_map, Symbol.terminal?]
  have hsome : ∀ (names : List String) (first : Nat), ((names.map Symbol.terminal).zipIdx first).filterMap
      (fun entry => entry.1.terminal?.map (entry.2, ·)) = (names.zipIdx first).map Prod.swap := by
    intro names first
    rw [List.zipIdx_map, List.filterMap_map]
    exact congrFun List.filterMap_eq_map' _
  have hterminals : (ofRules rules).terminals =
      (ofRules rules).symbols.zipIdx.filterMap fun entry => entry.1.terminal?.map (entry.2, ·) := rfl
  rw [hterminals, symbols_ofRules, List.zipIdx_append, List.zipIdx_append, List.filterMap_append,
    List.filterMap_append, hnone, hsome]
  simp [Symbol.terminal?, builtNonTerminals, Nat.add_comm 2]

/-- The start symbol is the first left side. -/
theorem startName?_ofRules (rules : List Rule) : (ofRules rules).startName? = .ok (leftNames rules).head? := by
  rw [(wellFormed_ofRules rules).startName?_eq, start_ofRules]
  cases hleft : leftNames rules with
  | nil => rfl
  | cons name names =>
    have hfirst : (ofRules rules).label 2 = name := by
      rw [label, names_ofRules, numbered_eq, hleft]
      rfl
    exact congrArg (fun first => Except.ok (some first)) hfirst

/-- **The rules that are read back** are read back again. -/
theorem regrouped_regrouped (rules : List Rule) : regrouped (regrouped rules) = regrouped rules := by
  have hr := (wellFormed_ofRules rules).tidy
  rw [namedRules_ofRules] at hr
  rw [← namedRules_ofRules (regrouped rules), hr.namedRules_ofRules]

/-- Rules with distinct left sides, none of them reserved, build the grammar of the rules that are read back. -/
theorem ofRules_regrouped (hdistinct : (rules.map Rule.left).Nodup)
    (hunreserved : ∀ rule ∈ rules, rule.left ∉ reserved) : ofRules (regrouped rules) = ofRules rules := by
  have hr := tidy_spelled hdistinct hunreserved
  have hread := hr.namedRules_ofRules
  rw [ofRules_spelled, namedRules_ofRules] at hread
  rw [hread, ofRules_spelled]

end Grammar

/-! ## The register of some rules -/

/-- **Building groups rules.** The register of some rules holds their grammar. The rules of that grammar are one for
each left side that is not reserved, in order of first occurrence, with all alternatives that the rules give to it, in
order, where one without symbols becomes `ε`. Such left sides are the non-terminals and no other names are. The
terminals are the end mark and behind the non-terminals the other names on right sides, in order of first occurrence.
The start symbol is the first of the left sides. Building from the rules that are read back gives the same rules, and
the same grammar with the same table if the left sides were distinct and none of them reserved. -/
theorem Register.ofRules_grouped (rules : List Rule) :
    (Register.ofRules rules).grammar = Grammar.ofRules rules ∧
      (Register.ofRules rules).grammar.rules =
        .ok ((definedNames rules).map fun name => ⟨name, (alternatives rules name).map spelled⟩) ∧
      (∀ name, (∃ i, (Register.ofRules rules).table.lookup name = some i ∧
          (Register.ofRules rules).grammar.isNonTerminal i) ↔ name ∈ rules.map Rule.left ∧ name ∉ reserved) ∧
      (Register.ofRules rules).grammar.terminals = (endMarkIndex, endMark) ::
        ((borrowedNames rules).zipIdx (2 + (definedNames rules).length)).map Prod.swap ∧
      (Register.ofRules rules).grammar.startName? = .ok (definedNames rules).head? ∧
      ∃ again, (Register.ofRules rules).grammar.rules = .ok again ∧
        (Register.ofRules again).grammar.rules = .ok again ∧
        ((rules.map Rule.left).Nodup → (∀ rule ∈ rules, rule.left ∉ reserved) →
          (Register.ofRules again).grammar = (Register.ofRules rules).grammar ∧
            ∀ name, (Register.ofRules again).table.lookup name = (Register.ofRules rules).table.lookup name) := by
  rw [Register.grammar_ofRules, ← regrouped_eq, ← otherNames_eq_borrowedNames, ← leftNames_eq_definedNames]
  refine ⟨rfl, Grammar.rules_ofRules rules, fun name => ?_, Grammar.terminals_ofRules rules,
    Grammar.startName?_ofRules rules, regrouped rules, Grammar.rules_ofRules rules, ?_, fun hdistinct hunreserved => ?_⟩
  · rw [Register.lookup_ofRules]
    exact Grammar.isNonTerminal_indexOf?_iff
  · rw [Register.grammar_ofRules, Grammar.rules_ofRules, Grammar.regrouped_regrouped]
  · have heq := Grammar.ofRules_regrouped hdistinct hunreserved
    refine ⟨(Register.grammar_ofRules _).trans heq, fun name => ?_⟩
    rw [Register.lookup_ofRules, Register.lookup_ofRules, heq]

/-- Rules with distinct left sides and an alternative without symbols. -/
def declaredOnce : List Rule := [⟨"S", [["b", "A"], []]⟩, ⟨"A", [["a"]]⟩]

/-- The alternative without symbols is read back as `ε`, and what is read back builds the same grammar. In `mixedRules`
the alternatives of `S` come together, and the right side of the rule for `ε` gives a terminal but no rule. -/
theorem Register.ofRules_grouped_declaredOnce :
    (declaredOnce.map Rule.left).Nodup ∧ (∀ rule ∈ declaredOnce, rule.left ∉ reserved) ∧
      (∃ again, again ≠ declaredOnce ∧ (Register.ofRules declaredOnce).grammar.rules = .ok again ∧
        (Register.ofRules again).grammar = (Register.ofRules declaredOnce).grammar) ∧
      (Register.ofRules Grammar.mixedRules).grammar.rules =
        .ok [⟨"S", [["b", "A"], ["ε"], ["S"]]⟩, ⟨"A", [["A", "$"], ["a"]]⟩] ∧
      (Register.ofRules Grammar.mixedRules).grammar.terminals = [(1, "$"), (4, "b"), (5, "q"), (6, "a")] := by
  have hdistinct : (declaredOnce.map Rule.left).Nodup := by decide
  have hunreserved : ∀ rule ∈ declaredOnce, rule.left ∉ reserved := by decide
  obtain ⟨-, hrules, -, -, -, again, hread, -, hsame⟩ := Register.ofRules_grouped declaredOnce
  obtain ⟨-, hmixed, -, hterminals, -⟩ := Register.ofRules_grouped Grammar.mixedRules
  refine ⟨hdistinct, hunreserved, ⟨again, ?_, hread, (hsame hdistinct hunreserved).1⟩, hmixed.trans (by decide),
    hterminals.trans (by decide)⟩
  rw [hread, Except.ok.injEq] at hrules
  rw [hrules]
  decide

end PredictiveGrammar
