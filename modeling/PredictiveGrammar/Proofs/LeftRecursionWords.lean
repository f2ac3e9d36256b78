import PredictiveGrammar.Proofs.BuiltGrammars
import PredictiveGrammar.Proofs.UnrolledWords

/-!
# Eliminating left recursion keeps the language

Every non-terminal generates after the elimination what it generates with base cases before it
(`Grammar.Built.withoutLeftRecursion_generates`).
-/

namespace PredictiveGrammar

namespace Grammar

variable {g : Grammar} {w : List String}

namespace WellFormed

variable (hg : g.WellFormed)
include hg

theorem unrolling : Unrolling g.names g.namedRules (unrollRules g.names g.namedRules) where
  replaced := unrollRules_replaced g.names g.namedRules
  tidy := hg.tidy
  tidy' := hg.tidy_unrollRules
  right_mem := fun _ hrule => (hg.names_of_mem hrule).2
  epsilon_mem := hg.uniquelyNamed.reserved_mem_names PredictiveGrammar.epsilon List.mem_cons_self

/-- The name of a non-terminal yields under unrolled rules what the non-terminal generates with base cases. -/
theorem yields_unrollRules_iff {nt : NonTerminal} (hnt : nt ∈ g.nonTerminals) :
    Yields (unrollRules g.names g.namedRules) [nt.name] w ↔ g.withBaseCases.Generates [nt.index] w := by
  have hname : ∀ n ∈ [nt.name], n ∈ g.names := List.forall_mem_singleton.mpr (hg.name_mem_names hnt)
  have hnt' : nt.withBaseCase ∈ g.withBaseCases.nonTerminals := by
    rw [nonTerminals_withBaseCases]
    exact List.mem_map_of_mem hnt
  rw [hg.unrolling.yields_iff hname, ← hg.namedRules_withBaseCases, ← nt.name_withBaseCase,
    ← nt.index_withBaseCase]
  exact (hg.withBaseCases.generates_index_iff hnt').symm

end WellFormed

/-- **Eliminating left recursion keeps the language.** It succeeds and keeps the name of the start symbol. Every
non-terminal has a namesake in the result, and that generates the words which the non-terminal generates with base
cases. If every left-recursive non-terminal has a production that starts otherwise, no base case is added. -/
theorem Built.withoutLeftRecursion_generates (hg : g.Built) :
    ∃ h, g.withoutLeftRecursion = .ok h ∧ h.startName? = g.startName? ∧
      (∀ nt ∈ g.nonTerminals, ∃ nt' ∈ h.nonTerminals, nt'.name = nt.name ∧
        ∀ w, h.Generates [nt'.index] w ↔ g.withBaseCases.Generates [nt.index] w) ∧
      ((∀ nt ∈ g.nonTerminals, (∃ production ∈ nt.productions, production.head? = some nt.index) →
        ∃ production ∈ nt.productions, production.head? ≠ some nt.index) → g.withBaseCases = g) := by
  have hwf := hg.wellFormed
  obtain ⟨h, hok, hh, hstart, hrules⟩ := hwf.withoutLeftRecursion
  refine ⟨h, hok, hstart, fun nt hnt => ?_, withBaseCases_eq_self⟩
  have hleft : nt.name ∈ h.namedRules.map Rule.left := by
    rw [hrules]
    refine hwf.unrolling.replaced.left_mem ?_
    rw [lefts_namedRules]
    exact List.mem_map_of_mem hnt
  rw [lefts_namedRules] at hleft
  obtain ⟨nt', hnt', hname⟩ := List.mem_map.mp hleft
  refine ⟨nt', hnt', hname, fun w => ?_⟩
  rw [hh.generates_index_iff hnt', hrules, hname]
  exact hwf.yields_unrollRules_iff hnt

/-- A left-recursive rule without a base case. -/
def baseless : Grammar := .ofRules [⟨"L", [["L", "x"]]⟩]

/-- A left-recursive rule with a base case. -/
def sums : Grammar := .ofRules [⟨"E", [["E", "+", "a"], ["a"]]⟩]

/-- After the elimination `L` generates `x`, and `E` generates `a + a` as it did without base cases added. -/
theorem Built.withoutLeftRecursion_generates_baseless :
    baseless.Built ∧ sums.Built ∧ sums.withBaseCases = sums ∧
      (∃ h, baseless.withoutLeftRecursion = .ok h ∧
        ∃ nt ∈ h.nonTerminals, nt.name = "L" ∧ h.Generates [nt.index] ["x"]) ∧
      ∃ h, sums.withoutLeftRecursion = .ok h ∧
        ∃ nt ∈ h.nonTerminals, nt.name = "E" ∧ h.Generates [nt.index] ["a", "+", "a"] := by
  have hbaseless : baseless.Built := .ofRules _
  have hsums : sums.Built := .ofRules _
  obtain ⟨h, hok, -, hwords, -⟩ := Built.withoutLeftRecursion_generates hbaseless
  obtain ⟨h', hok', -, hwords', hself⟩ := Built.withoutLeftRecursion_generates hsums
  have hsame : sums.withBaseCases = sums := hself (by decide)
  refine ⟨hbaseless, hsums, hsame, ⟨h, hok, ?_⟩, ⟨h', hok', ?_⟩⟩
  · obtain ⟨nt, hnt, hname, hiff⟩ := hwords ⟨2, "L", [[2, 3]]⟩ (by decide)
    refine ⟨nt, hnt, hname, (hiff _).mpr ?_⟩
    have hmem : (⟨2, "L", [[2, 3], [0]]⟩ : NonTerminal) ∈ baseless.withBaseCases.nonTerminals := by decide
    have hfirst : baseless.withBaseCases.Derives [2] [2, 3] := .production hmem (by decide)
    have hsecond : baseless.withBaseCases.Derives ([] ++ 2 :: [3]) ([] ++ [0] ++ [3]) :=
      .expand hmem (by decide) [] [3]
    exact ⟨[0, 3], hfirst.trans hsecond, by decide, by decide⟩
  · obtain ⟨nt, hnt, hname, hiff⟩ := hwords' ⟨2, "E", [[2, 3, 4], [4]]⟩ (by decide)
    refine ⟨nt, hnt, hname, (hiff _).mpr ?_⟩
    rw [hsame]
    have hmem : (⟨2, "E", [[2, 3, 4], [4]]⟩ : NonTerminal) ∈ sums.nonTerminals := by decide
    have hfirst : sums.Derives [2] [2, 3, 4] := .production hmem (by decide)
    have hsecond : sums.Derives ([] ++ 2 :: [3, 4]) ([] ++ [4] ++ [3, 4]) :=
      .expand hmem (by decide) [] [3, 4]
    exact ⟨[4, 3, 4], hfirst.trans hsecond, by decide, by decide⟩

end Grammar

end PredictiveGrammar
