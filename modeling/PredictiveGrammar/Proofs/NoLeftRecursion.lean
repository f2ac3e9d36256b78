import PredictiveGrammar.Proofs.BaseCases
import PredictiveGrammar.Proofs.EditedGrammars
import PredictiveGrammar.Proofs.Groups
import PredictiveGrammar.Proofs.LeftFactoringWords
import PredictiveGrammar.Proofs.StoredTables

/-!
# Left recursion stays eliminated

After the elimination no alternative starts with its own left side: a loop goes on with old names, and only at its end
with the fresh one. Factoring keeps it so, since a factored rule starts with the symbols it started with
(`Factored.map_head?`) and a remainder holds old names only. Unrolling rules without left recursion does nothing, and
tidy rules are read back as they were built, so an elimination that has nothing to do gives back the very grammar
(`Grammar.withoutLeftRecursion_ofRules`).
-/

namespace PredictiveGrammar

variable {used : List String} {rules fresh : List Rule} {rule entry : Rule}

/-! ## Rules without left recursion -/

/-- A rule without loops has no alternative that starts with its left side. -/
theorem Rule.loops_eq_nil_iff :
    rule.loops = [] ↔ ∀ right ∈ rule.rights, right.head? ≠ some rule.left := by
  simp [Rule.loops, Rule.isRecursive]

/-- **Unrolling rules without left recursion does nothing.** -/
theorem unrollRules_eq_self (h : ∀ rule ∈ rules, rule.loops = []) : unrollRules used rules = rules := by
  induction rules generalizing used with
  | nil => rfl
  | cons rule rules ih =>
    obtain ⟨hrule, h⟩ := List.forall_mem_cons.mp h
    rw [unrollRules, hrule, ih h]
    rfl

theorem Rule.loops_spelled (hunreserved : rule.left ∉ reserved) (h : rule.loops = []) :
    rule.spelled.loops = [] := by
  rw [Rule.loops_eq_nil_iff] at h ⊢
  intro right hright hhead
  obtain ⟨source, hsource, rfl⟩ := List.mem_map.mp hright
  cases source with
  | nil => exact hunreserved (Option.some.inj hhead ▸ List.mem_cons_self)
  | cons name rest => exact h _ hsource hhead

/-! ## What unrolling leaves -/

/-- A name behind a list is its first one only if the list is empty. -/
theorem head?_of_append_singleton {l : List String} {name first : String} (hne : first ≠ name)
    (h : (l ++ [name]).head? = some first) : l.head? = some first := by
  cases l with
  | nil => exact absurd (Option.some.inj h).symm hne
  | cons _ _ => exact h

/-- Loops are not empty and hold used names only. -/
theorem Rule.mem_used_of_mem_loops (hrights : ∀ right ∈ rule.rights, ∀ name ∈ right, name ∈ used)
    (hepsilon : epsilon ∈ used) {loop : List String} (hloop : loop ∈ rule.loops) :
    loop ≠ [] ∧ ∀ name ∈ loop, name ∈ used := by
  obtain ⟨rest, hmem, rfl⟩ := Rule.mem_loops.mp hloop
  cases rest with
  | nil => exact ⟨List.cons_ne_nil _ _, List.forall_mem_singleton.mpr hepsilon⟩
  | cons name rest => exact ⟨List.cons_ne_nil _ _, (List.forall_mem_cons.mp (hrights _ hmem)).2⟩

/-- **Unrolling leaves no left recursion.** -/
theorem Unrolled.loops_eq_nil (h : Unrolled rule entry fresh)
    (hfresh : ∀ name ∈ fresh.map Rule.left, name ∉ used) (hleft : rule.left ∈ used)
    (hrights : ∀ right ∈ rule.rights, ∀ name ∈ right, name ∈ used) (hepsilon : epsilon ∈ used) :
    ∀ new ∈ entry :: fresh, new.loops = [] := by
  cases h with
  | keep hloops => exact List.forall_mem_singleton.mpr hloops
  | unroll name =>
    have hname : name ∉ used := hfresh name List.mem_cons_self
    refine List.forall_mem_cons.mpr ⟨?_, List.forall_mem_singleton.mpr ?_⟩ <;> rw [Rule.loops_eq_nil_iff]
    · intro right hright hhead
      have hne : rule.left ≠ name := fun heq => hname (heq ▸ hleft)
      obtain ⟨base, hbase | ⟨-, rfl⟩, rfl⟩ := Rule.mem_rights_entry.mp hright
      · exact (Rule.mem_bases.mp hbase).2 (head?_of_append_singleton hne hhead)
      · cases head?_of_append_singleton hne hhead
    · intro right hright hhead
      rcases Rule.mem_rights_loop.mp hright with ⟨loop, hloop, rfl⟩ | rfl
      · obtain ⟨hne, hmem⟩ := Rule.mem_used_of_mem_loops hrights hepsilon hloop
        rw [List.head?_append_of_ne_nil _ hne] at hhead
        exact hname (hmem name (List.mem_of_head? hhead))
      · obtain rfl : epsilon = name := Option.some.inj hhead
        exact hname hepsilon

/-- **The elimination leaves no left recursion**, if the names in use are all that stand in the rules. -/
theorem loops_unrollRules (hlefts : ∀ name ∈ rules.map Rule.left, name ∈ used)
    (hrights : ∀ rule ∈ rules, ∀ right ∈ rule.rights, ∀ name ∈ right, name ∈ used) (hepsilon : epsilon ∈ used) :
    ∀ new ∈ unrollRules used rules, new.loops = [] := by
  intro new hnew
  obtain ⟨rule, hrule, entry, fresh, hstands, horigin⟩ :=
    (unrollRules_replaced used rules).exists_of_mem_result hnew
  have hleft := hlefts rule.left (List.mem_map_of_mem hrule)
  exact hstands.replacement.loops_eq_nil hstands.unused hleft (hrights rule hrule) hepsilon new
    (List.mem_cons.mpr horigin)

/-! ## What factoring keeps -/

/-- A factored rule starts with the symbols that it started with. -/
theorem Factored.loops_entry (h : Factored rule entry fresh) (hleft : entry.left = rule.left)
    (hrule : rule.loops = []) : entry.loops = [] := by
  rw [Rule.loops_eq_nil_iff] at hrule ⊢
  intro right hright hhead
  have hmem := List.mem_map_of_mem (f := List.head?) hright
  rw [h.map_head?, hhead, hleft] at hmem
  obtain ⟨symbol, hsymbol, heq⟩ := List.mem_map.mp hmem
  obtain ⟨source, hsource, hhead'⟩ := mem_heads.mp hsymbol
  exact hrule source hsource (hhead'.trans heq)

namespace Grammar

variable {g : Grammar}

/-- **Factoring brings no left recursion about** where there is none. -/
theorem WellFormed.loops_factorRules (hg : g.WellFormed) (h : ∀ rule ∈ g.namedRules, rule.loops = []) :
    ∀ new ∈ factorRules g.names g.namedRules, new.loops = [] := by
  intro new hnew
  obtain ⟨rule, hrule, entry, fresh, hstands, rfl | hfresh⟩ :=
    (factorRules_replaced g.names g.namedRules).exists_of_mem_result hnew
  · exact hstands.replacement.loops_entry hstands.left (h rule hrule)
  -- a remainder holds old names only, so the fresh name does not stand in it
  · have hleft := hstands.unused _ (List.mem_map_of_mem hfresh)
    refine Rule.loops_eq_nil_iff.mpr fun right hright hhead => hleft ?_
    exact hg.mem_names_of_fresh hnew hleft hright _ (List.mem_of_head? hhead)

/-! ## Productions -/

/-- No production starts with its own left side. -/
def LeftRecursionFree (g : Grammar) : Prop :=
  ∀ nt ∈ g.nonTerminals, ∀ production ∈ nt.productions, production.head? ≠ some nt.index

instance (g : Grammar) : Decidable g.LeftRecursionFree :=
  inferInstanceAs (Decidable (∀ nt ∈ g.nonTerminals, ∀ production ∈ nt.productions,
    production.head? ≠ some nt.index))

/-- Productions have no left recursion if the rules by name have none. -/
theorem WellFormed.leftRecursionFree_iff (hg : g.WellFormed) :
    g.LeftRecursionFree ↔ ∀ rule ∈ g.namedRules, rule.loops = [] := by
  constructor
  · intro h rule hrule
    obtain ⟨nt, hnt, hname, hrights⟩ := mem_namedRules.mp hrule
    rw [Rule.loops_eq_nil_iff, ← hrights, ← hname]
    intro right hright
    obtain ⟨production, hp, rfl⟩ := List.mem_map.mp hright
    exact mt (hg.head?_map_label_iff hnt hp).mp (h nt hnt production hp)
  · intro h nt hnt production hp
    have hrule := Rule.loops_eq_nil_iff.mp (h _ (List.mem_map_of_mem hnt))
    exact mt (hg.head?_map_label_iff hnt hp).mpr (hrule _ (List.mem_map_of_mem hp))

/-! ## Sequences of transformations -/

/-- One transformation: an elimination leaves no left recursion, and where there is none, none comes about. -/
theorem WellFormed.apply_loops (hg : g.WellFormed) (step : Transformation) :
    ∃ h, step.apply g = .ok h ∧ h.WellFormed ∧
      (step = .eliminateLeftRecursion ∨ (∀ rule ∈ g.namedRules, rule.loops = []) →
        ∀ rule ∈ h.namedRules, rule.loops = []) := by
  cases step with
  | eliminateLeftRecursion =>
    obtain ⟨h, heq, hwf, -, hrules⟩ := hg.withoutLeftRecursion
    refine ⟨h, heq, hwf, fun _ => hrules ▸ ?_⟩
    exact loops_unrollRules left_mem_names (fun _ hrule => (hg.names_of_mem hrule).2)
      (hg.uniquelyNamed.reserved_mem_names _ List.mem_cons_self)
  | factorLeft =>
    obtain ⟨h, heq, hwf, -, hrules⟩ := hg.leftFactored
    refine ⟨h, heq, hwf, fun hfree => hrules ▸ hg.loops_factorRules ?_⟩
    exact hfree.resolve_left (by simp)

/-- **Any sequence of transformations** leaves no left recursion if it eliminates or there is none. -/
theorem WellFormed.transform_loops (hg : g.WellFormed) (steps : List Transformation)
    (hfree : .eliminateLeftRecursion ∈ steps ∨ ∀ rule ∈ g.namedRules, rule.loops = []) :
    ∃ h, g.transform steps = .ok h ∧ h.WellFormed ∧ ∀ rule ∈ h.namedRules, rule.loops = [] := by
  induction steps generalizing g with
  | nil => exact ⟨g, rfl, hg, hfree.resolve_left List.not_mem_nil⟩
  | cons step steps ih =>
    obtain ⟨next, heq, hwf, hnext⟩ := hg.apply_loops step
    have hfree' : .eliminateLeftRecursion ∈ steps ∨ ∀ rule ∈ next.namedRules, rule.loops = [] := by
      rw [List.mem_cons, eq_comm] at hfree
      rcases hfree with (hstep | hlater) | hfree
      · exact Or.inr (hnext (Or.inl hstep))
      · exact Or.inl hlater
      · exact Or.inr (hnext (Or.inr hfree))
    obtain ⟨h, hrun, hh⟩ := ih hwf hfree'
    exact ⟨h, (transform_cons heq steps).trans hrun, hh⟩

/-! ## Nothing to eliminate -/

theorem startedFrom_startName? (hg : g.WellFormed) (name : Option String) :
    ∃ start, (g.startedFrom name).startName? = .ok start ∧ g.startedFrom start = g.startedFrom name := by
  rcases hstart : name.bind g.indexOf? with - | i
  · refine ⟨none, ?_, ?_⟩ <;> simp [startedFrom, startName?, hstart]
  · obtain ⟨_, -, hfound⟩ := Option.bind_eq_some_iff.mp hstart
    obtain ⟨hlt, -⟩ := hg.indexOf?_eq_some_iff.mp hfound
    refine ⟨some (g.label i), ?_, ?_⟩
    · rw [startedFrom, hstart, startName?]
      exact congrArg (some <$> ·) (nameOf_eq hlt)
    · rw [startedFrom, startedFrom, hstart, Option.bind_some, hg.indexOf?_label hlt]

/-- **An elimination that has nothing to do** gives back the very grammar, whatever its start symbol is. -/
theorem withoutLeftRecursion_ofRules (hr : Tidy rules) (h : ∀ rule ∈ rules, rule.loops = [])
    (name : Option String) :
    ((ofRules rules).startedFrom name).withoutLeftRecursion = .ok ((ofRules rules).startedFrom name) := by
  have hwf := wellFormed_ofRules rules
  obtain ⟨start, hstart, hsame⟩ := startedFrom_startName? hwf name
  have hrules : ((ofRules rules).startedFrom name).rules = .ok rules := by
    change (ofRules rules).rules = .ok rules
    rw [hwf.rules_eq, hr.namedRules_ofRules]
  rw [withoutLeftRecursion, rebuilt, hrules, hstart]
  change Except.ok ((ofRules (unrollRules ((ofRules rules).startedFrom name).names rules)).startedFrom start) = _
  rw [unrollRules_eq_self h, hsame]

namespace UniquelyNamed

variable {h : Grammar} (hg : g.UniquelyNamed)
include hg

/-- Of what a transformation has made, the elimination gives back the grammar itself if there is nothing to eliminate.
-/
theorem withoutLeftRecursion_eq_self {step : Transformation} (heq : step.apply g = .ok h)
    (hfree : h.LeftRecursionFree) : h.withoutLeftRecursion = .ok h := by
  obtain ⟨rules, name, hr, rfl⟩ := hg.apply heq
  have hloops := (wellFormed_ofRules rules).leftRecursionFree_iff.mp hfree
  rw [hr.namedRules_ofRules] at hloops
  exact withoutLeftRecursion_ofRules hr hloops name

/-- The second elimination has nothing to do. -/
theorem withoutLeftRecursion_idem (heq : g.withoutLeftRecursion = .ok h) : h.withoutLeftRecursion = .ok h := by
  obtain ⟨hrules, hr, name, rfl⟩ := hg.withoutLeftRecursion heq
  have hloops := loops_unrollRules left_mem_names (names_of_rules_eq_ok hrules).2
    (hg.reserved_mem_names _ List.mem_cons_self)
  refine withoutLeftRecursion_ofRules hr (fun rule hrule => ?_) name
  have hunreserved := hr.unreserved rule hrule
  obtain ⟨source, hsource, rfl⟩ := List.mem_map.mp hrule
  exact Rule.loops_spelled hunreserved (hloops source hsource)

end UniquelyNamed

/-- **Left recursion stays eliminated.** A built grammar can be transformed in any way, and if an elimination is among
the transformations, no production of the result starts with its own left side. Of a grammar that a transformation has
made, also from one that was edited by hand, the elimination gives back the grammar itself if there is no such
production, as after an elimination. A register that was transformed keeps its grammar and what its table says. -/
theorem leftRecursion_staysEliminated :
    (∀ g : Grammar, g.Built → ∀ steps, .eliminateLeftRecursion ∈ steps →
      ∃ h, g.transform steps = .ok h ∧ h.LeftRecursionFree) ∧
    (∀ g : Grammar, g.Edited → ∀ (step : Transformation) (h : Grammar), step.apply g = .ok h →
      h.LeftRecursionFree → h.withoutLeftRecursion = .ok h) ∧
    (∀ g : Grammar, g.Edited → ∀ h, g.withoutLeftRecursion = .ok h → h.withoutLeftRecursion = .ok h) ∧
    ∀ r : Register, r.grammar.Edited → r.Tabled → ∀ (step : Transformation) (s : Register), r.apply step = .ok s →
      step = .eliminateLeftRecursion ∨ s.grammar.LeftRecursionFree →
      ∃ t, s.apply .eliminateLeftRecursion = .ok t ∧ t.grammar = s.grammar ∧
        ∀ name, t.table.lookup name = s.table.lookup name := by
  refine ⟨fun g hg steps hmem => ?_, fun g hg step h heq hfree => ?_, fun g hg h heq => ?_,
    fun r hg hr step s heq hfree => ?_⟩
  · obtain ⟨h, hrun, hwf, hloops⟩ := hg.wellFormed.transform_loops steps (Or.inl hmem)
    exact ⟨h, hrun, hwf.leftRecursionFree_iff.mpr hloops⟩
  · exact hg.uniquelyNamed.withoutLeftRecursion_eq_self heq hfree
  · exact hg.uniquelyNamed.withoutLeftRecursion_idem heq
  · have hgrammar : step.apply r.grammar = .ok s.grammar :=
      (hr.apply_grammar step).symm.trans (map_eq_ok.mpr ⟨s, heq, rfl⟩)
    refine (Register.Tabled.of_apply heq).apply_fixed ?_
    rcases hfree with rfl | hfree
    · exact hg.uniquelyNamed.withoutLeftRecursion_idem hgrammar
    · exact hg.uniquelyNamed.withoutLeftRecursion_eq_self hgrammar hfree

/-- A rule with left recursion and two alternatives with one start. -/
def calls : Grammar := .ofRules [⟨"E", [["E", "+", "x"], ["x"], ["x", "(", "E", ")"]]⟩]

/-- The rule of `calls` with one more production, which has no symbols, started from the terminal `x`. -/
def editedCalls : Grammar :=
  ⟨[.epsilon, .terminal PredictiveGrammar.endMark, .nonTerminal ⟨2, "E", [[2, 3, 4], [4], [4, 5, 2, 6], []]⟩,
    .terminal "+", .terminal "x", .terminal "(", .terminal ")"], some 4⟩

theorem edited_editedCalls : editedCalls.Edited :=
  have hmore : calls.addProduction? 2 [] = some { editedCalls with start := some 2 } := by decide
  .setStart (some 4) (.addProduction (.built (.ofRules _)) hmore)

/-- The register of `calls`. -/
def storedCalls : Register := .ofRules [⟨"E", [["E", "+", "x"], ["x"], ["x", "(", "E", ")"]]⟩]

/-- An elimination before a factoring, one behind a factoring that left nothing to eliminate, two in a row, and two in a
row with a stored table, which has the fresh `E'` behind both. -/
theorem leftRecursion_staysEliminated_calls :
    (∃ h, calls.transform [.eliminateLeftRecursion, .factorLeft] = .ok h ∧ h.LeftRecursionFree) ∧
      (ofRules [⟨"A", [["a", "A_LF1"]]⟩, ⟨"A_LF1", [["b"], ["A"]]⟩]).withoutLeftRecursion =
        .ok (ofRules [⟨"A", [["a", "A_LF1"]]⟩, ⟨"A_LF1", [["b"], ["A"]]⟩]) ∧
      (∃ h, editedCalls.withoutLeftRecursion = .ok h ∧ h.withoutLeftRecursion = .ok h) ∧
      ∃ s t, storedCalls.apply .eliminateLeftRecursion = .ok s ∧ s.apply .eliminateLeftRecursion = .ok t ∧
        t.grammar = s.grammar ∧ s.table.lookup "E'" = some 3 ∧ t.table.lookup "E'" = some 3 := by
  obtain ⟨hsequence, hself, htwice, hstored⟩ := leftRecursion_staysEliminated
  refine ⟨hsequence calls (.ofRules _) _ List.mem_cons_self, ?_, ?_, ?_⟩
  · have hfactored : Transformation.factorLeft.apply (ofRules [⟨"A", [["a", "b"], ["a", "A"]]⟩]) =
        .ok (ofRules [⟨"A", [["a", "A_LF1"]]⟩, ⟨"A_LF1", [["b"], ["A"]]⟩]) := by decide
    exact hself _ (.built (.ofRules _)) .factorLeft _ hfactored (by decide)
  · have hunrolled : editedCalls.withoutLeftRecursion =
        .ok ((ofRules [⟨"E", [["x", "E'"], ["x", "(", "E", ")", "E'"], ["E'"]]⟩,
          ⟨"E'", [["+", "x", "E'"], ["ε"]]⟩]).startedFrom (some "x")) := by decide
    exact ⟨_, hunrolled, htwice editedCalls edited_editedCalls _ hunrolled⟩
  · have hgrammar : storedCalls.grammar = calls := Register.grammar_ofRules _
    have htabled : storedCalls.Tabled := Register.tabled_ofRules _
    have hunrolled : Transformation.eliminateLeftRecursion.apply storedCalls.grammar =
        .ok (ofRules [⟨"E", [["x", "E'"], ["x", "(", "E", ")", "E'"]]⟩, ⟨"E'", [["+", "x", "E'"], ["ε"]]⟩]) := by
      rw [hgrammar]
      decide
    rw [← htabled.apply_grammar] at hunrolled
    obtain ⟨s, heq, hs⟩ := map_eq_ok.mp hunrolled
    obtain ⟨t, ht, hsame, hlookup⟩ :=
      hstored storedCalls (hgrammar ▸ .built (.ofRules _)) htabled _ s heq (Or.inl rfl)
    have hfresh : s.table.lookup "E'" = some 3 := by
      rw [Register.Tabled.of_apply heq, hs]
      decide
    exact ⟨s, t, heq, ht, hsame, hfresh, (hlookup _).trans hfresh⟩

end Grammar

end PredictiveGrammar
