import PredictiveGrammar.Proofs.Factoring
import PredictiveGrammar.Proofs.Unrolling
import PredictiveGrammar.Transform.Built

/-!
# Built grammars are well formed

Every way of getting a grammar without setting productions or the start symbol by hand gives a well-formed one
(`Grammar.Built.wellFormed`). The step that needs an argument is rebuilding from replaced rules: every old
left side is a left side still, so the name of the start symbol is found again (`WellFormed.replaced`).
-/

namespace PredictiveGrammar

namespace Grammar

variable {g : Grammar}

/-! ## What operations do that succeed -/

/-- Only the start symbol changes when one is chosen. -/
theorem exists_of_withStart {h : Grammar} {name : String} (heq : g.withStart name = .ok h) :
    ∃ i, g.isNonTerminal i ∧ h = { g with start := some i } := by
  rw [withStart] at heq
  split at heq
  · next i _ =>
    split at heq
    · next hi => exact ⟨i, hi, (Except.ok.inj heq).symm⟩
    · cases heq
  · cases heq

theorem transform_cons {h : Grammar} {step : Transformation} (heq : step.apply g = .ok h)
    (steps : List Transformation) : g.transform (step :: steps) = h.transform steps := by
  rw [transform, heq]
  rfl

namespace WellFormed

variable (hg : g.WellFormed)
include hg

/-- Only the start symbol has to be checked when it is all that changes. -/
theorem setStart {start : Option Nat} (hstart : ∀ i, start = some i → g.isNonTerminal i)
    (hstarted : g.nonTerminals ≠ [] → start.isSome) : ({ g with start } : Grammar).WellFormed where
  epsilon := hg.epsilon
  endMark := hg.endMark
  blocks := hg.blocks
  index := hg.index
  names := hg.names
  productions := hg.productions
  start := hstart
  started := hstarted

/-- Asking for the name of the start symbol does not fail. -/
theorem startName?_eq : g.startName? = .ok (g.start.map g.label) := by
  rcases hs : g.start with - | i
  · rw [startName?, hs]
    rfl
  · rw [startName?, hs]
    change some <$> g.nameOf i = _
    rw [nameOf_eq (lt_of_isNonTerminal (hg.start i hs))]
    rfl

/-- A transformation of a well-formed grammar builds the transformed rules and looks the start symbol up. -/
theorem rebuilt_eq (transform : List String → List Rule → List Rule) :
    g.rebuilt transform =
      .ok ((ofRules (transform g.names g.namedRules)).startedFrom (g.start.map g.label)) := by
  rw [rebuilt, hg.rules_eq, hg.startName?_eq]
  rfl

/-- The name of the start symbol is the left side of a rule. -/
theorem label_start_mem {i : Nat} (h : g.start = some i) : g.label i ∈ g.namedRules.map Rule.left := by
  obtain ⟨nt, hnt, rfl⟩ := hg.exists_nonTerminal (hg.start i h)
  rw [lefts_namedRules, hg.label_index hnt]
  exact List.mem_map_of_mem hnt

/-! ## Rebuilding from replaced rules -/

variable {Local : LocalReplacement} {rules : List Rule}

/-- **Rebuilding keeps grammars well formed** and the name of the start symbol as it is. -/
theorem replaced (h : Replaced Local g.names g.namedRules rules) (hr : Tidy rules) :
    ((ofRules rules).startedFrom (g.start.map g.label)).WellFormed ∧
      ((ofRules rules).startedFrom (g.start.map g.label)).startName? = g.startName? := by
  have hbuilt := wellFormed_ofRules rules
  rcases hs : g.start with - | i
  -- without a start symbol there are no rules, before and after
  · have hnone : g.nonTerminals = [] := by
      by_contra hne
      have hsome := hg.started hne
      rw [hs] at hsome
      cases hsome
    have hrules : rules = [] := by
      rw [namedRules, hnone] at h
      cases h
      rfl
    subst hrules
    refine ⟨hbuilt.setStart (fun i hi => by cases hi) (fun hne => absurd rfl hne), ?_⟩
    rw [hg.startName?_eq, hs]
    rfl
  · have hname := h.left_mem (hg.label_start_mem hs)
    rw [← hr.leftNames_eq] at hname
    obtain ⟨j, hj, hnt⟩ := exists_index_ofRules hname
    have hstart : (ofRules rules).startedFrom (some (g.label i)) = { ofRules rules with start := some j } :=
      congrArg (fun start => { ofRules rules with start }) hj
    rw [Option.map_some, hstart]
    have hwf : ({ ofRules rules with start := some j } : Grammar).WellFormed := by
      refine hbuilt.setStart (fun k hk => ?_) (fun _ => rfl)
      obtain rfl := Option.some.inj hk
      exact hnt
    refine ⟨hwf, ?_⟩
    rw [hwf.startName?_eq, hg.startName?_eq, hs]
    exact congrArg (fun name => Except.ok (some name)) (hbuilt.indexOf?_eq_some_iff.mp hj).2

/-! ## The two transformations -/

/-- The elimination keeps rules tidy. -/
theorem tidy_unrollRules : Tidy (unrollRules g.names g.namedRules) :=
  (unrollRules_replaced g.names g.namedRules).tidy hg.tidy left_mem_names
    hg.uniquelyNamed.reserved_mem_names fun _ _ _ h => h.inhabited

/-- Factoring keeps rules tidy. -/
theorem tidy_factorRules : Tidy (factorRules g.names g.namedRules) :=
  (factorRules_replaced g.names g.namedRules).tidy hg.tidy left_mem_names
    hg.uniquelyNamed.reserved_mem_names fun _ _ _ h _ => h.inhabited

/-- Eliminating left recursion does not fail, and gives a well-formed grammar of the unrolled rules. -/
theorem withoutLeftRecursion : ∃ h, g.withoutLeftRecursion = .ok h ∧ h.WellFormed ∧
    h.startName? = g.startName? ∧ h.namedRules = unrollRules g.names g.namedRules := by
  have hr := hg.tidy_unrollRules
  obtain ⟨hwf, hstart⟩ := hg.replaced (unrollRules_replaced g.names g.namedRules) hr
  exact ⟨_, hg.rebuilt_eq unrollRules, hwf, hstart, hr.namedRules_ofRules⟩

/-- Factoring finds no empty production to refuse. -/
theorem find?_isEmpty : g.nonTerminals.find? (·.productions.any List.isEmpty) = none := by
  rw [List.find?_eq_none]
  intro nt hnt hany
  obtain ⟨production, hp, hempty⟩ := List.any_eq_true.mp hany
  exact (hg.productions nt hnt production hp).1 (List.isEmpty_iff.mp hempty)

/-- Left factoring does not fail, and gives a well-formed grammar of the factored rules. -/
theorem leftFactored : ∃ h, g.leftFactored = .ok h ∧ h.WellFormed ∧
    h.startName? = g.startName? ∧ h.namedRules = factorRules g.names g.namedRules := by
  have hr := hg.tidy_factorRules
  obtain ⟨hwf, hstart⟩ := hg.replaced (factorRules_replaced g.names g.namedRules) hr
  refine ⟨_, ?_, hwf, hstart, hr.namedRules_ofRules⟩
  rw [Grammar.leftFactored, hg.find?_isEmpty]
  exact hg.rebuilt_eq factorRules

/-- A transformation of a well-formed grammar does not fail and gives a well-formed one. -/
theorem apply (step : Transformation) : ∃ h, step.apply g = .ok h ∧ h.WellFormed := by
  cases step with
  | eliminateLeftRecursion =>
    obtain ⟨h, heq, hwf, -⟩ := hg.withoutLeftRecursion
    exact ⟨h, heq, hwf⟩
  | factorLeft =>
    obtain ⟨h, heq, hwf, -⟩ := hg.leftFactored
    exact ⟨h, heq, hwf⟩

/-- So do any number of them in order. -/
theorem transform (steps : List Transformation) : ∃ h, g.transform steps = .ok h ∧ h.WellFormed := by
  induction steps generalizing g with
  | nil => exact ⟨g, rfl, hg⟩
  | cons step steps ih =>
    obtain ⟨h, heq, hwf⟩ := hg.apply step
    rw [transform_cons heq]
    exact ih hwf

/-- Choosing a start symbol keeps a grammar well-formed. -/
theorem withStart {h : Grammar} {name : String} (heq : g.withStart name = .ok h) : h.WellFormed := by
  obtain ⟨i, hnt, rfl⟩ := exists_of_withStart heq
  refine hg.setStart (fun j hj => ?_) (fun _ => rfl)
  obtain rfl := Option.some.inj hj
  exact hnt

/-- The name of a non-terminal can be chosen as start symbol. -/
theorem withStart_eq {nt : NonTerminal} (hnt : nt ∈ g.nonTerminals) :
    g.withStart nt.name = .ok { g with start := some nt.index } := by
  have hfound : g.indexOf? nt.name = some nt.index := hg.indexOf?_eq_some_iff.mpr ⟨hg.index_lt hnt, hg.label_index hnt⟩
  simp only [Grammar.withStart, hfound, hg.isNonTerminal_index hnt, if_true]

/-- No other name can. -/
theorem withStart_refused {name : String} (hnone : ∀ nt ∈ g.nonTerminals, nt.name ≠ name) :
    g.withStart name = .error (.undeclaredStart name) := by
  rw [Grammar.withStart]
  rcases hfound : g.indexOf? name with - | i
  · rfl
  · obtain ⟨-, hlabel⟩ := hg.indexOf?_eq_some_iff.mp hfound
    refine if_neg fun hi => ?_
    obtain ⟨nt, hnt, rfl⟩ := hg.exists_nonTerminal hi
    exact hnone nt hnt (hg.label_index hnt ▸ hlabel)

end WellFormed

/-! ## All of them -/

theorem wellFormed_empty : Grammar.empty.WellFormed := wellFormed_ofRules []

/-- **Built grammars are well formed.** -/
theorem Built.wellFormed (hg : g.Built) : g.WellFormed := by
  induction hg with
  | empty => exact wellFormed_empty
  | ofRules rules => exact wellFormed_ofRules rules
  | withStart _ heq ih => exact ih.withStart heq
  | @transform g h step _ heq ih =>
    obtain ⟨h', heq', hwf⟩ := ih.apply step
    rw [heq'] at heq
    exact Except.ok.inj heq ▸ hwf

end Grammar

end PredictiveGrammar
