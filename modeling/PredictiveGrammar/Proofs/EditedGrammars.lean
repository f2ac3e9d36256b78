import PredictiveGrammar.Proofs.BuiltGrammars

/-!
# Transforming grammars that were edited by hand

A production or a start symbol that is set by hand can be any, so an edited grammar need not be well formed and a
transformation of it may fail. But its symbols keep their names (`Grammar.Edited.uniquelyNamed`), and where a
transformation succeeds, its result is built from tidy rules like any other (`Grammar.UniquelyNamed.rebuilt`): a
production without symbols, which no tidy rule has, is the same as one that is `ε` when it is built.
-/

namespace PredictiveGrammar

/-! ## Alternatives without symbols -/

/-- The rule with `ε` for alternatives without symbols. -/
def Rule.spelled (rule : Rule) : Rule := ⟨rule.left, rule.rights.map PredictiveGrammar.spelled⟩

variable {rules : List Rule} {known right : List String}

/-- Writing `ε` for empty alternatives changes no left side. -/
theorem lefts_spelled (rules : List Rule) : (rules.map Rule.spelled).map Rule.left = rules.map Rule.left := by
  simp [Rule.spelled]

/-- The symbol `ε` has its number from the start. -/
theorem foldl_number_spelled (h : epsilon ∈ known) :
    (spelled right).foldl number known = right.foldl number known := by
  cases right with
  | nil => exact if_pos h
  | cons name rest => rfl

theorem foldl_number_flatten_spelled {rights : List (List String)} (h : epsilon ∈ known) :
    (rights.map spelled).flatten.foldl number known = rights.flatten.foldl number known := by
  induction rights generalizing known with
  | nil => rfl
  | cons right rights ih =>
    rw [List.map_cons, List.flatten_cons, List.flatten_cons, List.foldl_append, List.foldl_append,
      foldl_number_spelled h]
    exact ih (mem_foldl_number.mpr (Or.inl h))

theorem flatMap_flatten_rights (rules : List Rule) :
    (rules.flatMap fun rule => rule.rights.flatten) = (rules.flatMap Rule.rights).flatten := by
  simp [← List.flatMap_id, List.flatMap_assoc]

/-- The same names are declared afterwards. -/
theorem declared_spelled (rules : List Rule) : declared (rules.map Rule.spelled) = declared rules := by
  rw [declared, declared, lefts_spelled]

/-- The same names are numbered afterwards, since `ε` is reserved and has its number already. -/
theorem numbered_spelled (rules : List Rule) : numbered (rules.map Rule.spelled) = numbered rules := by
  have hepsilon : epsilon ∈ declared rules := mem_declared.mpr (Or.inl List.mem_cons_self)
  have hrights : (rules.map Rule.spelled).flatMap Rule.rights = (rules.flatMap Rule.rights).map spelled := by
    rw [List.flatMap_map, List.map_flatMap]
    rfl
  rw [numbered, numbered, flatMap_flatten_rights, flatMap_flatten_rights, declared_spelled, hrights]
  exact foldl_number_flatten_spelled hepsilon

/-- An alternative is encoded the same way whether `ε` is written or nothing. -/
theorem encode_spelled (rules : List Rule) (right : List String) :
    encode (numbered rules) (spelled right) = encode (numbered rules) right := by
  cases right with
  | nil =>
    rw [numbered_eq]
    rfl
  | cons name rest => rfl

/-- So the productions are the same. -/
theorem productionsFor_spelled (rules : List Rule) (left : String) :
    productionsFor (rules.map Rule.spelled) (numbered rules) left =
      productionsFor rules (numbered rules) left := by
  have hfilter : (rules.map Rule.spelled).filter (·.left = left) =
      (rules.filter (·.left = left)).map Rule.spelled := by
    rw [List.filter_map]
    rfl
  rw [productionsFor, productionsFor, hfilter, List.flatMap_map]
  refine List.flatMap_congr fun rule _ => ?_
  rw [Rule.spelled, List.map_map]
  exact List.map_congr_left fun right _ => encode_spelled rules right

/-- **An alternative without symbols is built as `ε`.** -/
theorem Grammar.ofRules_spelled (rules : List Rule) : ofRules (rules.map Rule.spelled) = ofRules rules := by
  rw [ofRules, ofRules, numbered_spelled, declared_spelled]
  congr 1
  refine List.map_congr_left fun e _ => ?_
  simp only [symbolFor, productionsFor_spelled]

/-- **Rules with empty alternatives become tidy** when these are written as `ε`. -/
theorem tidy_spelled (hdistinct : (rules.map Rule.left).Nodup)
    (hunreserved : ∀ rule ∈ rules, rule.left ∉ reserved) : Tidy (rules.map Rule.spelled) where
  distinct := (lefts_spelled rules).symm ▸ hdistinct
  unreserved := by
    intro rule hrule
    obtain ⟨source, hsource, rfl⟩ := List.mem_map.mp hrule
    exact hunreserved source hsource
  inhabited := by
    intro rule hrule right hright
    obtain ⟨source, hsource, rfl⟩ := List.mem_map.mp hrule
    obtain ⟨right, -, rfl⟩ := List.mem_map.mp hright
    exact spelled_ne_nil right

/-! ## Names -/

namespace Grammar

variable {g h : Grammar}

namespace UniquelyNamed

variable (hg : g.UniquelyNamed)
include hg

/-- The start symbol has no part in names. -/
theorem setStart (start : Option Nat) : ({ g with start } : Grammar).UniquelyNamed :=
  ⟨hg.epsilon, hg.endMark, hg.names⟩

/-- A production more changes no name. -/
theorem addProduction {index : Nat} {production : Production}
    (heq : g.addProduction? index production = some h) : h.UniquelyNamed := by
  obtain ⟨nt, hnt, rfl⟩ := Option.map_eq_some_iff.mp heq
  have hat := nonTerminalAt?_eq_some_iff.mp hnt
  have hkept : ∀ {i : Nat} {symbol : Symbol}, g.symbols[i]? = some symbol → symbol.nonTerminal? = none →
      ∀ changed : Symbol, (g.symbols.set index changed)[i]? = some symbol := by
    intro i symbol hi hsymbol changed
    rw [List.getElem?_set_ne, hi]
    rintro rfl
    rw [hat, Option.some.injEq] at hi
    rw [← hi] at hsymbol
    cases hsymbol
  have hlt : index < g.names.length := (length_names g).symm ▸ lt_of_getElem? hat
  have hname : g.names[index] = nt.name := List.getElem_eq_iff hlt |>.mpr (getElem?_names hat)
  refine ⟨hkept hg.epsilon rfl _, hkept hg.endMark rfl _, ?_⟩
  rw [Grammar.names, List.map_set]
  change (g.names.set index nt.name).Nodup
  rw [← hname, List.set_getElem_self]
  exact hg.names

end UniquelyNamed

/-! ## Reading the rules -/

/-- If the rules can be read, every index in a production is one of a symbol. -/
theorem lt_of_rules_eq_ok {rules : List Rule} (hrules : g.rules = .ok rules) :
    ∀ nt ∈ g.nonTerminals, ∀ production ∈ nt.productions, ∀ i ∈ production, i < g.symbols.length := by
  intro nt hnt production hp i hi
  obtain ⟨rule, hrule⟩ := exists_ok_of_mapM_eq_ok hrules nt hnt
  obtain ⟨rights, hrights, -⟩ := bind_eq_ok.mp hrule
  obtain ⟨right, hright⟩ := exists_ok_of_mapM_eq_ok hrights production hp
  obtain ⟨name, hname⟩ := exists_ok_of_mapM_eq_ok hright i hi
  rw [nameOf] at hname
  split at hname
  · next hsymbol => exact lt_of_getElem? hsymbol
  · cases hname

/-- Rules that can be read hold names of the grammar only. -/
theorem names_of_rules_eq_ok {rules : List Rule} (hrules : g.rules = .ok rules) :
    rules = g.namedRules ∧ ∀ rule ∈ rules, ∀ right ∈ rule.rights, ∀ name ∈ right, name ∈ g.names := by
  have hlt := lt_of_rules_eq_ok hrules
  obtain rfl := Except.ok.inj (hrules.symm.trans (rules_eq_of_lt hlt))
  exact ⟨rfl, fun _ => mem_names_of_lt hlt⟩

/-! ## Transforming -/

/-- **What a transformation builds it builds from tidy rules.** -/
theorem UniquelyNamed.rebuilt {Local : LocalReplacement} {transform : List String → List Rule → List Rule}
    (hg : g.UniquelyNamed) (htransform : Replaced Local g.names g.namedRules (transform g.names g.namedRules))
    (heq : g.rebuilt transform = .ok h) :
    g.rules = .ok g.namedRules ∧ Tidy ((transform g.names g.namedRules).map Rule.spelled) ∧
      ∃ name, h = (ofRules ((transform g.names g.namedRules).map Rule.spelled)).startedFrom name := by
  obtain ⟨rules, hrules, heq⟩ := bind_eq_ok.mp heq
  obtain ⟨name, -, heq⟩ := bind_eq_ok.mp heq
  obtain ⟨rfl, -⟩ := names_of_rules_eq_ok hrules
  have hdistinct := htransform.nodup_lefts hg.nodup_lefts left_mem_names
  have hunreserved := htransform.unreserved hg.left_notMem_reserved hg.reserved_mem_names
  refine ⟨hrules, tidy_spelled hdistinct hunreserved, name, ?_⟩
  rw [ofRules_spelled]
  exact (Except.ok.inj heq).symm

/-- Eliminating left recursion builds the grammar of the unrolled rules. -/
theorem UniquelyNamed.withoutLeftRecursion (hg : g.UniquelyNamed) (heq : g.withoutLeftRecursion = .ok h) :
    g.rules = .ok g.namedRules ∧ Tidy ((unrollRules g.names g.namedRules).map Rule.spelled) ∧
      ∃ name, h = (ofRules ((unrollRules g.names g.namedRules).map Rule.spelled)).startedFrom name :=
  hg.rebuilt (unrollRules_replaced g.names g.namedRules) heq

/-- **What a transformation builds it builds from tidy rules.** -/
theorem UniquelyNamed.apply (hg : g.UniquelyNamed) {step : Transformation} (heq : step.apply g = .ok h) :
    ∃ rules name, Tidy rules ∧ h = (ofRules rules).startedFrom name := by
  cases step with
  | eliminateLeftRecursion =>
    obtain ⟨-, hr, name, rfl⟩ := hg.withoutLeftRecursion heq
    exact ⟨_, name, hr, rfl⟩
  | factorLeft =>
    rw [Transformation.apply, leftFactored] at heq
    split at heq
    · cases heq
    · obtain ⟨-, hr, name, rfl⟩ := hg.rebuilt (factorRules_replaced g.names g.namedRules) heq
      exact ⟨_, name, hr, rfl⟩

theorem UniquelyNamed.withStart (hg : g.UniquelyNamed) {name : String} (heq : g.withStart name = .ok h) :
    h.UniquelyNamed := by
  obtain ⟨i, -, rfl⟩ := exists_of_withStart heq
  exact hg.setStart _

/-- **Editing keeps the names.** -/
theorem Edited.uniquelyNamed (hg : g.Edited) : g.UniquelyNamed := by
  induction hg with
  | built hg => exact hg.wellFormed.uniquelyNamed
  | addProduction _ heq ih => exact ih.addProduction heq
  | setStart start _ ih => exact ih.setStart start
  | withStart _ heq ih => exact ih.withStart heq
  | transform _ heq ih =>
    obtain ⟨rules, name, -, rfl⟩ := ih.apply heq
    exact (wellFormed_ofRules rules).uniquelyNamed.setStart _

end Grammar

end PredictiveGrammar
