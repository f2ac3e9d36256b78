import PredictiveGrammar.Proofs.Building
import PredictiveGrammar.Proofs.Lists

/-!
# Tidy rules

Rules are `Tidy` if their left sides are distinct and not reserved and no alternative is without symbols.
The rules of a well-formed grammar are tidy (`Grammar.WellFormed.tidy`), and tidy rules are read back from
the grammar they build as they were written (`Tidy.namedRules_ofRules`). So a transformation that keeps rules
tidy can be studied on the rules alone.
-/

namespace PredictiveGrammar

/-- Rules of the form in which they are read back. -/
structure Tidy (rules : List Rule) : Prop where
  /-- every left side has one rule -/
  distinct : (rules.map Rule.left).Nodup
  /-- neither `ε` nor the end mark is defined -/
  unreserved : ∀ rule ∈ rules, rule.left ∉ reserved
  /-- every alternative has symbols -/
  inhabited : ∀ rule ∈ rules, ∀ right ∈ rule.rights, right ≠ []

/-- In tidy rules a left side determines the rule. -/
theorem Tidy.rule_ext {rules : List Rule} (hr : Tidy rules) {rule rule' : Rule} (h : rule ∈ rules)
    (h' : rule' ∈ rules) (hleft : rule.left = rule'.left) : rule = rule' :=
  List.inj_on_of_nodup_map hr.distinct h h' hleft

/-- `ε` is not defined. -/
theorem Tidy.epsilon_notMem {rules : List Rule} (hr : Tidy rules) : epsilon ∉ rules.map Rule.left := by
  intro h
  obtain ⟨rule, hrule, hleft⟩ := List.mem_map.mp h
  exact hr.unreserved rule hrule (hleft ▸ List.mem_cons_self)

theorem Tidy.ne_epsilon {rules : List Rule} (hr : Tidy rules) {name : String} (hname : name ∈ rules.map Rule.left) :
    name ≠ epsilon := fun h0 => hr.epsilon_notMem (h0 ▸ hname)

/-- Leaving rules out keeps the others tidy. -/
theorem Tidy.filter {rules : List Rule} (hr : Tidy rules) (p : Rule → Bool) : Tidy (rules.filter p) where
  distinct := hr.distinct.sublist (List.filter_sublist.map Rule.left)
  unreserved := fun rule hrule => hr.unreserved rule (List.mem_of_mem_filter hrule)
  inhabited := fun rule hrule => hr.inhabited rule (List.mem_of_mem_filter hrule)

/-- Tidy rules for different left sides are tidy together. -/
theorem Tidy.append {rules rules' : List Rule} (hr : Tidy rules) (hr' : Tidy rules')
    (hleft : ∀ rule ∈ rules', rule.left ∉ rules.map Rule.left) : Tidy (rules ++ rules') where
  distinct := by
    rw [List.map_append]
    refine List.nodup_append.mpr ⟨hr.distinct, hr'.distinct, ?_⟩
    rintro name hname _ hname' rfl
    obtain ⟨rule, hrule, rfl⟩ := List.mem_map.mp hname'
    exact hleft rule hrule hname
  unreserved := List.forall_mem_append.mpr ⟨hr.unreserved, hr'.unreserved⟩
  inhabited := List.forall_mem_append.mpr ⟨hr.inhabited, hr'.inhabited⟩

/-! ## The rules of a grammar -/

namespace Grammar

variable {g : Grammar}

/-- The rules of a grammar, where every index has a name. -/
def namedRules (g : Grammar) : List Rule :=
  g.nonTerminals.map fun nt => ⟨nt.name, nt.productions.map (·.map g.label)⟩

theorem lefts_namedRules (g : Grammar) :
    g.namedRules.map Rule.left = g.nonTerminals.map NonTerminal.name := by
  simp [namedRules]

/-- The rules by name are those of the non-terminals. -/
theorem mem_namedRules {rule : Rule} :
    rule ∈ g.namedRules ↔
      ∃ nt ∈ g.nonTerminals, nt.name = rule.left ∧ nt.productions.map (·.map g.label) = rule.rights := by
  simp [namedRules, Rule.ext_iff]

/-- Rules can be read if every index in a production is one of a symbol. -/
theorem rules_eq_of_lt
    (h : ∀ nt ∈ g.nonTerminals, ∀ production ∈ nt.productions, ∀ i ∈ production, i < g.symbols.length) :
    g.rules = .ok g.namedRules := by
  refine mapM_eq_ok fun nt hnt => ?_
  have hproductions : nt.productions.mapM g.namesOf = .ok (nt.productions.map (·.map g.label)) :=
    mapM_eq_ok fun production hp => namesOf_eq (h nt hnt production hp)
  rw [hproductions]
  rfl

theorem left_mem_names : ∀ name ∈ g.namedRules.map Rule.left, name ∈ g.names := by
  rw [lefts_namedRules]
  exact fun name hname => (names_nonTerminals_sublist g).subset hname

/-- Rules hold names of the grammar only if every index in a production is one of a symbol. -/
theorem mem_names_of_lt
    (h : ∀ nt ∈ g.nonTerminals, ∀ production ∈ nt.productions, ∀ i ∈ production, i < g.symbols.length)
    {rule : Rule} (hrule : rule ∈ g.namedRules) : ∀ right ∈ rule.rights, ∀ name ∈ right, name ∈ g.names := by
  intro right hright name hname
  obtain ⟨nt, hnt, -, hrights⟩ := mem_namedRules.mp hrule
  rw [← hrights] at hright
  obtain ⟨production, hp, rfl⟩ := List.mem_map.mp hright
  obtain ⟨i, hi, rfl⟩ := List.mem_map.mp hname
  exact label_mem_names (h nt hnt production hp i hi)

/-- The reserved names stand first, and no name stands twice. -/
structure UniquelyNamed (g : Grammar) : Prop where
  /-- index 0 is `ε` -/
  epsilon : g.symbols[epsilonIndex]? = some .epsilon
  /-- index 1 is the end mark -/
  endMark : g.symbols[endMarkIndex]? = some (.terminal PredictiveGrammar.endMark)
  /-- no two symbols have the same name -/
  names : g.names.Nodup

theorem WellFormed.uniquelyNamed (hg : g.WellFormed) : g.UniquelyNamed := ⟨hg.epsilon, hg.endMark, hg.names⟩

namespace UniquelyNamed

variable (hg : g.UniquelyNamed)
include hg

/-- A name determines the symbol. -/
theorem symbol_ext {i j : Nat} {symbol symbol' : Symbol} (hi : g.symbols[i]? = some symbol)
    (hj : g.symbols[j]? = some symbol') (hname : symbol.name = symbol'.name) : symbol = symbol' := by
  have hlt : i < g.names.length := (length_names g).symm ▸ lt_of_getElem? hi
  have heq : g.names[i]? = g.names[j]? := by rw [getElem?_names hi, getElem?_names hj, hname]
  obtain rfl := (List.getElem?_inj hlt hg.names).mp heq
  exact Option.some.inj (hi.symm.trans hj)

/-- No reserved name is a left side, since the reserved symbols are no non-terminals. -/
theorem left_notMem_reserved : ∀ rule ∈ g.namedRules, rule.left ∉ reserved := by
  intro rule hrule hreserved
  obtain ⟨nt, hnt, hname, -⟩ := mem_namedRules.mp hrule
  obtain ⟨i, hi⟩ := mem_nonTerminals.mp hnt
  rcases List.mem_pair.mp hreserved with hleft | hleft
  · cases hg.symbol_ext hg.epsilon hi (hleft.symm.trans hname.symm)
  · cases hg.symbol_ext hg.endMark hi (hleft.symm.trans hname.symm)

/-- Left sides are distinct, since names are. -/
theorem nodup_lefts : (g.namedRules.map Rule.left).Nodup := by
  rw [lefts_namedRules]
  exact hg.names.sublist (names_nonTerminals_sublist g)

theorem reserved_mem_names : ∀ name ∈ reserved, name ∈ g.names := by
  intro name hname
  rcases List.mem_pair.mp hname with rfl | rfl
  · exact List.mem_map_of_mem (f := Symbol.name) (List.mem_of_getElem? hg.epsilon)
  · exact List.mem_map_of_mem (f := Symbol.name) (List.mem_of_getElem? hg.endMark)

end UniquelyNamed

namespace WellFormed

variable (hg : g.WellFormed)
include hg

/-- Reading the rules back does not fail. -/
theorem rules_eq : g.rules = .ok g.namedRules :=
  rules_eq_of_lt fun _ hnt _ hp => hg.production_lt hnt hp

theorem name_mem_names {nt : NonTerminal} (h : nt ∈ g.nonTerminals) : nt.name ∈ g.names :=
  hg.label_index h ▸ label_mem_names (hg.index_lt h)

/-- **The rules of a well-formed grammar are tidy.** -/
theorem tidy : Tidy g.namedRules where
  distinct := hg.uniquelyNamed.nodup_lefts
  unreserved := hg.uniquelyNamed.left_notMem_reserved
  inhabited := by
    intro rule hrule right hright
    obtain ⟨nt, hnt, -, hrights⟩ := mem_namedRules.mp hrule
    rw [← hrights] at hright
    obtain ⟨production, hp, rfl⟩ := List.mem_map.mp hright
    rw [ne_eq, List.map_eq_nil_iff]
    exact (hg.productions nt hnt production hp).1

/-- The rules of a grammar hold names of the grammar only. -/
theorem names_of_mem {rule : Rule} (h : rule ∈ g.namedRules) :
    rule.left ∈ g.names ∧ ∀ right ∈ rule.rights, ∀ name ∈ right, name ∈ g.names :=
  ⟨left_mem_names _ (List.mem_map_of_mem h), mem_names_of_lt (fun _ hnt _ hp => hg.production_lt hnt hp) h⟩

/-- A production starts with its non-terminal if its names start with the name. -/
theorem head?_map_label_iff {nt : NonTerminal} (hnt : nt ∈ g.nonTerminals) {production : Production}
    (hp : production ∈ nt.productions) :
    (production.map g.label).head? = some nt.name ↔ production.head? = some nt.index := by
  rw [← hg.label_index hnt, List.head?_map, Option.map_eq_some_iff]
  refine ⟨?_, fun hfirst => ⟨nt.index, hfirst, rfl⟩⟩
  rintro ⟨i, hfirst, hlabel⟩
  have hi := hg.production_lt hnt hp i (List.mem_of_head? hfirst)
  rw [hfirst, hg.label_inj hi (hg.index_lt hnt) hlabel]

end WellFormed

end Grammar

/-! ## Reading back what was built -/

/-- The rules of a built grammar: one for each left side, with all its alternatives in order. -/
def regrouped (rules : List Rule) : List Rule :=
  (leftNames rules).map fun name =>
    ⟨name, ((rules.filter (·.left = name)).flatMap Rule.rights).map spelled⟩

/-- What is read back from a built grammar are the rules put together by left sides. -/
theorem Grammar.namedRules_ofRules (rules : List Rule) :
    (Grammar.ofRules rules).namedRules = regrouped rules := by
  rw [Grammar.namedRules, regrouped, Grammar.nonTerminals_ofRules, builtNonTerminals, List.map_map,
    ← List.zipIdx_map_fst reserved.length (leftNames rules), List.map_map, List.zipIdx_map_fst]
  refine List.map_congr_left fun e _ => ?_
  refine Rule.ext rfl ?_
  change (productionsFor rules (numbered rules) e.1).map (·.map (Grammar.ofRules rules).label) =
    ((rules.filter (·.left = e.1)).flatMap Rule.rights).map spelled
  rw [productionsFor, List.map_flatMap, List.map_flatMap]
  refine List.flatMap_congr fun rule hrule => ?_
  rw [List.map_map]
  exact List.map_congr_left fun right hright =>
    Grammar.map_label_encode (Grammar.mem_numbered_of_mem_right (List.mem_of_mem_filter hrule) hright)

namespace Tidy

variable {rules : List Rule} (hr : Tidy rules)
include hr

/-- Tidy rules have no left side to leave out. -/
theorem leftNames_eq : leftNames rules = rules.map Rule.left :=
  PredictiveGrammar.leftNames_eq hr.distinct hr.unreserved

/-- The rule of a left side is the only one found for it. -/
theorem filter_left {rule : Rule} (h : rule ∈ rules) :
    rules.filter (·.left = rule.left) = [rule] :=
  filter_eq_singleton hr.distinct h

/-- **Tidy rules are read back as they were written.** -/
theorem namedRules_ofRules : (Grammar.ofRules rules).namedRules = rules := by
  rw [Grammar.namedRules_ofRules, regrouped, hr.leftNames_eq, List.map_map]
  refine (List.map_congr_left fun rule hrule => ?_).trans (List.map_id rules)
  refine Rule.ext rfl ?_
  change ((rules.filter (·.left = rule.left)).flatMap Rule.rights).map spelled = rule.rights
  rw [hr.filter_left hrule, List.flatMap_singleton]
  refine (List.map_congr_left fun right hright => ?_).trans (List.map_id rule.rights)
  exact spelled_of_ne_nil (hr.inhabited rule hrule right hright)

end Tidy

end PredictiveGrammar
