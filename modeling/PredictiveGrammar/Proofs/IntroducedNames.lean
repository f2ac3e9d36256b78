import PredictiveGrammar.Proofs.FactoredShape
import PredictiveGrammar.Proofs.NoLeftRecursion
import PredictiveGrammar.Proofs.StoredTables

/-!
# The names that transformations introduce

A fresh name is the wanted one with the fewest apostrophes that make it unused (`FewestMarks`). A transformation goes
through the rules and wants names for each of them: one with an apostrophe for a left-recursive rule, one with a number
for each symbol that several alternatives start with (`Transformation.wantedNames`). It makes them fresh one after the
other, with what it introduced before in use as well (`freshNames`). So the names of one run differ from each other and
from all names of the grammar, and the old left sides stay where they are, with the new ones behind them
(`NamesIntroduced`).
-/

namespace PredictiveGrammar

/-! ## Definitions -/

/-- A name with as few apostrophes behind it as make it none of the excluded ones. -/
structure FewestMarks (excluded : String → Prop) (name : String) (count : Nat) (result : String) : Prop where
  /-- the result is the name with that many apostrophes -/
  marks : result = name ++ String.join (List.replicate count "'")
  /-- it is not excluded -/
  free : ¬excluded result
  /-- with fewer apostrophes it is -/
  least : ∀ fewer < count, excluded (name ++ String.join (List.replicate fewer "'"))

/-- Some names made fresh one after the other; each is in use for those behind it. -/
def freshNames (used : List String) : List String → List String
  | [] => []
  | name :: names => freshName used name :: freshNames (freshName used name :: used) names

/-- How many symbols more than one alternative of a rule starts with. -/
def Rule.sharedHeads (rule : Rule) : Nat :=
  (firstSymbols rule.rights).countP fun symbol => 1 < (rule.rights.filter (·.head? = some symbol)).length

/-- The names that a transformation wants for a rule, before they are made fresh. -/
def Transformation.wantedNames : Transformation → Rule → List String
  | .eliminateLeftRecursion, rule =>
    if ∃ right ∈ rule.rights, right.head? = some rule.left then [rule.left ++ "'"] else []
  | .factorLeft, rule =>
    (List.range' 1 rule.sharedHeads).map fun ordinal => rule.left ++ "_LF" ++ toString ordinal

/-- A grammar `g` with these rules becomes `h`, where `blocks` has the names that are introduced for each rule. -/
structure NamesIntroduced (step : Transformation) (g h : Grammar) (rules : List Rule) (blocks : List (List String)) :
    Prop where
  /-- each rule gets as many names as are wanted for it -/
  lengths : blocks.map List.length = rules.map fun rule => (step.wantedNames rule).length
  /-- all of them are made fresh in turn -/
  names : blocks.flatten = freshNames g.names (rules.flatMap step.wantedNames)
  /-- the old non-terminals keep their names, and the new ones stand behind the one they are for -/
  placed : h.nonTerminals.map NonTerminal.name =
    (List.zipWith (fun (nt : NonTerminal) names => nt.name :: names) g.nonTerminals blocks).flatten
  /-- no name is introduced twice -/
  distinct : blocks.flatten.Nodup
  /-- none of them is the name of a symbol -/
  unused : ∀ name ∈ blocks.flatten, name ∉ g.names
  /-- the old non-terminals stay in their order -/
  kept : (g.nonTerminals.map NonTerminal.name).Sublist (h.nonTerminals.map NonTerminal.name)

/-! ## Single names -/

/-- The marks stand behind the name. -/
theorem withMarks_eq (name : String) (count : Nat) :
    withMarks name count = name ++ String.join (List.replicate count "'") := by
  induction count generalizing name with
  | zero => simp [withMarks]
  | succ count ih => rw [withMarks, ih, List.replicate_succ, String.join_cons, String.append_assoc]

/-- **A fresh name has the fewest marks** that keep it apart from the used ones. -/
theorem fewestMarks_freshName {used : List String} {excluded : String → Prop}
    (h : ∀ name, name ∈ used ↔ excluded name) (name : String) :
    ∃ count ≤ used.length, FewestMarks excluded name count (freshName used name) := by
  obtain ⟨count, heq, hnot, hbelow⟩ := exists_freshName_eq used name
  refine ⟨count, ?_, heq.trans (withMarks_eq name count), ?_, fun fewer hfewer => ?_⟩
  · cases count with
    | zero => exact Nat.zero_le _
    | succ count => exact lt_length_of_withMarks_mem fun i hi => hbelow i (Nat.lt_succ_of_le hi)
  · rw [heq, ← h]
    exact hnot
  · rw [← withMarks_eq, ← h]
    exact hbelow fewer hfewer

/-! ## Names one after the other -/

section Names

variable {used used' names names' : List String}

theorem length_freshNames (used names : List String) : (freshNames used names).length = names.length := by
  induction names generalizing used with
  | nil => rfl
  | cons name names ih => rw [freshNames, List.length_cons, List.length_cons, ih]

/-- None of the fresh names is in use. -/
theorem freshNames_notMem : ∀ name ∈ freshNames used names, name ∉ used := by
  induction names generalizing used with
  | nil => exact List.forall_mem_nil _
  | cons wanted names ih =>
    refine List.forall_mem_cons.mpr ⟨freshName_notMem used wanted, fun name hname hused => ?_⟩
    exact ih name hname (List.mem_cons_of_mem _ hused)

/-- **Names made fresh in turn are different ones.** -/
theorem nodup_freshNames (used names : List String) : (freshNames used names).Nodup := by
  induction names generalizing used with
  | nil => exact List.nodup_nil
  | cons wanted names ih =>
    refine List.nodup_cons.mpr ⟨fun hmem => ?_, ih _⟩
    exact freshNames_notMem _ hmem List.mem_cons_self

/-- They depend only on which names are in use, and not on their order. -/
theorem freshNames_congr (h : ∀ x, x ∈ used ↔ x ∈ used') (names : List String) :
    freshNames used names = freshNames used' names := by
  induction names generalizing used used' with
  | nil => rfl
  | cons name names ih => rw [freshNames, freshNames, freshName_congr h, ih (mem_cons_congr h _)]

/-- Making names fresh can be interrupted, with those made so far in use. -/
theorem freshNames_append (used names names' : List String) :
    freshNames used (names ++ names') =
      freshNames used names ++ freshNames (freshNames used names ++ used) names' := by
  induction names generalizing used with
  | nil => rfl
  | cons name names ih =>
    have hsame : ∀ x, x ∈ freshNames (freshName used name :: used) names ++ freshName used name :: used ↔
        x ∈ freshName used name :: freshNames (freshName used name :: used) names ++ used := by
      simp [or_left_comm]
    rw [List.cons_append, freshNames, ih, freshNames_congr hsame]
    rfl

end Names

/-! ## Names for rules -/

/-- Rules are replaced in their places, and the rules behind them have the names that are wanted, made fresh. -/
inductive Introduces (wanted : Rule → List String) : List String → List Rule → List Rule → Prop
  /-- nothing is left to replace -/
  | nil (used : List String) : Introduces wanted used [] []
  /-- the first rule is replaced, and its fresh names are used from there on -/
  | cons {used : List String} {rule entry : Rule} {fresh rules rules' : List Rule} :
      entry.left = rule.left → fresh.map Rule.left = freshNames used (wanted rule) →
      Introduces wanted (fresh.map Rule.left ++ used) rules rules' →
      Introduces wanted used (rule :: rules) (entry :: fresh ++ rules')

variable {wanted : Rule → List String} {used : List String} {rules rules' : List Rule}

/-- The fresh names come in blocks, one for each rule and as long as what it wants, and each block is put in behind the
left side of its rule. -/
theorem Introduces.exists_blocks (h : Introduces wanted used rules rules') :
    ∃ blocks : List (List String), blocks.map List.length = rules.map (fun rule => (wanted rule).length) ∧
      blocks.flatten = freshNames used (rules.flatMap wanted) ∧
      rules'.map Rule.left = (List.zipWith List.cons (rules.map Rule.left) blocks).flatten := by
  induction h with
  | nil => exact ⟨[], rfl, rfl, rfl⟩
  | @cons used rule entry fresh rules rules' hleft hfresh _ ih =>
    obtain ⟨blocks, hlengths, hnames, hplaced⟩ := ih
    refine ⟨freshNames used (wanted rule) :: blocks, ?_, ?_, ?_⟩
    · rw [List.map_cons, List.map_cons, hlengths, length_freshNames]
    · rw [List.flatten_cons, hnames, hfresh, List.flatMap_cons, freshNames_append]
    · rw [List.map_append, List.map_cons, hleft, hfresh, hplaced, List.map_cons, List.zipWith_cons_cons,
        List.flatten_cons]

/-- Every list stays in order when others are put behind its elements. -/
theorem sublist_flatten_zipWith_cons {α : Type} {l : List α} {blocks : List (List α)} (h : blocks.length = l.length) :
    l.Sublist (List.zipWith List.cons l blocks).flatten := by
  induction l generalizing blocks with
  | nil => exact List.nil_sublist _
  | cons a l ih =>
    obtain ⟨block, blocks, rfl⟩ := List.exists_cons_of_length_eq_add_one h
    rw [List.zipWith_cons_cons, List.flatten_cons, List.cons_append]
    exact ((ih (Nat.succ.inj h)).trans (List.sublist_append_right block _)).cons_cons a

/-! ## The two transformations -/

/-- The elimination introduces the names that it wants, one for every rule with loops. -/
theorem unrollRules_introduces (used : List String) (rules : List Rule) :
    Introduces (Transformation.wantedNames .eliminateLeftRecursion) used rules (unrollRules used rules) := by
  induction rules generalizing used with
  | nil => exact .nil used
  | cons rule rules ih =>
    have hloops : rule.loops = [] ↔ ¬∃ right ∈ rule.rights, right.head? = some rule.left := by
      rw [Rule.loops_eq_nil_iff]
      push Not
      rfl
    rw [unrollRules]
    by_cases hnone : rule.loops = []
    · rw [if_pos (List.isEmpty_iff.mpr hnone)]
      refine @Introduces.cons _ used rule rule [] rules _ rfl ?_ (ih used)
      rw [Transformation.wantedNames, if_neg (hloops.mp hnone)]
      rfl
    · rw [if_neg (by simpa using hnone)]
      refine @Introduces.cons _ used rule _ [rule.loop _] rules _ rfl ?_ (ih _)
      rw [Transformation.wantedNames, if_pos (not_not.mp (mt hloops.mpr hnone))]
      rfl

/-- The names for groups are numbered from the ordinal on. -/
theorem map_left_factorGroups (left : String) (used : List String) (ordinal : Nat)
    (groups : List (List (List String))) :
    (factorGroups left used ordinal groups).2.map Rule.left =
      freshNames used ((List.range' ordinal (groups.countP (·.length ≠ 1))).map fun ordinal =>
        left ++ "_LF" ++ toString ordinal) := by
  induction groups generalizing used ordinal with
  | nil => rfl
  | cons group groups ih =>
    match group with
    | [right] =>
      rw [factorGroups, List.countP_cons_of_neg (by simp)]
      exact ih used ordinal
    | [] | first :: second :: rest =>
      rw [List.countP_cons_of_pos (by simp), List.range'_succ]
      exact congrArg (freshName used (left ++ "_LF" ++ toString ordinal) :: ·) (ih _ (ordinal + 1))

/-- The groups that are factored are those of the symbols that several alternatives start with. -/
theorem countP_groups (rule : Rule) :
    ((groupByHead rule.rights).map (·.2)).countP (·.length ≠ 1) = rule.sharedHeads := by
  rw [groups_eq, heads_eq_firstSymbols, List.countP_map, Rule.sharedHeads]
  refine List.countP_congr fun symbol hsymbol => ?_
  rw [← heads_eq_firstSymbols] at hsymbol
  obtain ⟨right, hright, hhead⟩ := mem_heads.mp hsymbol
  have hmem : right ∈ rule.rights.filter (·.head? = some symbol) := List.mem_filter.mpr ⟨hright, decide_eq_true hhead⟩
  have hpos := List.length_pos_of_mem hmem
  simp only [Function.comp_apply, decide_eq_true_eq]
  omega

/-- Factoring introduces the names that it wants, one for every group of several alternatives. -/
theorem factorRules_introduces (used : List String) (rules : List Rule) :
    Introduces (Transformation.wantedNames .factorLeft) used rules (factorRules used rules) := by
  induction rules generalizing used with
  | nil => exact .nil used
  | cons rule rules ih =>
    refine .cons rfl ?_ (ih _)
    rw [map_left_factorGroups, countP_groups, Transformation.wantedNames]

namespace Grammar

variable {g : Grammar}

/-- The rules that a transformation has written have the names that it wanted, made fresh. -/
theorem WellFormed.apply_introduces (hg : g.WellFormed) (step : Transformation) :
    ∃ h, step.apply g = .ok h ∧ Introduces step.wantedNames g.names g.namedRules h.namedRules := by
  cases step with
  | eliminateLeftRecursion =>
    obtain ⟨h, heq, -, -, hrules⟩ := hg.withoutLeftRecursion
    exact ⟨h, heq, hrules ▸ unrollRules_introduces g.names g.namedRules⟩
  | factorLeft =>
    obtain ⟨h, heq, -, -, hrules⟩ := hg.leftFactored
    exact ⟨h, heq, hrules ▸ factorRules_introduces g.names g.namedRules⟩

/-- **Every transformation of a well-formed grammar** introduces names in this way. -/
theorem WellFormed.exists_namesIntroduced (hg : g.WellFormed) (step : Transformation) :
    ∃ h blocks, step.apply g = .ok h ∧ NamesIntroduced step g h g.namedRules blocks := by
  obtain ⟨h, heq, hintroduces⟩ := hg.apply_introduces step
  obtain ⟨blocks, hlengths, hnames, hplaced⟩ := hintroduces.exists_blocks
  rw [lefts_namedRules, lefts_namedRules] at hplaced
  have hlength : blocks.length = (g.nonTerminals.map NonTerminal.name).length := by
    have hcount := congrArg List.length hlengths
    rwa [List.length_map, List.length_map, ← List.length_map (f := Rule.left), lefts_namedRules] at hcount
  refine ⟨h, blocks, heq, hlengths, hnames, ?_, ?_, ?_, ?_⟩
  · rw [hplaced, List.zipWith_map_left]
  · exact hnames ▸ nodup_freshNames _ _
  · exact hnames ▸ freshNames_notMem
  · exact hplaced ▸ sublist_flatten_zipWith_cons hlength

/-- A name stands in the table of names if a symbol has it. -/
theorem mem_symbolTable_names {name : String} : name ∈ g.symbolTable.map Prod.fst ↔ name ∈ g.names := by
  have hperm := (List.mergeSort_perm g.names.zipIdx fun a b => a.1 ≤ b.1).map Prod.fst
  rw [symbolTable, hperm.mem_iff, List.zipIdx_map_fst]

/-- **Introduced names are fresh.** A search for a fresh name ends, at the latest when all excluded names are passed,
with the fewest apostrophes that make the name neither one of the table nor one that is taken; the table may be the one
of a grammar or one that is stored. So the names that a transformation of a built grammar introduces differ from each
other and from all names of the grammar, and the old non-terminals keep their names and their order. -/
theorem introducedNames_fresh :
    (∀ (g : Grammar) (taken : List String) (name : String), ∃ count ≤ (g.names ++ taken).length,
      FewestMarks (fun used => used ∈ g.symbolTable.map Prod.fst ∨ used ∈ taken) name count
        (freshName (g.names ++ taken) name)) ∧
    (∀ (r : Register) (taken : List String) (name : String), ∃ count ≤ (r.table.keys ++ taken).length,
      FewestMarks (fun used => used ∈ r.table ∨ used ∈ taken) name count (freshName (r.table.keys ++ taken) name)) ∧
    ∀ g : Grammar, g.Built → ∀ step : Transformation, ∃ h rules blocks,
      g.rules = .ok rules ∧ step.apply g = .ok h ∧ NamesIntroduced step g h rules blocks := by
  refine ⟨fun g taken name => ?_, fun r taken name => ?_, fun g hg step => ?_⟩
  · exact fewestMarks_freshName (fun name => by rw [List.mem_append, mem_symbolTable_names]) name
  · exact fewestMarks_freshName (fun name => by rw [List.mem_append, AList.mem_keys]) name
  · obtain ⟨h, blocks, heq, hintroduced⟩ := hg.wellFormed.exists_namesIntroduced step
    exact ⟨h, g.namedRules, blocks, hg.wellFormed.rules_eq, heq, hintroduced⟩

/-- Two rules with left recursion whose names differ by an apostrophe, and a terminal with two. -/
def apostrophes : Grammar := .ofRules [⟨"A", [["A", "x"], ["A'"]]⟩, ⟨"A'", [["A'", "y"], ["A''"]]⟩]

/-- The name for the first rule passes over two symbols, and the one for the second rule over that name as well. -/
theorem introducedNames_fresh_apostrophes :
    (∃ count, FewestMarks (fun used => used ∈ apostrophes.symbolTable.map Prod.fst ∨ used ∈ ["A'''"]) "A'" count
      "A''''") ∧
    apostrophes.Built ∧ ∃ h, apostrophes.withoutLeftRecursion = .ok h ∧
      h.nonTerminals.map NonTerminal.name = ["A", "A'''", "A'", "A''''"] ∧
      ["A'''", "A''''"].Nodup ∧ ∀ name ∈ ["A'''", "A''''"], name ∉ apostrophes.names := by
  obtain ⟨hsearch, -, hrun⟩ := introducedNames_fresh
  have hbuilt : apostrophes.Built := .ofRules _
  obtain ⟨count, -, hmarks⟩ := hsearch apostrophes ["A'''"] "A'"
  have hfound : freshName (apostrophes.names ++ ["A'''"]) "A'" = "A''''" := by decide
  obtain ⟨h, rules, blocks, hrules, heq, hintroduced⟩ := hrun apostrophes hbuilt .eliminateLeftRecursion
  have hread : (apostrophes.rules.map fun rules =>
      freshNames apostrophes.names (rules.flatMap (Transformation.wantedNames .eliminateLeftRecursion))) =
        .ok ["A'''", "A''''"] := by decide
  rw [hrules] at hread
  have hnames : blocks.flatten = ["A'''", "A''''"] := hintroduced.names.trans (Except.ok.inj hread)
  have hafter : (apostrophes.withoutLeftRecursion.map fun h => h.nonTerminals.map NonTerminal.name) =
      .ok ["A", "A'''", "A'", "A''''"] := by decide
  have hunrolled : apostrophes.withoutLeftRecursion = .ok h := heq
  rw [hunrolled] at hafter
  exact ⟨⟨count, hfound ▸ hmarks⟩, hbuilt, h, hunrolled, Except.ok.inj hafter, hnames ▸ hintroduced.distinct,
    hnames ▸ hintroduced.unused⟩

end Grammar

end PredictiveGrammar
