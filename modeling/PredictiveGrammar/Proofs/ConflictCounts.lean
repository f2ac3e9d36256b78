import PredictiveGrammar.Proofs.FactoredTables

/-!
# How many conflicts a cell has

Every claim to a cell but the first is a clash with the one before it (`countP_clashesAfter`), and no production claims
a cell twice. So a cell that `n` productions claim has `n - 1` conflicts, whatever their order. By name, the claims to a
cell are the alternatives of a left side that are to be used for a name
(`Grammar.WellFormed.countP_conflicts`), and without conflicts the cell holds the one that is
(`Grammar.WellFormed.get?_eq_some_iff`).
-/

namespace PredictiveGrammar

/-- The alternatives that rules give to a name, in order. -/
def alternatives (rules : List Rule) (name : String) : List (List String) :=
  (rules.filter (·.left = name)).flatMap Rule.rights

theorem mem_alternatives {rules : List Rule} {name : String} {right : List String} :
    right ∈ alternatives rules name ↔ ∃ rule ∈ rules, rule.left = name ∧ right ∈ rule.rights := by
  simp [alternatives, List.mem_flatMap, and_assoc]

/-- A name that is no left side has no alternatives. -/
theorem alternatives_eq_nil {rules : List Rule} {name : String} (h : name ∉ rules.map Rule.left) :
    alternatives rules name = [] := by
  refine List.eq_nil_iff_forall_not_mem.mpr fun right hright => ?_
  obtain ⟨rule, hrule, rfl, -⟩ := mem_alternatives.mp hright
  exact h (List.mem_map_of_mem hrule)

open Classical in
/-- How many alternatives of a left side are to be used for a name. -/
noncomputable def claimants (rules : List Rule) (start : Option String) (left a : String) : Nat :=
  (alternatives rules left).countP (Predicts rules start left · a)

/-! ## Counting claims -/

section claimed

variable {earlier made : List (Nat × Production)} {F : FirstSets} {W : FollowSets} {nt : NonTerminal}

/-- **Every claim to a cell but the first is a clash.** -/
theorem countP_clashesAfter (terminal : Nat) :
    (clashesAfter earlier made).countP (·.terminal = terminal) =
      made.countP (·.1 = terminal) - if earlier.lookup terminal = none then 1 else 0 := by
  induction made generalizing earlier with
  | nil => simp [clashesAfter]
  | cons c made ih =>
    obtain ⟨other, production⟩ := c
    rw [clashesAfter, List.countP_append, ih, List.countP_cons]
    by_cases hother : terminal = other
    -- the claim is a clash if the cell is held, and the cell is held afterwards
    · subst hother
      rw [SetFamily.lookup_cons_eq_ite, if_pos rfl]
      rcases earlier.lookup terminal with - | holder
      · simp
      · simp [Nat.add_comm]
    · have hne : other ≠ terminal := Ne.symm hother
      rw [SetFamily.lookup_cons_eq_ite, if_neg hother]
      rcases earlier.lookup other with - | holder
      · simp [hne]
      · simp [hne]

/-- A production claims a cell at most once. -/
theorem countP_claims (terminal : Nat) :
    (claims F W nt).countP (·.1 = terminal) = nt.productions.countP (terminal ∈ predict F W nt.index ·) := by
  rw [claims]
  induction nt.productions with
  | nil => rfl
  | cons production productions ih =>
    have hcount : ((predict F W nt.index production).toList.map fun a => (a, production)).countP (·.1 = terminal) =
        (predict F W nt.index production).toList.count terminal := by
      rw [List.countP_map, List.count]
      exact List.countP_congr fun a _ => by simp
    rw [List.flatMap_cons, List.countP_append, ih, hcount, List.countP_cons,
      (SymbolSet.nodup_toList _).count, Nat.add_comm]
    simp

/-- **A cell has one conflict less than it has claims**, if it has any. -/
theorem countP_clashes (terminal : Nat) :
    (clashesAfter [] (claims F W nt)).countP (·.terminal = terminal) =
      nt.productions.countP (terminal ∈ predict F W nt.index ·) - 1 := by
  rw [countP_clashesAfter, countP_claims]
  rfl

end claimed

/-! ## Counting by name -/

namespace Grammar

variable {g : Grammar} {F : FirstSets} {W : FollowSets} {nt : NonTerminal} {name terminal : String}
  {right : List String}

namespace WellFormed

variable (hg : g.WellFormed)
include hg

theorem filter_nonTerminals (hnt : nt ∈ g.nonTerminals) : g.nonTerminals.filter (·.name = nt.name) = [nt] :=
  filter_eq_singleton (hg.names.sublist (names_nonTerminals_sublist g)) hnt

/-- The alternatives of a non-terminal are its productions by name. -/
theorem alternatives_namedRules (hnt : nt ∈ g.nonTerminals) :
    alternatives g.namedRules nt.name = nt.productions.map (·.map g.label) := by
  have hrule : (⟨nt.name, nt.productions.map (·.map g.label)⟩ : Rule) ∈ g.namedRules :=
    List.mem_map.mpr ⟨nt, hnt, rfl⟩
  have hfilter := hg.tidy.filter_left hrule
  rw [alternatives, hfilter, List.flatMap_singleton]

/-- The conflicts in the row of a non-terminal. -/
theorem filter_conflicts (hclaims : ∀ nt ∈ g.nonTerminals, ∀ c ∈ claims F W nt, g.isTerminal c.1)
    (hnt : nt ∈ g.nonTerminals) :
    (g.namedTable F W).conflicts.filter (·.nonTerminal = nt.name) =
      (clashesAfter [] (claims F W nt)).map (g.namedClash nt) := by
  have hkey : ∀ nt ∈ g.nonTerminals, ∀ c ∈ (g.fillRow F W nt).clashes.map (g.namedClash nt),
      c.nonTerminal = nt.name := by
    rintro nt - c hc
    obtain ⟨clash, -, rfl⟩ := List.mem_map.mp hc
    rfl
  rw [namedTable, fills, List.flatMap_map, filter_flatMap_of_key hkey, hg.filter_nonTerminals hnt,
    List.flatMap_singleton, hg.fillRow_claims hclaims hnt, RowFill.holding]

variable (hW : W.Exact g)
include hW

/-- The clashes for the name of a terminal are those for the terminal. -/
theorem countP_namedClash (hnt : nt ∈ g.nonTerminals) {a : Nat} (ha : g.isTerminal a) :
    ((clashesAfter [] (claims g.first W nt)).map (g.namedClash nt)).countP (·.terminal = g.label a) =
      nt.productions.countP (a ∈ predict g.first W nt.index ·) - 1 := by
  rw [← countP_clashes, List.countP_map]
  refine List.countP_congr fun clash hclash => ?_
  have hterminal := hg.isTerminal_of_mem_claims hW nt hnt _ (mem_of_mem_clashesAfter hclash).1
  have hiff : g.label clash.terminal = g.label a ↔ clash.terminal = a :=
    ⟨hg.label_inj (lt_of_isTerminal hterminal) (lt_of_isTerminal ha), congrArg g.label⟩
  rw [Function.comp_apply, decide_eq_true_iff, decide_eq_true_iff]
  exact hiff

open Classical in
/-- **How many conflicts a cell has**, by name. -/
theorem countP_conflicts (name terminal : String) :
    (g.namedTable g.first W).conflicts.countP (fun c => c.nonTerminal = name ∧ c.terminal = terminal) =
      claimants g.namedRules (g.start.map g.label) name terminal - 1 := by
  have hclaims := hg.isTerminal_of_mem_claims hW
  have hsplit : (g.namedTable g.first W).conflicts.countP (fun c => c.nonTerminal = name ∧ c.terminal = terminal) =
      ((g.namedTable g.first W).conflicts.filter (·.nonTerminal = name)).countP (·.terminal = terminal) := by
    rw [List.countP_filter]
    exact List.countP_congr fun c _ => by simp [and_comm]
  rw [hsplit]
  by_cases hname : name ∈ g.namedRules.map Rule.left
  · obtain ⟨nt, hnt, rfl⟩ := exists_named hname
    rw [hg.filter_conflicts hclaims hnt, claimants, hg.alternatives_namedRules hnt]
    by_cases ha : ∃ a, g.isTerminal a ∧ g.label a = terminal
    · obtain ⟨a, ha, rfl⟩ := ha
      rw [hg.countP_namedClash hW hnt ha, List.countP_map]
      refine congrArg (· - 1) (List.countP_congr fun production hp => ?_)
      rw [Function.comp_apply, decide_eq_true_iff, decide_eq_true_iff, ← hg.mem_namesIn_predict hW hnt hp]
      refine ⟨fun hmem => ⟨a, hmem, nameOf_eq (lt_of_isTerminal ha)⟩, ?_⟩
      rintro ⟨b, hb, hlabel⟩
      obtain ⟨hlt, hlabel⟩ := nameOf_eq_ok_iff.mp hlabel
      exact hg.label_inj hlt (lt_of_isTerminal ha) hlabel ▸ hb
    -- a name of no terminal is neither in a clash nor is anything to be used for it
    · rw [List.countP_eq_zero.mpr, List.countP_eq_zero.mpr]
      · intro right hright hpredicts
        obtain ⟨production, hp, rfl⟩ := List.mem_map.mp hright
        rw [decide_eq_true_iff, ← hg.mem_namesIn_predict hW hnt hp] at hpredicts
        obtain ⟨a, hmem, hlabel⟩ := hpredicts
        exact ha ⟨a, hg.isTerminal_of_mem_predict hW hnt hp hmem, (nameOf_eq_ok_iff.mp hlabel).2⟩
      · intro c hc heq
        obtain ⟨clash, hclash, rfl⟩ := List.mem_map.mp hc
        exact ha ⟨_, hclaims nt hnt _ (mem_of_mem_clashesAfter hclash).1, of_decide_eq_true heq⟩
  · have hnone : (g.namedTable g.first W).conflicts.filter (·.nonTerminal = name) = [] := by
      refine List.filter_eq_nil_iff.mpr fun c hc heq => hname ?_
      obtain ⟨fill, hfill, hc⟩ := List.mem_flatMap.mp hc
      obtain ⟨nt, hnt, rfl⟩ := List.mem_map.mp hfill
      obtain ⟨clash, -, rfl⟩ := List.mem_map.mp hc
      exact of_decide_eq_true heq ▸ name_mem_lefts hnt
    rw [hnone, claimants, alternatives_eq_nil hname]
    rfl

/-- **What a cell holds without conflicts**, by name: the alternative that is to be used. -/
theorem get?_eq_some_iff (hconflicts : (g.namedTable g.first W).conflicts = []) :
    (g.namedTable g.first W).get? name terminal = some right ↔
      right ∈ alternatives g.namedRules name ∧
        Predicts g.namedRules (g.start.map g.label) name right terminal := by
  have hclaims := hg.isTerminal_of_mem_claims hW
  refine ⟨fun h => ?_, ?_⟩
  · obtain ⟨nt, hnt, rfl, -⟩ := hg.exists_of_get?_named hclaims h
    obtain ⟨a, ha, rfl⟩ := List.mem_map.mp (Table.mem_terminals_of_get? h)
    rw [hg.get?_named hclaims hnt (hg.mem_columns.mp ha)] at h
    obtain ⟨production, hlookup, rfl⟩ := Option.map_eq_some_iff.mp h
    obtain ⟨hp, hmem⟩ := mem_claims.mp (mem_of_lookup_reverse hlookup)
    refine ⟨hg.alternatives_namedRules hnt ▸ List.mem_map_of_mem hp, (hg.mem_namesIn_predict hW hnt hp).mp ?_⟩
    exact ⟨a, hmem, nameOf_eq (lt_of_isTerminal (hg.mem_columns.mp ha))⟩
  · rintro ⟨hright, hpredicts⟩
    obtain ⟨rule, hrule, rfl, -⟩ := mem_alternatives.mp hright
    obtain ⟨nt, hnt, hname⟩ := exists_named (List.mem_map_of_mem hrule)
    rw [← hname] at hright hpredicts ⊢
    rw [hg.alternatives_namedRules hnt] at hright
    obtain ⟨production, hp, rfl⟩ := List.mem_map.mp hright
    obtain ⟨a, ha, hlabel⟩ := (hg.mem_namesIn_predict hW hnt hp).mpr hpredicts
    rw [← (nameOf_eq_ok_iff.mp hlabel).2]
    exact hg.get?_of_mem_predict hW hconflicts hnt hp ha

end WellFormed

end Grammar

end PredictiveGrammar
