import PredictiveGrammar.Proofs.ConflictCounts

/-!
# Analyses do not depend on the order of declaration

Two lists of rules that declare the same names and give each name the same alternatives, in any order, build grammars
with other indices, in which rounds and worklists run in another order (`Reordered`). What a name starts with and what
follows it speaks of membership only, so it is the same under both, and so are FIRST and FOLLOW by name. How many
alternatives are to be used for a name does not depend on their order either, so each cell has as many conflicts, and
without conflicts the cells hold the same (`Grammar.WellFormed.sameAnalyses`).
-/

namespace PredictiveGrammar

/-- Rules that declare the same names and give each the same alternatives, in any order. -/
structure Reordered (rules rules' : List Rule) : Prop where
  /-- the same names are declared -/
  lefts : ∀ name, name ∈ rules.map Rule.left ↔ name ∈ rules'.map Rule.left
  /-- each has the same alternatives, as often -/
  rights : ∀ name, (alternatives rules name).Perm (alternatives rules' name)

variable {rules rules' : List Rule} {start : Option String} {s right : List String} {name left a : String}

/-- Only declared names have to be compared. -/
theorem reordered_iff :
    Reordered rules rules' ↔ (∀ name ∈ rules.map Rule.left, name ∈ rules'.map Rule.left) ∧
      (∀ name ∈ rules'.map Rule.left, name ∈ rules.map Rule.left) ∧
        ∀ name ∈ rules.map Rule.left, (alternatives rules name).Perm (alternatives rules' name) := by
  refine ⟨fun h => ⟨fun name => (h.lefts name).mp, fun name => (h.lefts name).mpr, fun name _ => h.rights name⟩, ?_⟩
  rintro ⟨hmp, hmpr, hrights⟩
  refine ⟨fun name => ⟨hmp name, hmpr name⟩, fun name => ?_⟩
  by_cases hname : name ∈ rules.map Rule.left
  · exact hrights name hname
  · rw [alternatives_eq_nil hname, alternatives_eq_nil fun h => hname (hmpr name h)]

instance (rules rules' : List Rule) : Decidable (Reordered rules rules') := decidable_of_iff' _ reordered_iff

namespace Reordered

variable (h : Reordered rules rules')
include h

theorem symm : Reordered rules' rules := ⟨fun name => (h.lefts name).symm, fun name => (h.rights name).symm⟩

/-! ## What rules say -/

/-- Every alternative is one of the same left side in the other rules. -/
theorem exists_rule {rule : Rule} (hrule : rule ∈ rules) (hright : right ∈ rule.rights) :
    ∃ rule' ∈ rules', rule'.left = rule.left ∧ right ∈ rule'.rights :=
  mem_alternatives.mp ((h.rights rule.left).mem_iff.mp (mem_alternatives.mpr ⟨rule, hrule, rfl, hright⟩))

/-- The order of rules has no part in what a form starts with. -/
theorem startsWith (hs : StartsWith rules s a) : StartsWith rules' s a := by
  refine hs.transfer (fun name hname => (h.lefts name).mpr hname) fun rule hrule right hright a hright' => ?_
  obtain ⟨rule', hrule', hleft, hmem⟩ := h.exists_rule hrule hright
  exact hleft ▸ .single hrule' hmem hright'

/-- **What names start with** does not depend on the order. -/
theorem startsWith_iff : StartsWith rules s a ↔ StartsWith rules' s a := ⟨h.startsWith, h.symm.startsWith⟩

/-- It has none in what a name is followed by. -/
theorem followedBy (hname : FollowedBy rules start name a) : FollowedBy rules' start name a := by
  induction hname with
  | start hstart => exact .start hstart
  | next hrule hright hname hne hrest =>
    obtain ⟨rule', hrule', -, hmem⟩ := h.exists_rule hrule hright
    exact .next hrule' hmem ((h.lefts _).mp hname) hne (h.startsWith hrest)
  | outer hrule hright hname hrest _ ih =>
    obtain ⟨rule', hrule', hleft, hmem⟩ := h.exists_rule hrule hright
    rw [← hleft] at ih
    exact .outer hrule' hmem ((h.lefts _).mp hname) (h.startsWith hrest) ih

/-- **What follows a name** does not depend on the order. -/
theorem followedBy_iff : FollowedBy rules start name a ↔ FollowedBy rules' start name a :=
  ⟨h.followedBy, h.symm.followedBy⟩

/-- So it has none in what alternatives are to be used for. -/
theorem predicts_iff : Predicts rules start left right a ↔ Predicts rules' start left right a := by
  rw [Predicts, Predicts, h.startsWith_iff, h.startsWith_iff, h.followedBy_iff]

open Classical in
/-- **How many alternatives are to be used for a name** does not depend on the order. -/
theorem claimants_eq : claimants rules start left a = claimants rules' start left a := by
  rw [claimants, claimants, (h.rights left).countP_eq]
  exact List.countP_congr fun right _ => by rw [decide_eq_true_iff, decide_eq_true_iff, h.predicts_iff]

/-! ## What is built -/

theorem mem_leftNames_iff : name ∈ leftNames rules ↔ name ∈ leftNames rules' := by
  rw [mem_leftNames, mem_leftNames, h.lefts]

theorem mem_numbered (hname : name ∈ numbered rules) : name ∈ numbered rules' := by
  rw [PredictiveGrammar.mem_numbered, mem_declared] at hname ⊢
  rcases hname with (hreserved | hleft) | ⟨rule, hrule, right, hright, hname⟩
  · exact Or.inl (Or.inl hreserved)
  · exact Or.inl (Or.inr ((h.lefts name).mp hleft))
  · obtain ⟨rule', hrule', -, hright'⟩ := h.exists_rule hrule hright
    exact Or.inr ⟨rule', hrule', right, hright', hname⟩

/-- The same names are numbered, in another order. -/
theorem numbered_perm : (numbered rules).Perm (numbered rules') :=
  (List.perm_ext_iff_of_nodup (nodup_numbered rules) (nodup_numbered rules')).mpr
    fun _ => ⟨h.mem_numbered, h.symm.mem_numbered⟩

end Reordered

/-- The rules of a built grammar have the alternatives of the rules it was built from, spelled out. -/
theorem alternatives_regrouped (hname : name ∈ leftNames rules) :
    alternatives (regrouped rules) name = (alternatives rules name).map spelled := by
  have hfilter : (leftNames rules).filter (· = name) = [name] := by
    have hnodup : ((leftNames rules).map id).Nodup := (List.map_id _).symm ▸ nodup_leftNames rules
    exact filter_eq_singleton hnodup hname
  rw [alternatives, regrouped, List.filter_map]
  change List.flatMap Rule.rights (((leftNames rules).filter (· = name)).map _) = _
  rw [hfilter]
  exact List.flatMap_singleton ..

theorem lefts_regrouped : (regrouped rules).map Rule.left = leftNames rules := by
  rw [regrouped, List.map_map]
  exact List.map_id _

/-- Reordered rules are built into reordered rules. -/
theorem Reordered.regrouped (h : Reordered rules rules') : Reordered (regrouped rules) (regrouped rules') where
  lefts := fun name => by rw [lefts_regrouped, lefts_regrouped, h.mem_leftNames_iff]
  rights := fun name => by
    by_cases hname : name ∈ leftNames rules
    · rw [alternatives_regrouped hname, alternatives_regrouped (h.mem_leftNames_iff.mp hname)]
      exact (h.rights name).map spelled
    · have hnone : ∀ rules, name ∉ leftNames rules → alternatives (PredictiveGrammar.regrouped rules) name = [] :=
        fun rules hname => alternatives_eq_nil (lefts_regrouped ▸ hname)
      rw [hnone rules hname, hnone rules' fun hname' => hname (h.mem_leftNames_iff.mpr hname')]

/-! ## Grammars with reordered rules -/

theorem FollowSets.Exact.get?_eq_none {g : Grammar} {W : FollowSets} (hW : W.Exact g) {i : Nat}
    (hi : ¬ g.isNonTerminal i) : W.get? i = none := by
  have hkey : i ∉ W.sets.keys := fun hmem => hi ((hW.keys i).mp hmem)
  rw [SetFamily.mem_keys_iff] at hkey
  exact Option.not_isSome_iff_eq_none.mp hkey

namespace Grammar

variable {g h : Grammar} {W V : FollowSets}

/-- Two grammars, with their FOLLOW sets and tables, whose analyses are the same by name. -/
structure SameAnalyses (g h : Grammar) (W V : FollowSets) (T U : Table) : Prop where
  /-- they have symbols of the same names -/
  names : g.names.Perm h.names
  /-- every symbol has the same FIRST set -/
  first : ∀ name i j, g.indexOf? name = some i → h.indexOf? name = some j →
    g.SameNames h (g.first.get? i) (h.first.get? j)
  /-- every symbol has the same FOLLOW set, or none -/
  follow : ∀ name i j, g.indexOf? name = some i → h.indexOf? name = some j →
    (W.get? i).map g.namesIn = (V.get? j).map h.namesIn
  /-- every cell has as many conflicts -/
  conflicts : ∀ name terminal,
    T.conflicts.countP (fun c => c.nonTerminal = name ∧ c.terminal = terminal) =
      U.conflicts.countP (fun c => c.nonTerminal = name ∧ c.terminal = terminal)
  /-- without conflicts the cells hold the same -/
  cells : T.conflicts = [] → ∀ name terminal, T.get? name terminal = U.get? name terminal

/-- A table without conflicts has none in any cell. -/
theorem eq_nil_iff_countP {conflicts : List Conflict} :
    conflicts = [] ↔
      ∀ name terminal, conflicts.countP (fun c => c.nonTerminal = name ∧ c.terminal = terminal) = 0 := by
  refine ⟨fun hnil _ _ => hnil ▸ rfl, fun hzero => List.eq_nil_iff_forall_not_mem.mpr fun c hc => ?_⟩
  exact List.countP_eq_zero.mp (hzero c.nonTerminal c.terminal) c hc (by simp)

namespace WellFormed

variable (hg : g.WellFormed)
include hg

theorem get?_first_of_lt {i : Nat} (hi : i < g.symbols.length) :
    g.first.get? i = some (g.first.ofSequence [i]) := by
  have hlt : i < g.first.sets.length := hg.length_first ▸ hi
  rw [FirstSets.get?_eq_some hlt]
  exact congrArg some (SymbolSet.ext fun a => (FirstSets.mem_ofSequence_singleton hlt).symm)

variable (hh : h.WellFormed) (hrules : Reordered g.namedRules h.namedRules)
  (hstart : g.start.map g.label = h.start.map h.label) (hW : W.Exact g) (hV : V.Exact h)
include hh hrules

/-- Symbols of one name have the same FIRST set by name. -/
theorem sameNames_first_of_reordered {i j : Nat} (hi : i < g.symbols.length) (hj : j < h.symbols.length)
    (hlabel : g.label i = h.label j) : g.SameNames h (g.first.get? i) (h.first.get? j) := by
  refine ⟨_, hg.get?_first_of_lt hi, _, hh.get?_first_of_lt hj, Set.ext fun a => ?_⟩
  rw [hg.mem_namesIn_first (List.forall_mem_singleton.mpr hi), hh.mem_namesIn_first (List.forall_mem_singleton.mpr hj),
    List.map_singleton, List.map_singleton, hlabel, hrules.startsWith_iff]

include hstart hW hV

/-- Symbols of one name have the same FOLLOW set by name, or none. -/
theorem map_namesIn_follow_of_reordered {i j : Nat} (hi : i < g.symbols.length) (hj : j < h.symbols.length)
    (hlabel : g.label i = h.label j) : (W.get? i).map g.namesIn = (V.get? j).map h.namesIn := by
  have hkind : g.isNonTerminal i ↔ h.isNonTerminal j := by
    rw [← hg.mem_lefts_iff hi, ← hh.mem_lefts_iff hj, hlabel, hrules.lefts]
  by_cases hnt : g.isNonTerminal i
  · have hnt' := hkind.mp hnt
    rw [FollowSets.get?, FollowSets.get?, SetFamily.get?_eq_some_getD ((hW.keys i).mpr hnt),
      SetFamily.get?_eq_some_getD ((hV.keys j).mpr hnt'), Option.map_some, Option.map_some]
    refine congrArg some (Set.ext fun a => ?_)
    rw [hg.mem_namesIn_follow hW hnt, hh.mem_namesIn_follow hV hnt', hlabel, hstart, hrules.followedBy_iff]
  · rw [hW.get?_eq_none hnt, hV.get?_eq_none fun hnt' => hnt (hkind.mpr hnt')]
    rfl

/-- **Grammars with reordered rules have the same analyses.** -/
theorem sameAnalyses (hnames : g.names.Perm h.names) :
    g.SameAnalyses h W V (g.namedTable g.first W) (h.namedTable h.first V) := by
  have hconflicts : ∀ name terminal,
      (g.namedTable g.first W).conflicts.countP (fun c => c.nonTerminal = name ∧ c.terminal = terminal) =
        (h.namedTable h.first V).conflicts.countP (fun c => c.nonTerminal = name ∧ c.terminal = terminal) := by
    intro name terminal
    rw [hg.countP_conflicts hW, hh.countP_conflicts hV, ← hstart, hrules.claimants_eq]
  refine ⟨hnames, fun name i j hi hj => ?_, fun name i j hi hj => ?_, hconflicts, fun hnil name terminal => ?_⟩
  · obtain ⟨hi, hlabel⟩ := hg.indexOf?_eq_some_iff.mp hi
    obtain ⟨hj, hlabel'⟩ := hh.indexOf?_eq_some_iff.mp hj
    exact hg.sameNames_first_of_reordered hh hrules hi hj (hlabel.trans hlabel'.symm)
  · obtain ⟨hi, hlabel⟩ := hg.indexOf?_eq_some_iff.mp hi
    obtain ⟨hj, hlabel'⟩ := hh.indexOf?_eq_some_iff.mp hj
    exact hg.map_namesIn_follow_of_reordered hh hrules hstart hW hV hi hj (hlabel.trans hlabel'.symm)
  · have hnil' : (h.namedTable h.first V).conflicts = [] := by
      rw [eq_nil_iff_countP] at hnil ⊢
      exact fun name terminal => hconflicts name terminal ▸ hnil name terminal
    refine Option.ext fun right => ?_
    rw [hg.get?_eq_some_iff hW hnil, hh.get?_eq_some_iff hV hnil', ← hstart, hrules.predicts_iff,
      (hrules.rights name).mem_iff]

end WellFormed

/-! ## Built from reordered rules -/

/-- The grammar of some rules, started from the symbol of a left side. -/
theorem exists_withStart_ofRules (hname : name ∈ leftNames rules) :
    ∃ g, (ofRules rules).withStart name = .ok g ∧ g.WellFormed ∧ g.start.map g.label = some name ∧
      g.namedRules = regrouped rules ∧ g.names = numbered rules := by
  have hg := wellFormed_ofRules rules
  rw [← lefts_regrouped, ← namedRules_ofRules] at hname
  obtain ⟨nt, hnt, rfl⟩ := exists_named hname
  have hok := hg.withStart_eq hnt
  exact ⟨_, hok, hg.withStart hok, congrArg some (hg.label_index hnt), namedRules_ofRules rules, names_ofRules rules⟩

/-- A name without rules is refused as a start symbol. -/
theorem withStart_ofRules_refused (hname : name ∉ leftNames rules) :
    (ofRules rules).withStart name = .error (.undeclaredStart name) := by
  refine (wellFormed_ofRules rules).withStart_refused fun nt hnt heq => hname ?_
  rw [← lefts_regrouped, ← namedRules_ofRules]
  exact heq ▸ name_mem_lefts hnt

/-- **Analyses do not depend on the order of declaration.** Let two lists of rules declare the same names and give each
the same alternatives, in any order. Then the same names can be chosen as start symbol, and with the same start symbol
all the computations succeed for both and have the same results by name. -/
theorem analyses_reordered (hrules : Reordered rules rules') (name : String) :
    (name ∉ leftNames rules → (ofRules rules).withStart name = .error (.undeclaredStart name) ∧
      (ofRules rules').withStart name = .error (.undeclaredStart name)) ∧
    (name ∈ leftNames rules → ∃ g h W V T U,
      (ofRules rules).withStart name = .ok g ∧ (ofRules rules').withStart name = .ok h ∧
        g.follow g.first = .ok W ∧ h.follow h.first = .ok V ∧ g.table g.first W = .ok T ∧ h.table h.first V = .ok U ∧
          g.SameAnalyses h W V T U) := by
  refine ⟨fun hname => ⟨withStart_ofRules_refused hname, withStart_ofRules_refused ?_⟩, fun hname => ?_⟩
  · rwa [← hrules.mem_leftNames_iff]
  · obtain ⟨g, hok, hg, hstart, hrules', hnames⟩ := exists_withStart_ofRules hname
    obtain ⟨h, hok', hh, hstart', hrules'', hnames'⟩ := exists_withStart_ofRules (hrules.mem_leftNames_iff.mp hname)
    obtain ⟨W, hfollow, hW⟩ := hg.follow_eq
    obtain ⟨V, hfollow', hV⟩ := hh.follow_eq
    refine ⟨g, h, W, V, _, _, hok, hok', hfollow, hfollow', hg.table_own hW, hh.table_own hV, ?_⟩
    refine hg.sameAnalyses hh ?_ (hstart.trans hstart'.symm) hW hV ?_
    · rw [hrules', hrules'']
      exact hrules.regrouped
    · rw [hnames, hnames']
      exact hrules.numbered_perm

/-- Lists of items, with a conflict between the alternatives of `L` for `a`. -/
def listRules : List Rule :=
  [⟨"S", [["[", "L", "]"]]⟩, ⟨"L", [["I", ",", "L"], ["I"], ["ε"]]⟩, ⟨"I", [["a"], ["S"]]⟩]

/-- The same lists, with the rule for `L` in two parts and everything in another order. -/
def shuffledListRules : List Rule :=
  [⟨"L", [["ε"]]⟩, ⟨"I", [["S"], ["a"]]⟩, ⟨"L", [["I"], ["I", ",", "L"]]⟩, ⟨"S", [["[", "L", "]"]]⟩]

/-- There the other order has as many conflicts for each cell, though its cells hold something else. -/
theorem analyses_reordered_lists :
    Reordered listRules shuffledListRules ∧ ∃ g h W V T U,
      (ofRules listRules).withStart "S" = .ok g ∧ (ofRules shuffledListRules).withStart "S" = .ok h ∧
        g.follow g.first = .ok W ∧ h.follow h.first = .ok V ∧ g.table g.first W = .ok T ∧ h.table h.first V = .ok U ∧
          g.SameAnalyses h W V T U ∧
            U.conflicts.countP (fun c => c.nonTerminal = "L" ∧ c.terminal = "a") = 1 := by
  have hrules : Reordered listRules shuffledListRules := by decide
  obtain ⟨g, h, W, V, T, U, hok, hok', hW, hV, hT, hU, hsame⟩ :=
    (analyses_reordered hrules "S").2 (by decide)
  refine ⟨hrules, g, h, W, V, T, U, hok, hok', hW, hV, hT, hU, hsame, ?_⟩
  rw [← hsame.conflicts "L" "a"]
  have hknown : (((ofRules listRules).withStart "S").bind fun g => (g.follow g.first).bind fun W =>
      g.table g.first W).map (·.conflicts.countP fun c => c.nonTerminal = "L" ∧ c.terminal = "a") = .ok 1 := by
    decide
  simpa only [hok, hW, hT, Except.bind, Except.map, Except.ok.injEq] using hknown

end Grammar

end PredictiveGrammar
