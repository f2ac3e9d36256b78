import PredictiveGrammar.Proofs.Groups
import PredictiveGrammar.Proofs.LeftFactoringWords

/-!
# The shape of factored rules

What a factored rule looks like, said without the way in which groups are made (`FactoredForm`). Its alternatives
start with different symbols, in the order in which these first appeared. Behind it stand the rules of the fresh names
at the ends of its alternatives. Where these are put back (`reopened`), the alternatives are those of the rule before,
grouped by their first symbols (`groupedByFirst`). What stands in front of a fresh name is the longest start that the
alternatives with the same first symbol have in common (`LongestStart`).
-/

namespace PredictiveGrammar

/-! ## Definitions -/

/-- The symbols that alternatives start with, each where it first appears. -/
def firstSymbols (rights : List (List String)) : List String := (rights.filterMap List.head?).eraseDups

/-- The alternatives one first symbol after the other, in their order where they start with the same one. -/
def groupedByFirst (rights : List (List String)) : List (List String) :=
  (firstSymbols rights).flatMap fun symbol => rights.filter (·.head? = some symbol)

/-- The symbols of an alternative that are not `ε`. -/
def withoutEpsilon (right : List String) : List String := right.filter (· ≠ epsilon)

/-- What an alternative that ends in a fresh name stands for: itself with each alternative of that name in its place. -/
def reopened (fresh : List Rule) (right : List String) : List (List String) :=
  match fresh.find? fun new => right.getLast? = some new.left with
  | some new => new.rights.map (right.dropLast ++ ·)
  | none => [right]

/-- The longest start that several alternatives have in common. -/
structure LongestStart (group : List (List String)) (start : List String) : Prop where
  /-- there is more than one alternative -/
  several : 1 < group.length
  /-- all of them begin with it -/
  common : ∀ right ∈ group, start <+: right
  /-- they do not all go on with the same symbol -/
  longest : ¬∃ symbol, ∀ right ∈ group, (right.drop start.length).head? = some symbol

/-- The rule `entry` and the rules for fresh names that a rule is factored into. -/
structure FactoredForm (used : List String) (source entry : Rule) (fresh : List Rule) : Prop where
  /-- the alternatives start with the symbols that they started with, in order of first appearance -/
  heads : entry.rights.map List.head? = (firstSymbols source.rights).map some
  /-- which are different ones -/
  distinct : (entry.rights.map List.head?).Nodup
  /-- the fresh names are those at the ends of alternatives, in order -/
  names : fresh.map Rule.left = (entry.rights.filterMap List.getLast?).filter (· ∉ used)
  /-- an alternative that shares its first symbol with no other one stays -/
  kept : ∀ right, source.rights.filter (·.head? = right.head?) = [right] → right ∈ entry.rights
  /-- with these names put back, the alternatives are those of the rule, grouped by their first symbols -/
  rejoined : (entry.rights.flatMap (reopened fresh)).map withoutEpsilon =
    (groupedByFirst source.rights).map withoutEpsilon
  /-- a fresh name stands behind the longest start that is shared -/
  longest : ∀ new ∈ fresh, ∀ start, start ++ [new.left] ∈ entry.rights →
    LongestStart (source.rights.filter (·.head? = start.head?)) start

/-! ## Grouping -/

section Grouping

variable {rights : List (List String)}

theorem heads_eq_firstSymbols (rights : List (List String)) : heads rights = firstSymbols rights := by
  rw [heads, foldl_number_eq, firstSymbols]
  simp

/-- **Grouping loses no alternative** and doubles none. -/
theorem groupedByFirst_perm (hne : ∀ right ∈ rights, right ≠ []) : (groupedByFirst rights).Perm rights := by
  have hnodup : ((heads rights).map some).Nodup := (nodup_heads rights).map fun _ _ => Option.some.inj
  have h := flatMap_filter_perm (f := List.head?) hnodup (l := rights) fun right hright => ?_
  · rwa [List.flatMap_map, heads_eq_firstSymbols] at h
  · obtain ⟨symbol, rest, rfl⟩ := List.exists_cons_of_ne_nil (hne right hright)
    exact List.mem_map_of_mem (mem_heads.mpr ⟨_, hright, rfl⟩)

end Grouping

/-! ## Common starts -/

section Starts

variable {start l m : List String} {group : List (List String)}

theorem isPrefix_commonStart (hl : start <+: l) (hm : start <+: m) : start <+: commonStart l m := by
  induction start generalizing l m with
  | nil => exact List.nil_prefix
  | cons a start ih =>
    obtain ⟨l, rfl⟩ := hl
    obtain ⟨m, rfl⟩ := hm
    rw [List.cons_append, List.cons_append, commonStart, if_pos rfl]
    exact List.cons_prefix_cons.mpr ⟨rfl, ih (List.prefix_append start l) (List.prefix_append start m)⟩

/-- What all members of a group begin with, the shared start begins with. -/
theorem isPrefix_sharedStart (hne : group ≠ []) (h : ∀ right ∈ group, start <+: right) :
    start <+: sharedStart group := by
  obtain ⟨first, group, rfl⟩ := List.exists_cons_of_ne_nil hne
  obtain ⟨hfirst, hgroup⟩ := List.forall_mem_cons.mp h
  exact List.foldlRecOn (motive := (start <+: ·)) group commonStart hfirst
    fun l hl right hright => isPrefix_commonStart hl (hgroup right hright)

/-- **The shared start of several alternatives is the longest one.** -/
theorem longestStart_sharedStart (hseveral : 1 < group.length) : LongestStart group (sharedStart group) where
  several := hseveral
  common := fun _ => sharedStart_isPrefix
  longest := by
    rintro ⟨symbol, hsymbol⟩
    have hlonger : sharedStart group ++ [symbol] <+: sharedStart group := by
      refine isPrefix_sharedStart (List.length_pos_iff.mp (by omega)) fun right hright => ?_
      obtain ⟨rest, rfl⟩ := sharedStart_isPrefix hright
      have hhead := hsymbol _ hright
      rw [List.drop_left] at hhead
      obtain ⟨rest, rfl⟩ := List.head?_eq_some_iff.mp hhead
      exact ⟨rest, by simp⟩
    have hle := hlonger.length_le
    rw [List.length_append, List.length_singleton] at hle
    omega

/-- A start and the remainder of an alternative are the alternative, but for an `ε` if nothing is left. -/
theorem withoutEpsilon_append_remainder {right : List String} (h : start <+: right) :
    withoutEpsilon (start ++ remainder start right) = withoutEpsilon right := by
  obtain ⟨rest, rfl⟩ := h
  rw [remainder_append]
  cases rest with
  | nil => simp [withoutEpsilon, spelled]
  | cons symbol rest => rw [spelled_of_ne_nil (List.cons_ne_nil _ _)]

end Starts

/-! ## Fresh names put back -/

section Reopening

variable {used right start : List String} {fresh : List Rule} {new : Rule}

theorem reopened_of_mem (hnodup : (fresh.map Rule.left).Nodup) (hnew : new ∈ fresh) (start : List String) :
    reopened fresh (start ++ [new.left]) = new.rights.map (start ++ ·) := by
  have hfind : fresh.find? (fun other => (start ++ [new.left]).getLast? = some other.left) = some new := by
    rw [List.getLast?_concat]
    cases hfound : fresh.find? fun other => some new.left = some other.left with
    | none => exact absurd hfound (by simpa using ⟨new, hnew, rfl⟩)
    | some other =>
      have hleft : new.left = other.left := by simpa using List.find?_some hfound
      rw [List.inj_on_of_nodup_map hnodup (List.mem_of_find?_eq_some hfound) hnew hleft.symm]
  rw [reopened, hfind, List.dropLast_concat]

theorem reopened_of_used (hfresh : ∀ name ∈ fresh.map Rule.left, name ∉ used) (hright : ∀ name ∈ right, name ∈ used) :
    reopened fresh right = [right] := by
  have hfind : fresh.find? (fun new => right.getLast? = some new.left) = none := by
    rw [List.find?_eq_none]
    intro new hnew hlast
    exact hfresh _ (List.mem_map_of_mem hnew) (hright _ (List.mem_of_getLast? (of_decide_eq_true hlast)))
  rw [reopened, hfind]

end Reopening

/-! ## What groups give way to -/

namespace FactoredGroups

variable {used : List String} {groups : List (List (List String))} {rights : List (List String)} {fresh : List Rule}

/-- The fresh names stand at the ends of alternatives, each once and in order. -/
theorem map_left (h : FactoredGroups groups rights fresh)
    (hused : ∀ group ∈ groups, ∀ right ∈ group, ∀ name ∈ right, name ∈ used)
    (hfresh : ∀ name ∈ fresh.map Rule.left, name ∉ used) :
    fresh.map Rule.left = (rights.filterMap List.getLast?).filter (· ∉ used) := by
  induction h with
  | nil => rfl
  | keep right _ ih =>
    obtain ⟨hright, hused⟩ := List.forall_mem_cons.mp hused
    rw [ih hused hfresh]
    cases hlast : right.getLast? with
    | none => rw [List.filterMap_cons_none hlast]
    | some name =>
      have hname : name ∈ used := hright right List.mem_cons_self name (List.mem_of_getLast? hlast)
      rw [List.filterMap_cons_some hlast, List.filter_cons_of_neg (by simpa using hname)]
  | factor name _ _ ih =>
    obtain ⟨hname, hfresh⟩ := List.forall_mem_cons.mp hfresh
    rw [List.map_cons, ih (List.forall_mem_cons.mp hused).2 hfresh,
      List.filterMap_cons_some List.getLast?_concat, List.filter_cons_of_pos (by simpa using hname)]

/-- A group of one stays. -/
theorem mem_of_singleton (h : FactoredGroups groups rights fresh) {right : List String} (hright : [right] ∈ groups) :
    right ∈ rights := by
  induction h with
  | nil => cases hright
  | keep other _ ih =>
    rcases List.mem_cons.mp hright with heq | hright
    · exact List.singleton_inj.mp heq ▸ List.mem_cons_self
    · exact List.mem_cons_of_mem _ (ih hright)
  | factor name hlength _ ih =>
    rcases List.mem_cons.mp hright with rfl | hright
    · exact absurd rfl hlength
    · exact List.mem_cons_of_mem _ (ih hright)

/-- **With fresh names put back** the alternatives are the members of the groups, one group after the other. -/
theorem rejoined (h : FactoredGroups groups rights fresh) {all : List Rule} (hall : fresh ⊆ all)
    (hnodup : (all.map Rule.left).Nodup) (hfresh : ∀ name ∈ all.map Rule.left, name ∉ used)
    (hused : ∀ group ∈ groups, ∀ right ∈ group, ∀ name ∈ right, name ∈ used) :
    (rights.flatMap (reopened all)).map withoutEpsilon = groups.flatten.map withoutEpsilon := by
  -- the induction is on the groups, while names are looked up among the fresh rules of all of them
  induction h with
  | nil => rfl
  | keep right _ ih =>
    obtain ⟨hright, hused⟩ := List.forall_mem_cons.mp hused
    rw [List.flatMap_cons, reopened_of_used hfresh (hright right List.mem_cons_self), List.flatten_cons,
      List.map_append, List.map_append, ih hall hused]
  | @factor name group _ _ _ _ _ ih =>
    obtain ⟨hnew, hall⟩ := List.cons_subset.mp hall
    have hgroup : ((group.map (remainder (sharedStart group))).map (sharedStart group ++ ·)).map withoutEpsilon =
        group.map withoutEpsilon := by
      rw [List.map_map, List.map_map]
      exact List.map_congr_left fun right hright => withoutEpsilon_append_remainder (sharedStart_isPrefix hright)
    rw [List.flatMap_cons, reopened_of_mem hnodup hnew, List.flatten_cons,
      List.map_append, List.map_append, ih hall (List.forall_mem_cons.mp hused).2, hgroup]

end FactoredGroups

/-- **A factored rule has the form.** -/
theorem Factored.form {used : List String} {source entry : Rule} {fresh : List Rule} (h : Factored source entry fresh)
    (hne : ∀ right ∈ source.rights, right ≠ []) (hused : ∀ right ∈ source.rights, ∀ name ∈ right, name ∈ used)
    (hnodup : (fresh.map Rule.left).Nodup) (hfresh : ∀ name ∈ fresh.map Rule.left, name ∉ used) :
    FactoredForm used source entry fresh := by
  have hgroups : ∀ group ∈ (groupByHead source.rights).map (·.2), ∀ right ∈ group, ∀ name ∈ right, name ∈ used :=
    fun group hgroup right hright => hused right (mem_rights_of_mem_group hgroup hright)
  refine ⟨?_, h.nodup_heads, FactoredGroups.map_left h hgroups hfresh, fun right hright => ?_, ?_,
    fun new hnew start hmem => ?_⟩
  · rw [h.map_head?, heads_eq_firstSymbols]
  · obtain ⟨hmem, -⟩ := List.mem_filter.mp (hright ▸ List.mem_singleton_self right)
    obtain ⟨symbol, rest, rfl⟩ := List.exists_cons_of_ne_nil (hne right hmem)
    refine FactoredGroups.mem_of_singleton h ?_
    rw [groups_eq, ← hright]
    exact List.mem_map.mpr ⟨symbol, mem_heads.mpr ⟨_, hmem, rfl⟩, rfl⟩
  · rw [FactoredGroups.rejoined h (List.Subset.refl fresh) hnodup hfresh hgroups, groups_eq, heads_eq_firstSymbols,
      groupedByFirst, List.flatMap_def]
  · obtain ⟨group, hgroup, hmember | ⟨hlength, name, heq, -⟩⟩ := FactoredGroups.exists_of_mem_rights h hmem
    -- an alternative that stayed ends in a name that was used before
    · exact absurd (hgroups group hgroup _ hmember new.left (by simp)) (hfresh _ (List.mem_map_of_mem hnew))
    · obtain ⟨rfl, -⟩ := List.append_inj' heq rfl
      have hpos := List.length_pos_iff.mpr (ne_nil_of_mem_groups hgroup)
      have hlongest : LongestStart group (sharedStart group) := longestStart_sharedStart (by omega)
      rw [groups_eq] at hgroup
      obtain ⟨symbol, hsymbol, rfl⟩ := List.mem_map.mp hgroup
      rwa [head?_sharedStart_filter hsymbol]

/-! ## Whole grammars -/

namespace Grammar

variable {g : Grammar}

/-- **The shape of a left-factored grammar.** Each rule is replaced in its place by a rule for the same left side, and
behind it the rules for its fresh names, which were not used before. The alternatives then start with different
symbols, in order of first appearance, and with the fresh names at their ends put back they are, but for `ε`, the
alternatives of the rule grouped by first symbols, which are all of them and no others. A fresh name stands behind the
longest start that the alternatives of its group have in common. -/
theorem Built.leftFactored_shape (hg : g.Built) :
    ∃ h rules written, g.leftFactored = .ok h ∧ g.rules = .ok rules ∧ h.rules = .ok written ∧
      Replaced (FactoredForm g.names) g.names rules written ∧ (written.map Rule.left).Nodup ∧
      ∀ rule ∈ rules, (groupedByFirst rule.rights).Perm rule.rights := by
  have hwf := hg.wellFormed
  obtain ⟨h, hfactored, hwf', -, hrules⟩ := hwf.leftFactored
  refine ⟨h, g.namedRules, h.namedRules, hfactored, hwf.rules_eq, hwf'.rules_eq, ?_, hwf'.tidy.distinct,
    fun rule hrule => ?_⟩
  · rw [hrules]
    refine (factorRules_replaced g.names g.namedRules).imp fun rule hrule entry fresh hlocal hnodup hfresh => ?_
    exact Factored.form hlocal (hwf.tidy.inhabited rule hrule) (hwf.names_of_mem hrule).2 hnodup hfresh
  · exact groupedByFirst_perm (hwf.tidy.inhabited rule hrule)

/-- Alternatives of two groups that take turns, one of them twice, one the start of others and one with `ε` inside. -/
def takingTurns : Grammar :=
  .ofRules [⟨"S", [["x", "b", "ε"], ["y", "S"], ["x", "b"], ["z"], ["y"], ["x", "b"]]⟩, ⟨"S_LF1", [["y"]]⟩]

/-- The name `S_LF1` is used already. -/
theorem Built.leftFactored_shape_takingTurns :
    takingTurns.Built ∧ ∃ h rules, takingTurns.leftFactored = .ok h ∧ takingTurns.rules = .ok rules ∧
      Replaced (FactoredForm takingTurns.names) takingTurns.names rules
        [⟨"S", [["x", "b", "S_LF1'"], ["y", "S_LF2"], ["z"]]⟩, ⟨"S_LF1'", [["ε"], ["ε"], ["ε"]]⟩,
          ⟨"S_LF2", [["S"], ["ε"]]⟩, ⟨"S_LF1", [["y"]]⟩] := by
  have hbuilt : takingTurns.Built := .ofRules _
  obtain ⟨h, rules, written, hfactored, hrules, hwritten, hreplaced, -, -⟩ := Built.leftFactored_shape hbuilt
  have hread : (takingTurns.leftFactored >>= Grammar.rules) = .ok
      [⟨"S", [["x", "b", "S_LF1'"], ["y", "S_LF2"], ["z"]]⟩, ⟨"S_LF1'", [["ε"], ["ε"], ["ε"]]⟩,
        ⟨"S_LF2", [["S"], ["ε"]]⟩, ⟨"S_LF1", [["y"]]⟩] := by decide
  rw [hfactored] at hread
  obtain rfl := Except.ok.inj (hwritten.symm.trans hread)
  exact ⟨hbuilt, h, rules, hfactored, hrules, hreplaced⟩

end Grammar

end PredictiveGrammar
