import PredictiveGrammar.Proofs.TidyRules
import PredictiveGrammar.Transform.Basic

/-!
# Replacing rules in place

Both transformations go through the rules and put in the place of each a rule for the same left side and,
behind it, rules for fresh names (`Replaced`). Which rules those are is a matter of the single rule and the
chosen names, which is the parameter `Local`; that no name is captured is a matter of the run as a whole, and
is shown here once for both. The result of a replacement of tidy rules is tidy (`Replaced.tidy`), so a left
side tells which rule a name comes from.
-/

namespace PredictiveGrammar

/-- What may stand in the place of a rule: a rule for the same left side and the rules for fresh names. -/
abbrev LocalReplacement := Rule → Rule → List Rule → Prop

/-- Every rule is replaced in its place. Names are fresh if they are neither in `used` nor introduced
before. -/
inductive Replaced (Local : LocalReplacement) : List String → List Rule → List Rule → Prop
  /-- nothing is left to replace -/
  | nil (used : List String) : Replaced Local used [] []
  /-- the first rule is replaced, and its fresh names are used from there on -/
  | cons {used : List String} {rule entry : Rule} {fresh rules rules' : List Rule} :
      Local rule entry fresh → entry.left = rule.left → (fresh.map Rule.left).Nodup →
      (∀ name ∈ fresh.map Rule.left, name ∉ used) →
      Replaced Local (fresh.map Rule.left ++ used) rules rules' →
      Replaced Local used (rule :: rules) (entry :: fresh ++ rules')

/-- A rule of the source, what stands in its place in `rules'`, and that its fresh names are not in `used`. -/
structure StandsFor (Local : LocalReplacement) (used : List String) (rules' : List Rule)
    (rule entry : Rule) (fresh : List Rule) : Prop where
  /-- the replacement is allowed -/
  replacement : Local rule entry fresh
  /-- the left side stays -/
  left : entry.left = rule.left
  /-- the fresh names are not used elsewhere -/
  unused : ∀ name ∈ fresh.map Rule.left, name ∉ used
  /-- all of it is there -/
  subset : entry :: fresh ⊆ rules'

/-- The name stands in an alternative of the rule. -/
def Rule.Mentions (rule : Rule) (name : String) : Prop := ∃ right ∈ rule.rights, name ∈ right

/-- Which used name a name is there for: itself if it is used, and the left side that mentions it if it is fresh. -/
inductive Owner (used : List String) (rules' : List Rule) : String → String → Prop
  /-- a used name -/
  | self {name : String} : name ∈ used → Owner used rules' name name
  /-- a fresh name -/
  | fresh {name : String} {entry : Rule} : name ∉ used → entry ∈ rules' → entry.left ∈ used →
      entry.Mentions name → Owner used rules' entry.left name

namespace Replaced

variable {Local : LocalReplacement} {used : List String} {rules rules' : List Rule}

/-! ## Where rules come from and go to -/

/-- What stands in the place of a rule is part of the result. -/
theorem exists_of_mem (h : Replaced Local used rules rules') {rule : Rule} (hrule : rule ∈ rules) :
    ∃ entry fresh, StandsFor Local used rules' rule entry fresh := by
  induction h with
  | nil => cases hrule
  | @cons used first entry fresh rules rules' hlocal hleft hnodup hnew h ih =>
    rcases List.mem_cons.mp hrule with rfl | hrule
    · exact ⟨entry, fresh, hlocal, hleft, hnew, List.subset_append_left _ _⟩
    · obtain ⟨entry', fresh', hstands⟩ := ih hrule
      refine ⟨entry', fresh', hstands.replacement, hstands.left, fun name hname hused => ?_, ?_⟩
      · exact hstands.unused name hname (List.mem_append_right _ hused)
      · exact List.Subset.trans hstands.subset (List.subset_append_right _ _)

/-- Every rule of the result stands in the place of a rule. -/
theorem exists_of_mem_result (h : Replaced Local used rules rules') {new : Rule} (hnew : new ∈ rules') :
    ∃ rule ∈ rules, ∃ entry fresh, StandsFor Local used rules' rule entry fresh ∧
      (new = entry ∨ new ∈ fresh) := by
  induction h with
  | nil => cases hnew
  | @cons used first entry fresh rules rules' hlocal hleft hnodup hfresh h ih =>
    rcases List.mem_append.mp hnew with hnew | hnew
    · exact ⟨first, List.mem_cons_self, entry, fresh,
        ⟨hlocal, hleft, hfresh, List.subset_append_left _ _⟩, List.mem_cons.mp hnew⟩
    · obtain ⟨rule, hrule, entry', fresh', hstands, horigin⟩ := ih hnew
      refine ⟨rule, List.mem_cons_of_mem first hrule, entry', fresh',
        ⟨hstands.replacement, hstands.left, fun name hname hused => ?_, ?_⟩, horigin⟩
      · exact hstands.unused name hname (List.mem_append_right _ hused)
      · exact List.Subset.trans hstands.subset (List.subset_append_right _ _)

/-- A rule of the result with a used name stands in the place of the rule for that name. -/
theorem exists_of_left_mem (h : Replaced Local used rules rules') {new : Rule} (hnew : new ∈ rules')
    (hleft : new.left ∈ used) : ∃ rule ∈ rules, ∃ fresh, StandsFor Local used rules' rule new fresh := by
  obtain ⟨rule, hrule, entry, fresh, hstands, rfl | horigin⟩ := h.exists_of_mem_result hnew
  · exact ⟨rule, hrule, fresh, hstands⟩
  · exact absurd hleft (hstands.unused _ (List.mem_map_of_mem horigin))

/-- What the single replacements imply, given that their names are fresh, holds of them all. -/
theorem imp {Local' : LocalReplacement} (h : Replaced Local used rules rules')
    (himp : ∀ rule ∈ rules, ∀ entry fresh, Local rule entry fresh → (fresh.map Rule.left).Nodup →
      (∀ name ∈ fresh.map Rule.left, name ∉ used) → Local' rule entry fresh) : Replaced Local' used rules rules' := by
  induction h with
  | nil => exact .nil _
  | cons hlocal hleft hnodup hfresh _ ih =>
    obtain ⟨hfirst, himp⟩ := List.forall_mem_cons.mp himp
    refine .cons (hfirst _ _ hlocal hnodup hfresh) hleft hnodup hfresh
      (ih fun rule hrule entry fresh h hnodup' hnew => ?_)
    exact himp rule hrule entry fresh h hnodup' fun name hname hused =>
      hnew name hname (List.mem_append_right _ hused)

/-! ## Left sides -/

theorem left_mem (h : Replaced Local used rules rules') {name : String}
    (hname : name ∈ rules.map Rule.left) : name ∈ rules'.map Rule.left := by
  obtain ⟨rule, hrule, rfl⟩ := List.mem_map.mp hname
  obtain ⟨entry, fresh, hstands⟩ := h.exists_of_mem hrule
  exact hstands.left ▸ List.mem_map_of_mem (hstands.subset List.mem_cons_self)

/-- A left side of the result is an old one or a fresh name. -/
theorem left_mem_or_fresh (h : Replaced Local used rules rules') {name : String}
    (hname : name ∈ rules'.map Rule.left) : name ∈ rules.map Rule.left ∨ name ∉ used := by
  obtain ⟨new, hnew, rfl⟩ := List.mem_map.mp hname
  obtain ⟨rule, hrule, entry, fresh, hstands, rfl | horigin⟩ := h.exists_of_mem_result hnew
  · exact Or.inl (hstands.left ▸ List.mem_map_of_mem hrule)
  · exact Or.inr (hstands.unused _ (List.mem_map_of_mem horigin))

/-- The left sides of the result are the old ones and those that are not used. -/
theorem mem_lefts_iff (h : Replaced Local used rules rules') {name : String} :
    name ∈ rules'.map Rule.left ↔
      name ∈ rules.map Rule.left ∨ name ∈ (rules'.filter fun rule => rule.left ∉ used).map Rule.left := by
  refine ⟨fun hname => ?_, ?_⟩
  · obtain ⟨new, hnew, rfl⟩ := List.mem_map.mp hname
    refine (h.left_mem_or_fresh hname).imp_right fun hfresh => ?_
    exact List.mem_map_of_mem (List.mem_filter.mpr ⟨hnew, decide_eq_true hfresh⟩)
  · rintro (hname | hname)
    · exact h.left_mem hname
    · obtain ⟨new, hnew, rfl⟩ := List.mem_map.mp hname
      exact List.mem_map_of_mem (List.mem_of_mem_filter hnew)

/-- No left side stands twice in the result. -/
theorem nodup_lefts (h : Replaced Local used rules rules') (hnodup : (rules.map Rule.left).Nodup)
    (hused : ∀ name ∈ rules.map Rule.left, name ∈ used) : (rules'.map Rule.left).Nodup := by
  induction h with
  | nil => exact List.nodup_nil
  | @cons used first entry fresh rules rules' hlocal hleft hfreshNodup hfresh h ih =>
    rw [List.map_cons, List.nodup_cons] at hnodup
    have hfirst : first.left ∈ used := hused _ List.mem_cons_self
    have hrest : ∀ name ∈ rules.map Rule.left, name ∈ used := fun name hname =>
      hused name (List.mem_cons_of_mem _ hname)
    have hnodup' := ih hnodup.2 fun name hname => List.mem_append_right _ (hrest name hname)
    rw [List.map_append, List.map_cons, hleft, List.cons_append, List.nodup_cons, List.mem_append]
    refine ⟨?_, ?_⟩
    -- the left side of the first rule is no fresh name, and none of the later ones
    · rintro (hmem | hmem)
      · exact hfresh _ hmem hfirst
      · rcases h.left_mem_or_fresh hmem with hmem | hmem
        · exact hnodup.1 hmem
        · exact hmem (List.mem_append_right _ hfirst)
    -- the fresh names are none of the later left sides
    · refine List.nodup_append.mpr ⟨hfreshNodup, hnodup', ?_⟩
      rintro name hname _ hname' rfl
      rcases h.left_mem_or_fresh hname' with hmem | hmem
      · exact hfresh name hname (hrest name hmem)
      · exact hmem (List.mem_append_left _ hname)

/-- No reserved name becomes a left side. -/
theorem unreserved (h : Replaced Local used rules rules') (hrules : ∀ rule ∈ rules, rule.left ∉ reserved)
    (hreserved : ∀ name ∈ reserved, name ∈ used) : ∀ new ∈ rules', new.left ∉ reserved := by
  intro new hnew hmem
  rcases h.left_mem_or_fresh (List.mem_map_of_mem hnew) with hleft | hleft
  · obtain ⟨rule, hrule, heq⟩ := List.mem_map.mp hleft
    exact hrules rule hrule (heq ▸ hmem)
  · exact hleft (hreserved _ hmem)

/-- **Replacement keeps rules tidy** if the single replacements have symbols in every alternative. -/
theorem tidy (h : Replaced Local used rules rules') (hr : Tidy rules)
    (hused : ∀ name ∈ rules.map Rule.left, name ∈ used) (hreserved : ∀ name ∈ reserved, name ∈ used)
    (hlocal : ∀ rule entry fresh, Local rule entry fresh → (∀ right ∈ rule.rights, right ≠ []) →
      ∀ new ∈ entry :: fresh, ∀ right ∈ new.rights, right ≠ []) : Tidy rules' where
  distinct := h.nodup_lefts hr.distinct hused
  unreserved := h.unreserved hr.unreserved hreserved
  inhabited := by
    intro new hnew
    obtain ⟨rule, hrule, entry, fresh, hstands, horigin⟩ := h.exists_of_mem_result hnew
    exact hlocal rule entry fresh hstands.replacement (hr.inhabited rule hrule) new
      (List.mem_cons.mpr horigin)

/-- **A fresh name is mentioned in the place of one rule only**, if single replacements mention used names and their
own fresh names. -/
theorem entry_ext (h : Replaced Local used rules rules')
    (hlocal : ∀ rule ∈ rules, ∀ entry fresh, Local rule entry fresh →
      ∀ name, entry.Mentions name → name ∈ used ∨ name ∈ fresh.map Rule.left)
    {entry entry' : Rule} (hentry : entry ∈ rules') (hentry' : entry' ∈ rules') (hleft : entry.left ∈ used)
    (hleft' : entry'.left ∈ used) {name : String} (hname : name ∉ used) (hmentions : entry.Mentions name)
    (hmentions' : entry'.Mentions name) : entry = entry' := by
  induction h with
  | nil => cases hentry
  | @cons used first new fresh rules rules' hfirst _ _ hfresh h ih =>
    obtain ⟨hlocalFirst, hlocal⟩ := List.forall_mem_cons.mp hlocal
    have hold : ∀ e ∈ new :: fresh ++ rules', e.left ∈ used → e = new ∨ e ∈ rules' := by
      intro e he hleft
      rcases List.mem_append.mp he with he | he
      · exact Or.inl ((List.mem_cons.mp he).resolve_right fun he => hfresh _ (List.mem_map_of_mem he) hleft)
      · exact Or.inr he
    -- the later rules do not mention the names of the first one
    have hlater : ∀ e ∈ rules', e.left ∈ used → e.Mentions name → name ∉ fresh.map Rule.left := by
      intro e he hleft hmention hmem
      obtain ⟨rule, hrule, fresh', hstands⟩ := h.exists_of_left_mem he (List.mem_append_right _ hleft)
      rcases hlocal rule hrule e fresh' hstands.replacement name hmention with hmem' | hmem'
      · exact hname hmem'
      · exact hstands.unused name hmem' (List.mem_append_left _ hmem)
    rcases hold entry hentry hleft, hold entry' hentry' hleft' with ⟨rfl | hrest, rfl | hrest'⟩
    · rfl
    · have hmem := (hlocalFirst _ _ hfirst name hmentions).resolve_left hname
      exact absurd hmem (hlater entry' hrest' hleft' hmentions')
    · have hmem := (hlocalFirst _ _ hfirst name hmentions').resolve_left hname
      exact absurd hmem (hlater entry hrest hleft hmentions)
    · refine ih (fun rule hrule e fresh' hreplaced n hmention => ?_) hrest hrest' (List.mem_append_right _ hleft)
        (List.mem_append_right _ hleft') ?_
      · exact (hlocal rule hrule e fresh' hreplaced n hmention).imp_left (List.mem_append_right _)
      · rw [List.mem_append, not_or]
        exact ⟨hlater entry hrest hleft hmentions, hname⟩

/-- Names have one owner. -/
theorem owner_ext (h : Replaced Local used rules rules')
    (hlocal : ∀ rule ∈ rules, ∀ entry fresh, Local rule entry fresh →
      ∀ name, entry.Mentions name → name ∈ used ∨ name ∈ fresh.map Rule.left)
    {name owner owner' : String} (howner : Owner used rules' owner name) (howner' : Owner used rules' owner' name) :
    owner = owner' := by
  cases howner with
  | self hused =>
    cases howner' with
    | self => rfl
    | fresh hfresh => exact absurd hused hfresh
  | fresh hfresh hentry hleft hmentions =>
    cases howner' with
    | self hused => exact absurd hused hfresh
    | fresh _ hentry' hleft' hmentions' =>
      exact congrArg Rule.left (h.entry_ext hlocal hentry hentry' hleft hleft' hfresh hmentions hmentions')

end Replaced

end PredictiveGrammar
