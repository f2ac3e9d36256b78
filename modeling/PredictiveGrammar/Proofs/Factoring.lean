import PredictiveGrammar.Proofs.FreshNames
import PredictiveGrammar.Proofs.Replacement
import PredictiveGrammar.Transform.LeftFactoring

/-!
# What stands in the place of a factored rule

The groups of a rule are taken one by one (`FactoredGroups`): a group of one stays, and a larger one gives way
to its common start before a fresh name, whose rule holds the remainders. The choice of names plays no part
beyond their being fresh (`factorRules_replaced`).
-/

namespace PredictiveGrammar

/-- The alternatives and the fresh rules that groups of alternatives give way to. -/
inductive FactoredGroups : List (List (List String)) → List (List String) → List Rule → Prop
  /-- there are no groups -/
  | nil : FactoredGroups [] [] []
  /-- a group of one stays -/
  | keep (right : List String) {groups : List (List (List String))} {rights : List (List String)}
      {fresh : List Rule} :
      FactoredGroups groups rights fresh → FactoredGroups ([right] :: groups) (right :: rights) fresh
  /-- any other group is factored -/
  | factor (name : String) {group : List (List String)} {groups : List (List (List String))}
      {rights : List (List String)} {fresh : List Rule} :
      group.length ≠ 1 → FactoredGroups groups rights fresh →
      FactoredGroups (group :: groups) ((sharedStart group ++ [name]) :: rights)
        (⟨name, group.map (remainder (sharedStart group))⟩ :: fresh)

/-- What stands in the place of a rule after factoring. -/
def Factored : LocalReplacement := fun rule entry fresh =>
  FactoredGroups ((groupByHead rule.rights).map (·.2)) entry.rights fresh

/-! ## Names -/

/-- The answer for some groups: what they give way to, with distinct and fresh names. -/
structure FreshlyFactored (used : List String) (groups : List (List (List String)))
    (answer : List (List String) × List Rule) : Prop where
  /-- the groups give way to the answer -/
  groups : FactoredGroups groups answer.1 answer.2
  /-- no name is introduced twice -/
  distinct : (answer.2.map Rule.left).Nodup
  /-- no name was used before -/
  fresh : ∀ name ∈ answer.2.map Rule.left, name ∉ used

/-- Factoring one more group with a fresh name. -/
theorem FreshlyFactored.factor {used : List String} {group : List (List String)}
    {groups : List (List (List String))} {name : String} {answer : List (List String) × List Rule}
    (hlength : group.length ≠ 1) (hname : name ∉ used)
    (h : FreshlyFactored (name :: used) groups answer) :
    FreshlyFactored used (group :: groups) ((sharedStart group ++ [name]) :: answer.1,
      ⟨name, group.map (remainder (sharedStart group))⟩ :: answer.2) where
  groups := .factor name hlength h.groups
  distinct := by
    refine List.nodup_cons.mpr ⟨fun hmem => ?_, h.distinct⟩
    exact h.fresh name hmem List.mem_cons_self
  fresh := by
    intro new hmem
    rcases List.mem_cons.mp hmem with rfl | hmem
    · exact hname
    · exact fun hused => h.fresh new hmem (List.mem_cons_of_mem name hused)

/-- **Groups are factored one after the other**, each with a name that is fresh for all before it. -/
theorem factorGroups_freshlyFactored (left : String) (used : List String) (ordinal : Nat)
    (groups : List (List (List String))) :
    FreshlyFactored used groups (factorGroups left used ordinal groups) := by
  induction groups generalizing used ordinal with
  | nil => exact ⟨.nil, List.nodup_nil, fun _ hname => absurd hname List.not_mem_nil⟩
  | cons group groups ih =>
    match group with
    | [right] =>
      have h := ih used ordinal
      exact ⟨.keep right h.groups, h.distinct, h.fresh⟩
    | [] => exact .factor (by simp) (freshName_notMem used _) (ih _ (ordinal + 1))
    | first :: second :: rest =>
      exact .factor (by simp) (freshName_notMem used _) (ih _ (ordinal + 1))

/-- **Factoring replaces rules in place** and captures no name. -/
theorem factorRules_replaced (used : List String) (rules : List Rule) :
    Replaced Factored used rules (factorRules used rules) := by
  induction rules generalizing used with
  | nil => exact .nil used
  | cons rule rules ih =>
    have h := factorGroups_freshlyFactored rule.left used 1 ((groupByHead rule.rights).map (·.2))
    exact .cons h.groups rfl h.distinct h.fresh (ih _)

/-! ## Alternatives -/

theorem commonStart_isPrefix (l m : List String) : commonStart l m <+: l ∧ commonStart l m <+: m := by
  induction l generalizing m with
  | nil => exact ⟨List.nil_prefix, List.nil_prefix⟩
  | cons a l ih =>
    cases m with
    | nil => exact ⟨List.nil_prefix, List.nil_prefix⟩
    | cons b m =>
      by_cases hab : a = b
      · obtain ⟨hl, hm⟩ := ih m
        rw [commonStart, if_pos hab]
        exact ⟨List.cons_prefix_cons.mpr ⟨rfl, hl⟩, List.cons_prefix_cons.mpr ⟨hab, hm⟩⟩
      · rw [commonStart, if_neg hab]
        exact ⟨List.nil_prefix, List.nil_prefix⟩

/-- The common start of several alternatives is a start of each of them. -/
theorem foldl_commonStart_isPrefix (rights : List (List String)) (start : List String) :
    rights.foldl commonStart start <+: start ∧
      ∀ right ∈ rights, rights.foldl commonStart start <+: right := by
  induction rights generalizing start with
  | nil => exact ⟨List.prefix_refl start, fun _ hright => absurd hright List.not_mem_nil⟩
  | cons right rights ih =>
    obtain ⟨hstart, hrights⟩ := ih (commonStart start right)
    obtain ⟨hl, hr⟩ := commonStart_isPrefix start right
    refine ⟨hstart.trans hl, fun other hother => ?_⟩
    rcases List.mem_cons.mp hother with rfl | hother
    · exact hstart.trans hr
    · exact hrights other hother

/-- Every member of a group begins with the shared start. -/
theorem sharedStart_isPrefix {group : List (List String)} {right : List String} (h : right ∈ group) :
    sharedStart group <+: right := by
  cases group with
  | nil => cases h
  | cons first rights =>
    obtain ⟨hfirst, hrights⟩ := foldl_commonStart_isPrefix rights first
    rcases List.mem_cons.mp h with rfl | h
    · exact hfirst
    · exact hrights right h

/-- The remainder is what is behind the start, or `ε` if nothing is. -/
theorem remainder_append (start rest : List String) : remainder start (start ++ rest) = spelled rest := by
  simp [remainder, spelled]

/-- So it is never empty. -/
theorem remainder_ne_nil {start right : List String} (h : start <+: right) :
    remainder start right ≠ [] := by
  rw [remainder]
  split
  · exact List.cons_ne_nil _ _
  · next hne =>
    have hle := h.length_le
    rw [ne_eq, List.drop_eq_nil_iff]
    omega

/-- Adding to a group loses no alternative and adds no other. -/
theorem mem_addToGroup {symbol : String} {right other : List String}
    {groups : List (String × List (List String))} :
    (∃ e ∈ addToGroup symbol right groups, other ∈ e.2) ↔ other = right ∨ ∃ e ∈ groups, other ∈ e.2 := by
  induction groups with
  | nil => simp [addToGroup]
  | cons e groups ih =>
    obtain ⟨symbol', group⟩ := e
    by_cases hsymbol : symbol' = symbol
    · simp only [addToGroup, if_pos hsymbol, List.exists_mem_cons_iff, List.mem_append,
        List.mem_singleton]
      rw [or_assoc, or_left_comm]
    · simp only [addToGroup, if_neg hsymbol, List.exists_mem_cons_iff, ih]
      exact or_left_comm

/-- Any step that leaves out alternatives without symbols and groups the others by their first symbols puts all
the others into groups. -/
theorem mem_foldl_groups {step : List (String × List (List String)) → List String →
      List (String × List (List String))} (hnil : ∀ groups, step groups [] = groups)
    (hcons : ∀ groups symbol rest, step groups (symbol :: rest) = addToGroup symbol (symbol :: rest) groups)
    {rights : List (List String)} {groups : List (String × List (List String))} {right : List String} :
    (∃ e ∈ rights.foldl step groups, right ∈ e.2) ↔
      (∃ e ∈ groups, right ∈ e.2) ∨ right ∈ rights ∧ right ≠ [] := by
  induction rights generalizing groups with
  | nil => simp
  | cons first rights ih =>
    cases first with
    | nil =>
      rw [List.foldl_cons, ih, hnil, List.mem_cons, or_and_right]
      simp
    | cons symbol rest =>
      rw [List.foldl_cons, ih, hcons, mem_addToGroup, List.mem_cons, or_and_right]
      have hright : right = symbol :: rest ∧ right ≠ [] ↔ right = symbol :: rest :=
        and_iff_left_of_imp fun h => h ▸ List.cons_ne_nil symbol rest
      rw [hright, or_assoc, or_left_comm]

/-- The groups hold the alternatives that have symbols. -/
theorem mem_groupByHead {rights : List (List String)} {right : List String} :
    (∃ e ∈ groupByHead rights, right ∈ e.2) ↔ right ∈ rights ∧ right ≠ [] := by
  rw [groupByHead, mem_foldl_groups (fun _ => rfl) (fun _ _ _ => rfl)]
  exact or_iff_right (by simp)

/-- Factoring makes no empty alternative. -/
theorem FactoredGroups.inhabited {groups : List (List (List String))} {rights : List (List String)}
    {fresh : List Rule} (h : FactoredGroups groups rights fresh)
    (hgroups : ∀ group ∈ groups, ∀ right ∈ group, right ≠ []) :
    (∀ right ∈ rights, right ≠ []) ∧ ∀ new ∈ fresh, ∀ right ∈ new.rights, right ≠ [] := by
  induction h with
  | nil => exact ⟨fun _ h => absurd h List.not_mem_nil, fun _ h => absurd h List.not_mem_nil⟩
  | keep right _ ih =>
    obtain ⟨hrights, hfresh⟩ := ih fun group hgroup => hgroups group (List.mem_cons_of_mem _ hgroup)
    refine ⟨fun other hother => ?_, hfresh⟩
    rcases List.mem_cons.mp hother with rfl | hother
    · exact hgroups _ List.mem_cons_self _ List.mem_cons_self
    · exact hrights other hother
  | factor name _ _ ih =>
    obtain ⟨hrights, hfresh⟩ := ih fun group hgroup => hgroups group (List.mem_cons_of_mem _ hgroup)
    refine ⟨?_, ?_⟩
    -- the alternative with the fresh name
    · intro other hother
      rcases List.mem_cons.mp hother with rfl | hother
      · exact List.append_ne_nil_of_right_ne_nil _ (List.cons_ne_nil _ _)
      · exact hrights other hother
    -- what is left of the members of the group
    · intro new hnew right hright
      rcases List.mem_cons.mp hnew with rfl | hnew
      · obtain ⟨member, hmember, rfl⟩ := List.mem_map.mp hright
        exact remainder_ne_nil (sharedStart_isPrefix hmember)
      · exact hfresh new hnew right hright

/-- Factoring leaves no alternative without symbols. -/
theorem Factored.inhabited {rule entry : Rule} {fresh : List Rule} (h : Factored rule entry fresh) :
    ∀ new ∈ entry :: fresh, ∀ right ∈ new.rights, right ≠ [] := by
  have hgroups : ∀ group ∈ (groupByHead rule.rights).map (·.2), ∀ right ∈ group, right ≠ [] := by
    intro group hgroup right hright
    obtain ⟨e, he, rfl⟩ := List.mem_map.mp hgroup
    exact (mem_groupByHead.mp ⟨e, he, hright⟩).2
  obtain ⟨hentry, hfresh⟩ := FactoredGroups.inhabited h hgroups
  intro new hnew
  rcases List.mem_cons.mp hnew with rfl | hnew
  · exact hentry
  · exact hfresh new hnew

end PredictiveGrammar
