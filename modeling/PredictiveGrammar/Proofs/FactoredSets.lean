import PredictiveGrammar.Proofs.Groups
import PredictiveGrammar.Proofs.LeftFactoringWords
import PredictiveGrammar.Proofs.NamedSets

/-!
# Left factoring keeps FIRST and FOLLOW

A fresh name starts with what the remainders of its group start with, so next to the rules they came from the factored
rules change no FIRST set (`Factoring.startsWith_iff`). It stands at the end of one alternative, so it is followed by
what follows the left side of that alternative, and what stands behind a symbol in an alternative stands behind it after
factoring too, in front of the fresh name or in one of its remainders (`Factoring.followedBy_iff`).
-/

namespace PredictiveGrammar

/-- Rules and their factored form, where the names of the rules are in `used`. -/
structure Factoring (used : List String) (rules rules' : List Rule) : Prop where
  /-- every rule is factored in its place -/
  replaced : Replaced Factored used rules rules'
  /-- the rules are tidy -/
  tidy : Tidy rules
  /-- so are the factored ones -/
  tidy' : Tidy rules'
  /-- left sides are used names -/
  left_mem : ∀ rule ∈ rules, rule.left ∈ used
  /-- alternatives hold used names only -/
  right_mem : ∀ rule ∈ rules, ∀ right ∈ rule.rights, ∀ name ∈ right, name ∈ used

/-- A group of alternatives of a rule that share a start, and the fresh rule that holds what is left of them. -/
structure SplitOff (used : List String) (rules rules' : List Rule) (rule : Rule) (group : List (List String))
    (new : Rule) : Prop where
  /-- the rule is there -/
  rule_mem : rule ∈ rules
  /-- the alternatives are one of its groups -/
  group_mem : group ∈ (groupByHead rule.rights).map (·.2)
  /-- the fresh rule is there -/
  new_mem : new ∈ rules'
  /-- its name is fresh -/
  unused : new.left ∉ used
  /-- it holds what is left -/
  rights : new.rights = group.map (remainder (sharedStart group))
  /-- the start before the fresh name is an alternative -/
  entry : ∃ entry ∈ rules', entry.left = rule.left ∧ sharedStart group ++ [new.left] ∈ entry.rights

/-- The rules before, and those of the rules behind that are for names not in use. -/
def withFresh (used : List String) (rules rules' : List Rule) : List Rule :=
  rules ++ rules'.filter fun rule => rule.left ∉ used

variable {used : List String} {rules rules' : List Rule} {rule new entry : Rule} {group : List (List String)}
  {s right before rest : List String} {start : Option String} {name owner a : String}

theorem mem_withFresh : rule ∈ withFresh used rules rules' ↔ rule ∈ rules ∨ rule ∈ rules' ∧ rule.left ∉ used := by
  simp [withFresh]

/-! ## Groups that are split off -/

/-- A fresh rule holds the remainders of a group, and its name stands behind the start of the group. -/
theorem FactoredGroups.exists_split_of_mem_fresh {groups : List (List (List String))} {rights : List (List String)}
    {fresh : List Rule} (h : FactoredGroups groups rights fresh) (hnew : new ∈ fresh) :
    ∃ group ∈ groups, new.rights = group.map (remainder (sharedStart group)) ∧
      sharedStart group ++ [new.left] ∈ rights := by
  induction h with
  | nil => cases hnew
  | keep _ _ ih =>
    obtain ⟨group, hgroup, heq, hmem⟩ := ih hnew
    exact ⟨group, List.mem_cons_of_mem _ hgroup, heq, List.mem_cons_of_mem _ hmem⟩
  | @factor name group _ _ _ _ _ ih =>
    cases hnew with
    | head => exact ⟨group, List.mem_cons_self, rfl, List.mem_cons_self⟩
    | tail _ hnew =>
      obtain ⟨group', hgroup, heq, hmem⟩ := ih hnew
      exact ⟨group', List.mem_cons_of_mem _ hgroup, heq, List.mem_cons_of_mem _ hmem⟩

namespace SplitOff

variable (hsplit : SplitOff used rules rules' rule group new)
include hsplit

theorem mem_rights (hright : right ∈ group) : right ∈ rule.rights :=
  mem_rights_of_mem_group hsplit.group_mem hright

/-- A member of the group is the shared start before something whose spelling the fresh rule has. -/
theorem exists_rest (hright : right ∈ group) :
    ∃ rest, right = sharedStart group ++ rest ∧ spelled rest ∈ new.rights := by
  obtain ⟨rest, rfl⟩ := sharedStart_isPrefix hright
  refine ⟨rest, rfl, ?_⟩
  rw [hsplit.rights, ← remainder_append (sharedStart group)]
  exact List.mem_map_of_mem hright

/-- An alternative of the fresh rule spells what stands behind the shared start in a member of the group. -/
theorem exists_member (hright : right ∈ new.rights) :
    ∃ rest, right = spelled rest ∧ sharedStart group ++ rest ∈ group := by
  rw [hsplit.rights] at hright
  obtain ⟨member, hmember, rfl⟩ := List.mem_map.mp hright
  obtain ⟨rest, rfl⟩ := sharedStart_isPrefix hmember
  exact ⟨rest, remainder_append _ _, hmember⟩

theorem rights_ne_nil : new.rights ≠ [] := by
  rw [hsplit.rights, ne_eq, List.map_eq_nil_iff]
  exact ne_nil_of_mem_groups hsplit.group_mem

/-- **The fresh name at the end stands for any member** behind the shared start. -/
theorem startsWith_iff {all : List Rule} (hall : Tidy all) (hnew : new ∈ all) :
    StartsWith all (s ++ [new.left]) a ↔
      ∃ rest, sharedStart group ++ rest ∈ group ∧ StartsWith all (s ++ rest) a := by
  rw [hall.startsWith_append_left hnew hsplit.rights_ne_nil]
  refine ⟨?_, ?_⟩
  · rintro ⟨right, hright, h⟩
    obtain ⟨rest, rfl, hmem⟩ := hsplit.exists_member hright
    exact ⟨rest, hmem, (startsWith_append_spelled hall.epsilon_notMem).mp h⟩
  · rintro ⟨rest, hmem, h⟩
    obtain ⟨rest', heq, hright⟩ := hsplit.exists_rest hmem
    obtain rfl := List.append_cancel_left heq
    exact ⟨spelled rest, hright, (startsWith_append_spelled hall.epsilon_notMem).mpr h⟩

theorem mem_used_of_mem_sharedStart (hright : ∀ rule ∈ rules, ∀ right ∈ rule.rights, ∀ n ∈ right, n ∈ used) :
    ∀ n ∈ sharedStart group, n ∈ used := by
  intro n hn
  obtain ⟨member, hmember, hn⟩ := exists_of_mem_sharedStart hn
  exact hright rule hsplit.rule_mem member (hsplit.mem_rights hmember) n hn

end SplitOff

/-- What factoring leaves in the place of a rule mentions its names and fresh ones. -/
theorem Factored.mentions {fresh : List Rule} (h : Factored rule entry fresh) (hname : entry.Mentions name) :
    rule.Mentions name ∨ name ∈ fresh.map Rule.left := by
  obtain ⟨right, hright, hname⟩ := hname
  obtain ⟨group, hgroup, hmem | ⟨-, other, rfl, hnew⟩⟩ := FactoredGroups.exists_of_mem_rights h hright
  · exact Or.inl ⟨right, mem_rights_of_mem_group hgroup hmem, hname⟩
  · rcases List.mem_append.mp hname with hname | hname
    · obtain ⟨member, hmember, hname⟩ := exists_of_mem_sharedStart hname
      exact Or.inl ⟨member, mem_rights_of_mem_group hgroup hmember, hname⟩
    · obtain rfl := List.mem_singleton.mp hname
      exact Or.inr (List.mem_map_of_mem hnew)

namespace Factoring

variable (hF : Factoring used rules rules')
include hF

/-! ## Where alternatives go to and come from -/

/-- An alternative stays, or its group is split off. -/
theorem exists_entry (hrule : rule ∈ rules) : ∃ entry ∈ rules', entry.left = rule.left ∧
    ∀ right ∈ rule.rights, right ∈ entry.rights ∨ ∃ group new, right ∈ group ∧
      SplitOff used rules rules' rule group new ∧ sharedStart group ++ [new.left] ∈ entry.rights := by
  obtain ⟨entry, fresh, hstands⟩ := hF.replaced.exists_of_mem hrule
  have hentry := hstands.subset List.mem_cons_self
  refine ⟨entry, hentry, hstands.left, fun right hright => ?_⟩
  obtain ⟨group, hgroup, hmem⟩ := exists_group_of_mem_rights hright (hF.tidy.inhabited rule hrule right hright)
  refine (hstands.replacement.mem_or_factored hgroup hmem).imp_right ?_
  rintro ⟨name, hname, hnew⟩
  exact ⟨group, _, hmem, ⟨hrule, hgroup, hstands.subset (List.mem_cons_of_mem _ hnew),
    hstands.unused _ (List.mem_map_of_mem hnew), rfl, entry, hentry, hstands.left, hname⟩, hname⟩

/-- An alternative of a used name was there, or it is the start of a group that is split off. -/
theorem exists_rule_of_entry (hentry : entry ∈ rules') (hleft : entry.left ∈ used) :
    ∃ rule ∈ rules, rule.left = entry.left ∧ ∀ right ∈ entry.rights, right ∈ rule.rights ∨
      ∃ group new, SplitOff used rules rules' rule group new ∧ right = sharedStart group ++ [new.left] := by
  obtain ⟨rule, hrule, fresh, hstands⟩ := hF.replaced.exists_of_left_mem hentry hleft
  refine ⟨rule, hrule, hstands.left.symm, fun right hright => ?_⟩
  obtain ⟨group, hgroup, hmem | ⟨-, name, rfl, hnew⟩⟩ := hstands.replacement.exists_of_mem_rights hright
  · exact Or.inl (mem_rights_of_mem_group hgroup hmem)
  · exact Or.inr ⟨group, _, ⟨hrule, hgroup, hstands.subset (List.mem_cons_of_mem _ hnew),
      hstands.unused _ (List.mem_map_of_mem hnew), rfl, entry, hentry, hstands.left, hright⟩, rfl⟩

/-- A rule with a fresh name was split off. -/
theorem exists_split (hnew : new ∈ rules') (hleft : new.left ∉ used) :
    ∃ rule group, SplitOff used rules rules' rule group new := by
  obtain ⟨rule, hrule, entry, fresh, hstands, horigin⟩ := hF.replaced.exists_of_mem_result hnew
  cases horigin with
  | inl hentry =>
    subst hentry
    exact absurd (hstands.left ▸ hF.left_mem rule hrule) hleft
  | inr hfresh =>
    obtain ⟨group, hgroup, heq, hname⟩ := hstands.replacement.exists_split_of_mem_fresh hfresh
    exact ⟨rule, group, hrule, hgroup, hnew, hleft, heq, entry, hstands.subset List.mem_cons_self, hstands.left, hname⟩

theorem mem_used_of_split (hsplit : SplitOff used rules rules' rule group new)
    (hmem : sharedStart group ++ rest ∈ group) : ∀ n ∈ rest, n ∈ used := fun n hn =>
  hF.right_mem rule hsplit.rule_mem _ (hsplit.mem_rights hmem) n (List.mem_append_right _ hn)

/-! ## FIRST -/

theorem tidy_withFresh : Tidy (withFresh used rules rules') := by
  refine hF.tidy.append (hF.tidy'.filter _) fun new hnew hleft => ?_
  obtain ⟨rule, hrule, heq⟩ := List.mem_map.mp hleft
  exact of_decide_eq_true (List.mem_filter.mp hnew).2 (heq ▸ hF.left_mem rule hrule)

theorem mem_lefts_withFresh :
    name ∈ (withFresh used rules rules').map Rule.left ↔ name ∈ rules'.map Rule.left := by
  rw [withFresh, List.map_append, List.mem_append]
  exact hF.replaced.mem_lefts_iff.symm

/-- **Factored rules start with the same** as the rules before factoring together with the fresh ones. -/
theorem startsWith_withFresh_iff : StartsWith (withFresh used rules rules') s a ↔ StartsWith rules' s a := by
  refine ⟨.transfer (fun _ => hF.mem_lefts_withFresh.mpr) ?_, .transfer (fun _ => hF.mem_lefts_withFresh.mp) ?_⟩
  -- an old alternative is kept, or is in a group whose fresh rule starts with what is left of it
  · intro rule hrule right hright a h
    rcases mem_withFresh.mp hrule with hrule | ⟨hnew, -⟩
    · obtain ⟨entry, hentry, hleft, hrights⟩ := hF.exists_entry hrule
      rw [← hleft]
      rcases hrights right hright with hkept | ⟨group, new, hmem, hsplit, hname⟩
      · exact .single hentry hkept h
      · obtain ⟨rest, rfl, -⟩ := hsplit.exists_rest hmem
        exact .single hentry hname ((hsplit.startsWith_iff hF.tidy' hsplit.new_mem).mpr ⟨rest, hmem, h⟩)
    · exact .single hnew hright h
  -- a factored alternative was one before, or goes on with the fresh rule of a group
  · intro entry hentry right hright a h
    by_cases hleft : entry.left ∈ used
    · obtain ⟨rule, hrule, heq, hrights⟩ := hF.exists_rule_of_entry hentry hleft
      rw [← heq]
      have hmem : rule ∈ withFresh used rules rules' := mem_withFresh.mpr (Or.inl hrule)
      rcases hrights right hright with hkept | ⟨group, new, hsplit, rfl⟩
      · exact .single hmem hkept h
      · have hnew : new ∈ withFresh used rules rules' := mem_withFresh.mpr (Or.inr ⟨hsplit.new_mem, hsplit.unused⟩)
        obtain ⟨rest, hgroup, h⟩ := (hsplit.startsWith_iff hF.tidy_withFresh hnew).mp h
        exact .single hmem (hsplit.mem_rights hgroup) h
    · exact .single (mem_withFresh.mpr (Or.inr ⟨hentry, hleft⟩)) hright h

/-- **Factoring keeps what used names start with.** -/
theorem startsWith_iff (hs : ∀ n ∈ s, n ∈ used) : StartsWith rules' s a ↔ StartsWith rules s a := by
  rw [← hF.startsWith_withFresh_iff, withFresh]
  refine startsWith_append_rules hF.right_mem (fun new hnew => ?_) hs
  exact of_decide_eq_true (List.mem_filter.mp hnew).2

/-- What used names before a fresh one start with, they start with before a member of its group. -/
theorem startsWith_split_iff (hsplit : SplitOff used rules rules' rule group new) (hs : ∀ n ∈ s, n ∈ used) :
    StartsWith rules' (s ++ [new.left]) a ↔
      ∃ rest, sharedStart group ++ rest ∈ group ∧ StartsWith rules (s ++ rest) a := by
  rw [hsplit.startsWith_iff hF.tidy' hsplit.new_mem]
  refine exists_congr fun rest => and_congr_right fun hmem => ?_
  exact hF.startsWith_iff (List.forall_mem_append.mpr ⟨hs, hF.mem_used_of_split hsplit hmem⟩)

/-! ## Owners -/

/-- A name that is mentioned in the place of a rule is used or fresh there. -/
theorem mentions (hrule : rule ∈ rules) {fresh : List Rule} (h : Factored rule entry fresh)
    (hname : entry.Mentions name) : name ∈ used ∨ name ∈ fresh.map Rule.left := by
  refine h.mentions hname |>.imp_left ?_
  rintro ⟨right, hright, hmem⟩
  exact hF.right_mem rule hrule right hright name hmem

theorem owner_ext {owner' : String} (h : Owner used rules' owner name) (h' : Owner used rules' owner' name) :
    owner = owner' :=
  hF.replaced.owner_ext (fun _ hrule _ _ hlocal _ hname => hF.mentions hrule hlocal hname) h h'

theorem owner_split (hsplit : SplitOff used rules rules' rule group new) : Owner used rules' rule.left new.left := by
  obtain ⟨entry, hentry, hleft, hright⟩ := hsplit.entry
  rw [← hleft]
  refine .fresh hsplit.unused hentry (hleft ▸ hF.left_mem rule hsplit.rule_mem) ⟨_, hright, ?_⟩
  exact List.mem_append_right _ List.mem_cons_self

/-- What follows the owner follows the name. -/
theorem followedBy_of_owner (howner : Owner used rules' owner name) (h : FollowedBy rules' start owner a) :
    FollowedBy rules' start name a := by
  cases howner with
  | self => exact h
  | @fresh _ entry hfresh hentry hleft hmentions =>
    obtain ⟨right, hright, hname⟩ := hmentions
    obtain ⟨rule, hrule, -, hrights⟩ := hF.exists_rule_of_entry hentry hleft
    rcases hrights right hright with hkept | ⟨group, new, hsplit, rfl⟩
    · exact absurd (hF.right_mem rule hrule right hkept name hname) hfresh
    · rcases List.mem_append.mp hname with hname | hname
      · exact absurd (hsplit.mem_used_of_mem_sharedStart hF.right_mem name hname) hfresh
      · obtain rfl := List.mem_singleton.mp hname
        exact .outer hentry hright (List.mem_map_of_mem hsplit.new_mem) .nil h

/-! ## FOLLOW -/

/-- **An occurrence in an alternative is one after factoring**, in front of as much, in a rule with the same
follow set. -/
theorem exists_occurrence (hrule : rule ∈ rules) (hright : before ++ name :: rest ∈ rule.rights) :
    ∃ rule' ∈ rules', Owner used rules' rule.left rule'.left ∧ ∃ before' rest',
      before' ++ name :: rest' ∈ rule'.rights ∧ ∀ a, StartsWith rules rest a → StartsWith rules' rest' a := by
  have hused := hF.right_mem rule hrule _ hright
  have hrest : ∀ n ∈ rest, n ∈ used := fun n hn => hused n (List.mem_append_right _ (List.mem_cons_of_mem _ hn))
  obtain ⟨entry, hentry, hleft, hrights⟩ := hF.exists_entry hrule
  have hself : Owner used rules' rule.left entry.left := hleft ▸ .self (hleft ▸ hF.left_mem rule hrule)
  rcases hrights _ hright with hkept | ⟨group, new, hmem, hsplit, hname⟩
  · exact ⟨entry, hentry, hself, before, rest, hkept, fun a => (hF.startsWith_iff hrest).mpr⟩
  obtain ⟨tail, heq, hnew⟩ := hsplit.exists_rest hmem
  rcases append_eq_append_cons heq.symm with ⟨mid, hstart, rfl⟩ | ⟨mid, rfl, rfl⟩
  -- in the shared start, so the fresh name stands behind it
  · have hmid : ∀ n ∈ mid, n ∈ used := fun n hn => hrest n (List.mem_append_left _ hn)
    rw [heq] at hmem
    refine ⟨entry, hentry, hself, before, mid ++ [new.left], ?_, fun a h => ?_⟩
    · rwa [hstart, List.append_assoc] at hname
    · exact (hF.startsWith_split_iff hsplit hmid).mpr ⟨tail, hmem, h⟩
  -- behind it, so in the alternative of the fresh name
  · rw [spelled_of_ne_nil (List.append_ne_nil_of_right_ne_nil mid (List.cons_ne_nil _ _))] at hnew
    exact ⟨new, hsplit.new_mem, hF.owner_split hsplit, mid, rest, hnew, fun a => (hF.startsWith_iff hrest).mpr⟩

/-- **An occurrence after factoring** is a fresh name at the end, or one in an alternative before. -/
theorem exists_occurrence_before {rule' : Rule} (hrule' : rule' ∈ rules')
    (hright : before ++ name :: rest ∈ rule'.rights) (hname : name ∈ rules'.map Rule.left) :
    rest = [] ∧ Owner used rules' rule'.left name ∧ rule'.left ∈ used ∨
      name ∈ used ∧ ∃ rule ∈ rules, Owner used rules' rule.left rule'.left ∧ ∀ a, StartsWith rules' rest a →
        ∃ before' rest', before' ++ name :: rest' ∈ rule.rights ∧ StartsWith rules rest' a := by
  by_cases hleft : rule'.left ∈ used
  · obtain ⟨rule, hrule, heq, hrights⟩ := hF.exists_rule_of_entry hrule' hleft
    have hself : Owner used rules' rule.left rule'.left := heq ▸ .self (heq ▸ hleft)
    rcases hrights _ hright with hkept | ⟨group, new, hsplit, hform⟩
    · have hused := hF.right_mem rule hrule _ hkept
      have hrest : ∀ n ∈ rest, n ∈ used := fun n hn => hused n (List.mem_append_right _ (List.mem_cons_of_mem _ hn))
      refine Or.inr ⟨hused name (List.mem_append_right _ List.mem_cons_self), rule, hrule, hself, fun a h => ?_⟩
      exact ⟨before, rest, hkept, (hF.startsWith_iff hrest).mp h⟩
    · have hstart := hsplit.mem_used_of_mem_sharedStart hF.right_mem
      rcases append_eq_append_cons hform.symm with ⟨mid, heq', rfl⟩ | ⟨mid, heq', rfl⟩
      · have hmid : ∀ n ∈ mid, n ∈ used := fun n hn =>
          hstart n (heq' ▸ List.mem_append_right _ (List.mem_cons_of_mem _ hn))
        refine Or.inr ⟨hstart name (heq' ▸ List.mem_append_right _ List.mem_cons_self), rule, hrule, hself,
          fun a h => ?_⟩
        obtain ⟨tail, hmem, h⟩ := (hF.startsWith_split_iff hsplit hmid).mp h
        refine ⟨before, mid ++ tail, ?_, h⟩
        have hmember := hsplit.mem_rights hmem
        rwa [heq', List.append_assoc] at hmember
      · obtain ⟨rfl, htail⟩ := List.append_eq_singleton_iff.mp heq'.symm |>.resolve_right (by simp)
        obtain ⟨rfl, rfl⟩ := List.cons.inj htail
        refine Or.inl ⟨rfl, .fresh hsplit.unused hrule' hleft ⟨_, hright, ?_⟩, hleft⟩
        exact List.mem_append_right _ List.mem_cons_self
  · obtain ⟨rule, group, hsplit⟩ := hF.exists_split hrule' hleft
    obtain ⟨tail, heq, hmem⟩ := hsplit.exists_member hright
    -- `ε` is no left side, so the alternative is what stands behind the shared start
    obtain rfl := eq_of_spelled_eq_append (hF.tidy'.ne_epsilon hname) heq.symm
    have hused := hF.mem_used_of_split hsplit hmem
    have hrest : ∀ n ∈ rest, n ∈ used := fun n hn => hused n (List.mem_append_right _ (List.mem_cons_of_mem _ hn))
    refine Or.inr ⟨hused name (List.mem_append_right _ List.mem_cons_self), rule, hsplit.rule_mem,
      hF.owner_split hsplit, fun a h => ?_⟩
    refine ⟨sharedStart group ++ before, rest, ?_, (hF.startsWith_iff hrest).mp h⟩
    rw [List.append_assoc]
    exact hsplit.mem_rights hmem

theorem followedBy_factored (h : FollowedBy rules start name a) : FollowedBy rules' start name a := by
  induction h with
  | start hstart => exact .start hstart
  | next hrule hright hleft hne hrest =>
    obtain ⟨rule', hrule', -, before', rest', hright', hmore⟩ := hF.exists_occurrence hrule hright
    exact .next hrule' hright' (hF.replaced.left_mem hleft) hne (hmore _ hrest)
  | outer hrule hright hleft h0 _ ih =>
    obtain ⟨rule', hrule', howner, before', rest', hright', hmore⟩ := hF.exists_occurrence hrule hright
    exact .outer hrule' hright' (hF.replaced.left_mem hleft) (hmore _ h0) (hF.followedBy_of_owner howner ih)

/-- What follows a name after factoring followed its owner before. -/
theorem followedBy_owner (hstart : ∀ s ∈ start, s ∈ used) (h : FollowedBy rules' start name a)
    (howner : Owner used rules' owner name) : FollowedBy rules start owner a := by
  induction h generalizing owner with
  | start heq =>
    obtain rfl := hF.owner_ext howner (.self (hstart _ heq))
    exact .start heq
  -- an introduced name is the last of its alternative, so nothing begins behind it
  | next hrule' hright hleft hne hrest =>
    rcases hF.exists_occurrence_before hrule' hright hleft with ⟨rfl, -⟩ | ⟨hused, rule, hrule, -, hback⟩
    · exact absurd hrest.eq_epsilon_of_nil hne
    · obtain rfl := hF.owner_ext howner (.self hused)
      obtain ⟨before', rest', hright', hrest'⟩ := hback _ hrest
      have hold := (hF.replaced.left_mem_or_fresh hleft).resolve_right (not_not_intro hused)
      exact .next hrule hright' hold hne hrest'
  -- what follows an introduced name is what follows the left side it is introduced for
  | outer hrule' hright hleft h0 _ ih =>
    rcases hF.exists_occurrence_before hrule' hright hleft with
      ⟨rfl, howner', hused⟩ | ⟨hused, rule, hrule, howner', hback⟩
    · obtain rfl := hF.owner_ext howner howner'
      exact ih (.self hused)
    · obtain rfl := hF.owner_ext howner (.self hused)
      obtain ⟨before', rest', hright', hrest'⟩ := hback _ h0
      have hold := (hF.replaced.left_mem_or_fresh hleft).resolve_right (not_not_intro hused)
      exact .outer hrule hright' hold hrest' (ih howner')

/-- **A name is followed after factoring by what followed its owner before.** -/
theorem followedBy_iff (hstart : ∀ s ∈ start, s ∈ used) (howner : Owner used rules' owner name) :
    FollowedBy rules' start name a ↔ FollowedBy rules start owner a :=
  ⟨fun h => hF.followedBy_owner hstart h howner, fun h => hF.followedBy_of_owner howner (hF.followedBy_factored h)⟩

end Factoring

/-! ## In grammars -/

namespace Grammar

/-- A non-terminal with a new name is there for the one whose namesake has a production with it. -/
structure IntroducedFor (g h : Grammar) (new nt : NonTerminal) : Prop where
  /-- the non-terminal is there -/
  mem : new ∈ h.nonTerminals
  /-- its name is new -/
  fresh : new.name ∉ g.names
  /-- the namesake mentions it -/
  mentioned : ∃ nt' ∈ h.nonTerminals, nt'.name = nt.name ∧ ∃ production ∈ nt'.productions, new.index ∈ production

variable {g h : Grammar} {nt nt' new : NonTerminal}

namespace WellFormed

variable (hg : g.WellFormed)
include hg

/-- A production holds a symbol if the rule mentions its name. -/
theorem exists_production_of_mentions (hnt : nt ∈ g.nonTerminals) {i : Nat} (hi : i < g.symbols.length)
    (hrule : rule ∈ g.namedRules) (hleft : rule.left = nt.name) (hmentions : rule.Mentions (g.label i)) :
    ∃ production ∈ nt.productions, i ∈ production := by
  obtain ⟨nt', hnt', hname, hrights⟩ := mem_namedRules.mp hrule
  obtain rfl := hg.nonTerminal_name_ext hnt' hnt (hname.trans hleft)
  obtain ⟨right, hright, hmem⟩ := hmentions
  rw [← hrights] at hright
  obtain ⟨production, hp, rfl⟩ := List.mem_map.mp hright
  obtain ⟨j, hj, hlabel⟩ := List.mem_map.mp hmem
  exact ⟨production, hp, hg.label_inj (hg.production_lt hnt hp j hj) hi hlabel ▸ hj⟩

theorem factoring : Factoring g.names g.namedRules (factorRules g.names g.namedRules) where
  replaced := factorRules_replaced g.names g.namedRules
  tidy := hg.tidy
  tidy' := hg.tidy_factorRules
  left_mem := fun _ hrule => (hg.names_of_mem hrule).1
  right_mem := fun _ hrule => (hg.names_of_mem hrule).2

section factored

variable (hrules : h.namedRules = factorRules g.names g.namedRules)
include hrules

/-- A namesake starts with the same names. -/
theorem startsWith_namesake_factored (hnt : nt ∈ g.nonTerminals) (hname : nt'.name = nt.name) (a : String) :
    StartsWith h.namedRules [nt'.name] a ↔ StartsWith g.namedRules [nt.name] a := by
  rw [hrules, hname]
  exact hg.factoring.startsWith_iff (List.forall_mem_singleton.mpr (hg.name_mem_names hnt))

/-- A non-terminal is followed by what its owner was followed by. -/
theorem followedBy_owner_factored (hstart : h.start.map h.label = g.start.map g.label)
    (howner : Owner g.names h.namedRules nt.name nt'.name) (a : String) :
    FollowedBy h.namedRules (h.start.map h.label) nt'.name a ↔
      FollowedBy g.namedRules (g.start.map g.label) nt.name a := by
  rw [hrules] at howner ⊢
  rw [hstart]
  exact hg.factoring.followedBy_iff hg.start_mem_names howner

variable (hh : h.WellFormed)
include hh

/-- Every non-terminal with a new name was introduced for one of the grammar. -/
theorem exists_introducedFor (hnew : new ∈ h.nonTerminals) (hfresh : new.name ∉ g.names) :
    ∃ nt ∈ g.nonTerminals, g.IntroducedFor h new nt := by
  obtain ⟨rule, hrule, hleft⟩ := List.mem_map.mp (name_mem_lefts hnew)
  rw [hrules] at hrule
  obtain ⟨source, group, hsplit⟩ := hg.factoring.exists_split hrule (hleft ▸ hfresh)
  obtain ⟨entry, hentry, heq, hright⟩ := hsplit.entry
  obtain ⟨nt, hnt, hname⟩ := exists_named (List.mem_map_of_mem hsplit.rule_mem)
  rw [← hrules] at hentry
  obtain ⟨nt', hnt', hname'⟩ := exists_named (List.mem_map_of_mem hentry)
  refine ⟨nt, hnt, hnew, hfresh, nt', hnt', (hname'.trans heq).trans hname.symm, ?_⟩
  refine hh.exists_production_of_mentions hnt' (hh.index_lt hnew) hentry hname'.symm ⟨_, hright, ?_⟩
  rw [hh.label_index hnew, ← hleft]
  exact List.mem_append_right _ List.mem_cons_self

end factored

/-- A non-terminal owns the names that were introduced for it. -/
theorem owner_of_introduced (hh : h.WellFormed) (hnt : nt ∈ g.nonTerminals) (hnew : g.IntroducedFor h new nt) :
    Owner g.names h.namedRules nt.name new.name := by
  obtain ⟨hmem, hfresh, nt', hnt', hname, production, hp, hindex⟩ := hnew
  obtain ⟨rule, hrule, hleft, hright⟩ := hh.mem_rights_of_mem_productions hnt' hp
  rw [hh.label_index hnt', hname] at hleft
  rw [← hleft]
  refine .fresh hfresh hrule (hleft ▸ hg.name_mem_names hnt) ⟨_, hright, ?_⟩
  rw [← hh.label_index hmem]
  exact List.mem_map_of_mem hindex

end WellFormed

/-! ## In built grammars -/

/-- **Left factoring changes no analysis.** Every non-terminal has a namesake in the result that is nullable if it is
and has the same FIRST and FOLLOW sets by name, and the non-terminals introduced for it have its FOLLOW set too. Every
non-terminal with a new name is introduced for some non-terminal. -/
theorem Built.leftFactored_analyses (hg : g.Built) :
    ∃ h W V, g.leftFactored = .ok h ∧ g.follow g.first = .ok W ∧ h.follow h.first = .ok V ∧
      (∀ nt ∈ g.nonTerminals,
        (∃ nt' ∈ h.nonTerminals, nt'.name = nt.name ∧
          h.first.nullable nt'.index = g.first.nullable nt.index ∧
          g.SameNames h (g.first.get? nt.index) (h.first.get? nt'.index) ∧
          g.SameNames h (W.get? nt.index) (V.get? nt'.index)) ∧
        ∀ new, g.IntroducedFor h new nt → g.SameNames h (W.get? nt.index) (V.get? new.index)) ∧
      ∀ new ∈ h.nonTerminals, new.name ∉ g.names → ∃ nt ∈ g.nonTerminals, g.IntroducedFor h new nt := by
  have hwf := hg.wellFormed
  obtain ⟨h, hok, hh, hstart, hrules⟩ := hwf.leftFactored
  obtain ⟨W, hfollow, hW⟩ := hwf.follow_eq
  obtain ⟨V, hfollow', hV⟩ := hh.follow_eq
  have hlabel := hwf.map_label_start hh hstart
  refine ⟨h, W, V, hok, hfollow, hfollow', fun nt hnt => ⟨?_, fun new hnew => ?_⟩,
    fun new => hwf.exists_introducedFor hrules hh⟩
  · have hleft := (factorRules_replaced g.names g.namedRules).left_mem (name_mem_lefts hnt)
    rw [← hrules] at hleft
    obtain ⟨nt', hnt', hname⟩ := exists_named hleft
    have hfirst := hwf.startsWith_namesake_factored hrules hnt hname
    have howner : Owner g.names h.namedRules nt.name nt'.name := hname ▸ .self (hname ▸ hwf.name_mem_names hnt)
    exact ⟨nt', hnt', hname, hwf.nullable_eq hh hnt hnt' hfirst, hwf.sameNames_first hh hnt hnt' hfirst,
      hwf.sameNames_follow hh hnt hnt' hW hV (hwf.followedBy_owner_factored hrules hlabel howner)⟩
  · have howner := hwf.owner_of_introduced hh hnt hnew
    exact hwf.sameNames_follow hh hnt hnew.mem hW hV (hwf.followedBy_owner_factored hrules hlabel howner)

/-- A grammar with a recursion in what one of two alternatives has behind their shared start. -/
def sharedTail : Grammar := .ofRules [⟨"S", [["A", "c"]]⟩, ⟨"A", [["a", "A"], ["a"]]⟩]

/-- There the fresh name is followed by `c`, as `A` is, and not by `a`. -/
theorem Built.leftFactored_analyses_sharedTail :
    sharedTail.Built ∧ ∃ h V set, sharedTail.leftFactored = .ok h ∧ h.follow h.first = .ok V ∧
      (∃ new ∈ h.nonTerminals, new.name = "A_LF1" ∧ V.get? new.index = some set) ∧
        "c" ∈ h.namesIn set ∧ "a" ∉ h.namesIn set := by
  have hbuilt : sharedTail.Built := .ofRules _
  obtain ⟨h, W, V, hok, hW, hV, hall, -⟩ := Built.leftFactored_analyses hbuilt
  have hrules : h.nonTerminals = [⟨2, "S", [[3, 5]]⟩, ⟨3, "A", [[6, 4]]⟩, ⟨4, "A_LF1", [[3], [0]]⟩] := by
    have hknown : sharedTail.leftFactored.map Grammar.nonTerminals =
        .ok [⟨2, "S", [[3, 5]]⟩, ⟨3, "A", [[6, 4]]⟩, ⟨4, "A_LF1", [[3], [0]]⟩] := by decide
    rw [hok] at hknown
    exact Except.ok.inj hknown
  have hnew : (⟨4, "A_LF1", [[3], [0]]⟩ : NonTerminal) ∈ h.nonTerminals := by
    rw [hrules]
    decide
  have hintroduced : sharedTail.IntroducedFor h ⟨4, "A_LF1", [[3], [0]]⟩ ⟨3, "A", [[5, 3], [5]]⟩ := by
    refine ⟨hnew, by decide, ⟨3, "A", [[6, 4]]⟩, ?_, rfl, [6, 4], by decide, by decide⟩
    rw [hrules]
    decide
  obtain ⟨-, hsame⟩ := hall ⟨3, "A", [[5, 3], [5]]⟩ (by decide)
  obtain ⟨members, hmembers, set, hset, hnames⟩ := hsame _ hintroduced
  obtain rfl : members = .ofList [4] := by
    have hknown : ((sharedTail.follow sharedTail.first).toOption.bind (·.get? 3)) = some (.ofList [4]) := by decide
    rw [hW] at hknown
    exact Option.some.inj (hmembers.symm.trans hknown)
  refine ⟨hbuilt, h, V, set, hok, hV, ⟨_, hnew, rfl, hset⟩, ?_⟩
  rw [← hnames]
  refine ⟨⟨4, by decide, by decide⟩, ?_⟩
  rintro ⟨a, ha, hname⟩
  obtain rfl : a = 4 := List.mem_singleton.mp (SymbolSet.mem_ofList.mp ha)
  exact absurd hname (by decide)

end Grammar

end PredictiveGrammar
