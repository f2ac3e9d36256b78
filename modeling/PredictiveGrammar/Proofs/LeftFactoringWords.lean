import PredictiveGrammar.Proofs.BuiltGrammars
import PredictiveGrammar.Proofs.NamedWords

/-!
# Left factoring keeps the language

An alternative that was factored is the common start of its group before its remainder, and the fresh name stands for
any remainder of the group. So a word of the alternative is a word of the start and the fresh name
(`Grammar.WellFormed.yields_factorRules`), and where the fresh name stands at the end of an alternative, one of its
remainders can stand there (`Grammar.WellFormed.unfactored_of_yields`). Every non-terminal generates after factoring
what it generated before (`Grammar.Built.leftFactored_generates`).
-/

namespace PredictiveGrammar

variable {rules : List Rule} {rule new : Rule} {start right s w : List String}

/-! ## Remainders -/

theorem Yields.append_epsilon (h : Yields rules s w) : Yields rules (s ++ [epsilon]) w := by
  have happend := h.append (Yields.silent .nil)
  rwa [List.append_nil] at happend

theorem Yields.of_append_epsilon (hleft : epsilon ∉ rules.map Rule.left)
    (h : Yields rules (s ++ [epsilon]) w) : Yields rules s w := by
  obtain ⟨u, v, rfl, hu, hv⟩ := h.exists_append
  obtain rfl := Yields.eq_nil_of_epsilon hleft hv
  rwa [List.append_nil]

/-- **The start of an alternative before its remainder** yields what the alternative yields. -/
theorem yields_remainder_iff (hleft : epsilon ∉ rules.map Rule.left) (h : start <+: right) :
    Yields rules (start ++ remainder start right) w ↔ Yields rules right w := by
  obtain ⟨rest, rfl⟩ := h
  cases rest with
  | nil =>
    simp only [remainder, List.append_nil, if_true]
    exact ⟨Yields.of_append_epsilon hleft, Yields.append_epsilon⟩
  | cons name rest => simp [remainder]

/-- A remainder holds names of its alternative, and `ε`. -/
theorem mem_of_mem_remainder {name : String} (h : name ∈ remainder start right) :
    name = epsilon ∨ name ∈ right := by
  rw [remainder] at h
  split at h
  · exact Or.inl (List.mem_singleton.mp h)
  · exact Or.inr (List.mem_of_mem_drop h)

theorem exists_of_mem_sharedStart {group : List (List String)} {name : String} (h : name ∈ sharedStart group) :
    ∃ right ∈ group, name ∈ right := by
  cases group with
  | nil => cases h
  | cons right rights => exact ⟨right, List.mem_cons_self, (sharedStart_isPrefix List.mem_cons_self).mem h⟩

/-! ## Groups -/

namespace FactoredGroups

variable {groups : List (List (List String))} {group : List (List String)} {rights : List (List String)}
  {fresh : List Rule}

/-- A member of a group stays, or a fresh name stands for its remainder. -/
theorem mem_or_factored (h : FactoredGroups groups rights fresh) (hgroup : group ∈ groups)
    (hright : right ∈ group) :
    right ∈ rights ∨ ∃ name, sharedStart group ++ [name] ∈ rights ∧
      ⟨name, group.map (remainder (sharedStart group))⟩ ∈ fresh := by
  induction h with
  | nil => cases hgroup
  | keep other _ ih =>
    cases hgroup with
    | head => exact Or.inl (List.mem_singleton.mp hright ▸ List.mem_cons_self)
    | tail _ hgroup =>
      rcases ih hgroup with hkept | ⟨name, hname, hnew⟩
      · exact Or.inl (List.mem_cons_of_mem _ hkept)
      · exact Or.inr ⟨name, List.mem_cons_of_mem _ hname, hnew⟩
  | factor name _ _ ih =>
    cases hgroup with
    | head => exact Or.inr ⟨name, List.mem_cons_self, List.mem_cons_self⟩
    | tail _ hgroup =>
      rcases ih hgroup with hkept | ⟨name', hname, hnew⟩
      · exact Or.inl (List.mem_cons_of_mem _ hkept)
      · exact Or.inr ⟨name', List.mem_cons_of_mem _ hname, List.mem_cons_of_mem _ hnew⟩

/-- An alternative of the answer is a member of a group, or the common start of a larger group before a fresh
name. -/
theorem exists_of_mem_rights (h : FactoredGroups groups rights fresh) (hright : right ∈ rights) :
    ∃ group ∈ groups, right ∈ group ∨ group.length ≠ 1 ∧ ∃ name, right = sharedStart group ++ [name] ∧
      ⟨name, group.map (remainder (sharedStart group))⟩ ∈ fresh := by
  induction h with
  | nil => cases hright
  | keep other _ ih =>
    cases hright with
    | head => exact ⟨[right], List.mem_cons_self, Or.inl List.mem_cons_self⟩
    | tail _ hright =>
      obtain ⟨group, hgroup, horigin⟩ := ih hright
      exact ⟨group, List.mem_cons_of_mem _ hgroup, horigin⟩
  | @factor name group _ _ _ hlength _ ih =>
    cases hright with
    | head => exact ⟨group, List.mem_cons_self, Or.inr ⟨hlength, name, rfl, List.mem_cons_self⟩⟩
    | tail _ hright =>
      obtain ⟨group', hgroup, horigin⟩ := ih hright
      refine ⟨group', List.mem_cons_of_mem _ hgroup, horigin.imp_right (And.imp_right ?_)⟩
      rintro ⟨name', heq, hnew⟩
      exact ⟨name', heq, List.mem_cons_of_mem _ hnew⟩

/-- A fresh rule holds the remainders of a group of several. -/
theorem exists_of_mem_fresh (h : FactoredGroups groups rights fresh) (hnew : new ∈ fresh) :
    ∃ group ∈ groups, group.length ≠ 1 ∧ new.rights = group.map (remainder (sharedStart group)) := by
  induction h with
  | nil => cases hnew
  | keep _ _ ih =>
    obtain ⟨group, hgroup, heq⟩ := ih hnew
    exact ⟨group, List.mem_cons_of_mem _ hgroup, heq⟩
  | @factor name group _ _ _ hlength _ ih =>
    cases hnew with
    | head => exact ⟨group, List.mem_cons_self, hlength, rfl⟩
    | tail _ hnew =>
      obtain ⟨group', hgroup, heq⟩ := ih hnew
      exact ⟨group', List.mem_cons_of_mem _ hgroup, heq⟩

end FactoredGroups

/-- A member of a group of a rule is an alternative of the rule. -/
theorem mem_rights_of_mem_group {group : List (List String)}
    (hgroup : group ∈ (groupByHead rule.rights).map (·.2)) (hright : right ∈ group) : right ∈ rule.rights := by
  obtain ⟨e, he, rfl⟩ := List.mem_map.mp hgroup
  exact (mem_groupByHead.mp ⟨e, he, hright⟩).1

theorem exists_group_of_mem_rights (hright : right ∈ rule.rights) (hne : right ≠ []) :
    ∃ group ∈ (groupByHead rule.rights).map (·.2), right ∈ group := by
  obtain ⟨e, he, hmem⟩ := mem_groupByHead.mpr ⟨hright, hne⟩
  exact ⟨e.2, List.mem_map_of_mem he, hmem⟩

/-! ## Words -/

namespace Grammar

variable {g : Grammar}

/-- What a form that yields a word by the factored rules can do by the rules. -/
structure Unfactored (g : Grammar) (s w : List String) : Prop where
  /-- it yields the word if it holds old names only -/
  old : (∀ n ∈ s, n ∈ g.names) → Yields g.namedRules s w
  /-- a fresh name at its end can give way to an alternative such that it yields the word -/
  fresh : ∀ new ∈ factorRules g.names g.namedRules, new.left ∉ g.names → ∀ x, s = x ++ [new.left] →
    (∀ n ∈ x, n ∈ g.names) → ∃ right ∈ new.rights, Yields g.namedRules (x ++ right) w

namespace WellFormed

variable (hg : g.WellFormed)
include hg

/-- **What the rules yield, the factored rules yield.** -/
theorem yields_factorRules (h : Yields g.namedRules s w) (hs : ∀ n ∈ s, n ∈ g.names) :
    Yields (factorRules g.names g.namedRules) s w := by
  have hreplaced := factorRules_replaced g.names g.namedRules
  induction h with
  | nil => exact .nil
  | silent _ ih => exact .silent (ih (List.forall_mem_cons.mp hs).2)
  | @terminal n _ _ hne hleft _ ih =>
    refine .terminal hne (fun hmem => ?_) (ih (List.forall_mem_cons.mp hs).2)
    rcases hreplaced.left_mem_or_fresh hmem with hold | hfresh
    · exact hleft hold
    · exact hfresh (hs n List.mem_cons_self)
  | @expand rule right s u v hrule hright _ _ ihu ihv =>
    have hu := ihu ((hg.names_of_mem hrule).2 right hright)
    have hv := ihv (List.forall_mem_cons.mp hs).2
    have hne := hg.tidy.inhabited rule hrule right hright
    obtain ⟨entry, fresh, hstands⟩ := hreplaced.exists_of_mem hrule
    have hentry := hstands.subset List.mem_cons_self
    rw [← hstands.left]
    obtain ⟨group, hgroup, hmem⟩ := exists_group_of_mem_rights hright hne
    rcases hstands.replacement.mem_or_factored hgroup hmem with hkept | ⟨name, hname, hnew⟩
    · exact .expand hentry hkept hu hv
    -- the start yields the first part of the word, and the fresh name the part of the remainder
    · have hnew' := hstands.subset (List.mem_cons_of_mem _ hnew)
      rw [← yields_remainder_iff hg.tidy_factorRules.epsilon_notMem (sharedStart_isPrefix hmem)] at hu
      obtain ⟨u₁, u₂, rfl, hstart, hrest⟩ := hu.exists_append
      have hfresh := Yields.single hnew' (List.mem_map_of_mem hmem) hrest
      exact .expand hentry hname (hstart.append hfresh) hv

/-- The alternatives of a fresh name hold old names only. -/
theorem mem_names_of_fresh (hnew : new ∈ factorRules g.names g.namedRules) (hleft : new.left ∉ g.names)
    (hright : right ∈ new.rights) : ∀ n ∈ right, n ∈ g.names := by
  obtain ⟨rule, hrule, entry, fresh, hstands, horigin⟩ :=
    (factorRules_replaced g.names g.namedRules).exists_of_mem_result hnew
  obtain ⟨hold, hrights⟩ := hg.names_of_mem hrule
  cases horigin with
  | inl hentry => exact absurd (hentry ▸ hstands.left ▸ hold) hleft
  | inr hfresh =>
    obtain ⟨group, hgroup, -, heq⟩ := hstands.replacement.exists_of_mem_fresh hfresh
    rw [heq] at hright
    obtain ⟨member, hmember, rfl⟩ := List.mem_map.mp hright
    intro n hn
    rcases mem_of_mem_remainder hn with rfl | hn
    · exact hg.uniquelyNamed.reserved_mem_names _ List.mem_cons_self
    · exact hrights member (mem_rights_of_mem_group hgroup hmember) n hn

/-- An old left side yields by the rules what an alternative of it after factoring does: the alternative is one of
the rule, or it ends in a fresh name. -/
theorem yields_left_of_unfactored {u : List String} (hentry : rule ∈ factorRules g.names g.namedRules)
    (hright : right ∈ rule.rights) (h : g.Unfactored right u) (hleft : rule.left ∈ g.names) :
    Yields g.namedRules [rule.left] u := by
  obtain ⟨source, hrule, fresh, hstands⟩ :=
    (factorRules_replaced g.names g.namedRules).exists_of_left_mem hentry hleft
  have hrights := (hg.names_of_mem hrule).2
  rw [hstands.left]
  obtain ⟨group, hgroup, hmem | ⟨-, name, rfl, hnew⟩⟩ := hstands.replacement.exists_of_mem_rights hright
  · have hold := mem_rights_of_mem_group hgroup hmem
    exact .single hrule hold (h.old (hrights right hold))
  · have hnew' := hstands.subset (List.mem_cons_of_mem _ hnew)
    have hstart : ∀ n ∈ sharedStart group, n ∈ g.names := by
      intro n hn
      obtain ⟨member, hmember, hn⟩ := exists_of_mem_sharedStart hn
      exact hrights member (mem_rights_of_mem_group hgroup hmember) n hn
    obtain ⟨rest, hrest, hyields⟩ :=
      h.fresh _ hnew' (hstands.unused _ (List.mem_map_of_mem hnew)) _ rfl hstart
    obtain ⟨member, hmember, rfl⟩ := List.mem_map.mp hrest
    rw [yields_remainder_iff hg.tidy.epsilon_notMem (sharedStart_isPrefix hmember)] at hyields
    exact .single hrule (mem_rights_of_mem_group hgroup hmember) hyields

/-- **What the factored rules yield, the rules yield**, and a fresh name at the end can give way to one of its
alternatives. -/
theorem unfactored_of_yields (h : Yields (factorRules g.names g.namedRules) s w) : g.Unfactored s w := by
  have hreplaced := factorRules_replaced g.names g.namedRules
  have hepsilon : PredictiveGrammar.epsilon ∈ g.names := hg.uniquelyNamed.reserved_mem_names _ List.mem_cons_self
  induction h with
  | nil =>
    refine ⟨fun _ => .nil, fun new _ _ x heq => ?_⟩
    exact absurd heq.symm (List.append_ne_nil_of_right_ne_nil x (List.cons_ne_nil _ _))
  -- `ε` is a used name, so it is not the fresh one at the end
  | silent _ ih =>
    refine ⟨fun hs => .silent (ih.old (List.forall_mem_cons.mp hs).2), ?_⟩
    intro new hnew hfresh x heq hx
    cases x with
    | nil => exact absurd ((List.cons.inj heq).1 ▸ hepsilon) hfresh
    | cons n x =>
      obtain ⟨rfl, hrest⟩ := List.cons.inj heq
      obtain ⟨right, hright, hyields⟩ := ih.fresh new hnew hfresh x hrest (List.forall_mem_cons.mp hx).2
      exact ⟨right, hright, .silent hyields⟩
  -- neither is a terminal, which has no rules
  | @terminal n _ _ hne hleft _ ih =>
    have hold : n ∉ g.namedRules.map Rule.left := fun hmem => hleft (hreplaced.left_mem hmem)
    refine ⟨fun hs => .terminal hne hold (ih.old (List.forall_mem_cons.mp hs).2), ?_⟩
    intro new hnew hfresh x heq hx
    cases x with
    | nil => exact absurd ((List.cons.inj heq).1 ▸ List.mem_map_of_mem hnew) hleft
    | cons m x =>
      obtain ⟨rfl, hrest⟩ := List.cons.inj heq
      obtain ⟨right, hright, hyields⟩ := ih.fresh new hnew hfresh x hrest (List.forall_mem_cons.mp hx).2
      exact ⟨right, hright, .terminal hne hold hyields⟩
  -- here the fresh name may stand at the end, and then its rule is expanded
  | @expand entry right s u v hentry hright _ hyieldsv ihu ihv =>
    have hself := hg.yields_left_of_unfactored hentry hright ihu
    constructor
    · intro hs
      obtain ⟨hleft, hs⟩ := List.forall_mem_cons.mp hs
      exact (hself hleft).append (ihv.old hs)
    · intro new hnew hfresh x heq hx
      cases x with
      -- the fresh name is the one expanded, and its right side is what is looked for
      | nil =>
        obtain ⟨hleft, rfl⟩ := List.cons.inj heq
        obtain rfl := hg.tidy_factorRules.rule_ext hentry hnew hleft
        cases hyieldsv
        rw [List.append_nil]
        exact ⟨right, hright, ihu.old (hg.mem_names_of_fresh hnew hfresh hright)⟩
      -- the fresh name stands behind the name that is expanded
      | cons n x =>
        obtain ⟨rfl, hrest⟩ := List.cons.inj heq
        obtain ⟨hleft, hx⟩ := List.forall_mem_cons.mp hx
        obtain ⟨rest, hmem, hyields⟩ := ihv.fresh new hnew hfresh x hrest hx
        exact ⟨rest, hmem, (hself hleft).append hyields⟩

/-- **Factoring keeps the words** of old names. -/
theorem yields_factorRules_iff (hs : ∀ n ∈ s, n ∈ g.names) :
    Yields (factorRules g.names g.namedRules) s w ↔ Yields g.namedRules s w :=
  ⟨fun h => (hg.unfactored_of_yields h).old hs, fun h => hg.yields_factorRules h hs⟩

end WellFormed

/-! ## In built grammars -/

/-- **Left factoring keeps the language.** It succeeds and keeps the name of the start symbol, and every non-terminal
has a namesake in the result that generates the same words. -/
theorem Built.leftFactored_generates (hg : g.Built) :
    ∃ h, g.leftFactored = .ok h ∧ h.startName? = g.startName? ∧
      ∀ nt ∈ g.nonTerminals, ∃ nt' ∈ h.nonTerminals, nt'.name = nt.name ∧
        ∀ w, h.Generates [nt'.index] w ↔ g.Generates [nt.index] w := by
  have hwf := hg.wellFormed
  obtain ⟨h, hok, hh, hstart, hrules⟩ := hwf.leftFactored
  refine ⟨h, hok, hstart, fun nt hnt => ?_⟩
  have hleft : nt.name ∈ h.namedRules.map Rule.left := by
    rw [hrules]
    apply (factorRules_replaced g.names g.namedRules).left_mem
    rw [lefts_namedRules]
    exact List.mem_map_of_mem hnt
  rw [lefts_namedRules] at hleft
  obtain ⟨nt', hnt', hname⟩ := List.mem_map.mp hleft
  refine ⟨nt', hnt', hname, fun w => ?_⟩
  have hnames : ∀ n ∈ [nt.name], n ∈ g.names := List.forall_mem_singleton.mpr (hwf.name_mem_names hnt)
  rw [hh.generates_index_iff hnt', hrules, hname, hwf.yields_factorRules_iff hnames]
  exact (hwf.generates_index_iff hnt).symm

/-- Groups of a recursive rule with a member twice, a member that is the start of another, members that start with
`ε`, and a terminal with the name that the first group would get. -/
def overlapping : Grammar :=
  .ofRules [⟨"A", [["A", "a"], ["A", "a"], ["A", "a", "A_LF1"], ["ε", "b"], ["ε"]]⟩]

/-- After factoring `A` generates `b a A_LF1` still, and it has a fresh name. -/
theorem Built.leftFactored_generates_overlapping :
    overlapping.Built ∧ ∃ h, overlapping.leftFactored = .ok h ∧ h.startName? = .ok (some "A") ∧
      (∃ nt ∈ h.nonTerminals, nt.name = "A" ∧ h.Generates [nt.index] ["b", "a", "A_LF1"]) ∧
      ∃ nt ∈ h.nonTerminals, nt.name = "A_LF1'" := by
  have hbuilt : overlapping.Built := .ofRules _
  obtain ⟨h, hok, hstart, hwords⟩ := Built.leftFactored_generates hbuilt
  obtain ⟨nt, hnt, hname, hiff⟩ := hwords ⟨2, "A", [[2, 3], [2, 3], [2, 3, 4], [0, 5], [0]]⟩ (by decide)
  refine ⟨hbuilt, h, hok, hstart.trans (by decide), ⟨nt, hnt, hname, (hiff _).mpr ?_⟩, ?_⟩
  · have hmem : (⟨2, "A", [[2, 3], [2, 3], [2, 3, 4], [0, 5], [0]]⟩ : NonTerminal) ∈
        overlapping.nonTerminals := by decide
    have hfirst : overlapping.Derives [2] [2, 3, 4] := .production hmem (by decide)
    have hsecond : overlapping.Derives ([] ++ 2 :: [3, 4]) ([] ++ [0, 5] ++ [3, 4]) :=
      .expand hmem (by decide) [] [3, 4]
    exact ⟨[0, 5, 3, 4], hfirst.trans hsecond, by decide, by decide⟩
  · have hknown : overlapping.leftFactored.map (fun h => h.nonTerminals.map NonTerminal.name) =
        .ok ["A", "A_LF1'", "A_LF2"] := by decide
    rw [hok] at hknown
    have hnames : h.nonTerminals.map NonTerminal.name = ["A", "A_LF1'", "A_LF2"] := Except.ok.inj hknown
    apply List.mem_map.mp
    rw [hnames]
    exact List.mem_cons_of_mem _ List.mem_cons_self

end Grammar

end PredictiveGrammar
