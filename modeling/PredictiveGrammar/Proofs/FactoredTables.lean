import Mathlib.Data.List.Pairwise
import PredictiveGrammar.Proofs.FactoredSets

/-!
# Left factoring adds no conflicts

A table has no conflicts if no two alternatives of a left side are to be used for the same name
(`Grammar.WellFormed.conflicts_eq_nil_iff_rules`). An alternative after factoring is to be used for what a member of
its group was to be used for, so alternatives of different groups stay apart. Two members of one group that were apart
have a shared start that can only vanish, if every left side starts with something. Then what is left of them behind
the start is to be used for the same as they were, under the fresh name too, which is followed by what follows the
left side (`Factoring.conflictFree`).
-/

namespace PredictiveGrammar

/-- What an alternative of a left side is to be used for. -/
def Predicts (rules : List Rule) (start : Option String) (left : String) (right : List String) (a : String) : Prop :=
  StartsWith rules right a ∧ a ≠ epsilon ∨ StartsWith rules right epsilon ∧ FollowedBy rules start left a

/-- No two alternatives of a left side, by place, are to be used for the same name. -/
def ConflictFree (rules : List Rule) (start : Option String) : Prop :=
  ∀ rule ∈ rules, rule.rights.Pairwise fun right right' =>
    ∀ a, Predicts rules start rule.left right a → ¬ Predicts rules start rule.left right' a

variable {used : List String} {rules rules' : List Rule} {rule new entry : Rule} {group : List (List String)}
  {right right' rest : List String} {start : Option String} {a : String}

/-- Different alternatives are to be used for different names. -/
theorem ConflictFree.eq_of_predicts (h : ConflictFree rules start) (hrule : rule ∈ rules) (hright : right ∈ rule.rights)
    (hright' : right' ∈ rule.rights) (ha : Predicts rules start rule.left right a)
    (ha' : Predicts rules start rule.left right' a) : right = right' := by
  have hsymm : Std.Symm fun right right' =>
      ∀ a, Predicts rules start rule.left right a → ¬ Predicts rules start rule.left right' a :=
    ⟨fun _ _ hapart a hfirst hsecond => hapart a hsecond hfirst⟩
  by_contra hne
  exact (h rule hrule).forall hright hright' hne a ha ha'

/-- Where every left side starts with something, so does every list of names. -/
theorem exists_startsWith (hfirst : ∀ name ∈ rules.map Rule.left, ∃ a, StartsWith rules [name] a) (s : List String) :
    ∃ a, StartsWith rules s a := by
  induction s with
  | nil => exact ⟨epsilon, .nil⟩
  | cons name s ih =>
    obtain ⟨b, hb⟩ := ih
    by_cases h0 : name = epsilon
    · subst h0
      exact ⟨b, .silent hb⟩
    by_cases hleft : name ∈ rules.map Rule.left
    · obtain ⟨a, ha⟩ := hfirst name hleft
      by_cases hne : a = epsilon
      · subst hne
        exact ⟨b, startsWith_cons.mpr (Or.inr ⟨ha, hb⟩)⟩
      · exact ⟨a, startsWith_cons.mpr (Or.inl ⟨ha, hne⟩)⟩
    · exact ⟨name, .terminal h0 hleft⟩

/-- Behind a part that vanishes, an alternative is to be used for what it is to be used for with that part. -/
theorem predicts_append (h0 : StartsWith rules right epsilon) (h : Predicts rules start rule.left rest a) :
    Predicts rules start rule.left (right ++ rest) a := by
  rcases h with ⟨h, hne⟩ | ⟨h, hfollow⟩
  · exact Or.inl ⟨startsWith_append.mpr (Or.inr ⟨h0, h⟩), hne⟩
  · exact Or.inr ⟨startsWith_append.mpr (Or.inr ⟨h0, h⟩), hfollow⟩

namespace Factoring

variable (hF : Factoring used rules rules') (hstart : ∀ s ∈ start, s ∈ used)
include hF hstart

/-- What used names before a fresh one are to be used for, they are to be used for before a member of its group. -/
theorem predicts_of_used (hrule : rule ∈ rules) (hs : ∀ n ∈ right, n ∈ used)
    (h : Predicts rules' start rule.left right a) : Predicts rules start rule.left right a := by
  have howner : Owner used rules' rule.left rule.left := .self (hF.left_mem rule hrule)
  rwa [Predicts, hF.startsWith_iff hs, hF.startsWith_iff hs, hF.followedBy_iff hstart howner] at h

/-- **An alternative of a used name** is to be used for what one was to be used for that starts with the same symbol. -/
theorem exists_predicts (hrule : rule ∈ rules) (hentry : entry ∈ rules') (hleft : rule.left = entry.left)
    (hright : right ∈ entry.rights) (h : Predicts rules' start entry.left right a) :
    ∃ member ∈ rule.rights, member.head? = right.head? ∧ Predicts rules start rule.left member a := by
  have hused : entry.left ∈ used := hleft ▸ hF.left_mem rule hrule
  obtain ⟨rule', hrule', hleft', hrights⟩ := hF.exists_rule_of_entry hentry hused
  obtain rfl := hF.tidy.rule_ext hrule' hrule (hleft'.trans hleft.symm)
  rw [← hleft] at h
  rcases hrights right hright with hkept | ⟨group, new, hsplit, rfl⟩
  · exact ⟨right, hkept, rfl, hF.predicts_of_used hstart hrule (hF.right_mem rule' hrule right hkept) h⟩
  · have hs := hsplit.mem_used_of_mem_sharedStart hF.right_mem
    have hhead : ∀ rest, (sharedStart group ++ rest).head? = (sharedStart group ++ [new.left]).head? := fun rest => by
      rw [List.head?_append_of_ne_nil _ (sharedStart_ne_nil hsplit.group_mem),
        List.head?_append_of_ne_nil _ (sharedStart_ne_nil hsplit.group_mem)]
    have howner : Owner used rules' rule'.left rule'.left := .self (hF.left_mem rule' hrule)
    rcases h with ⟨h, hne⟩ | ⟨h, hfollow⟩
    · obtain ⟨rest, hmem, h⟩ := (hF.startsWith_split_iff hsplit hs).mp h
      exact ⟨_, hsplit.mem_rights hmem, hhead rest, Or.inl ⟨h, hne⟩⟩
    · obtain ⟨rest, hmem, h⟩ := (hF.startsWith_split_iff hsplit hs).mp h
      exact ⟨_, hsplit.mem_rights hmem, hhead rest, Or.inr ⟨h, (hF.followedBy_iff hstart howner).mp hfollow⟩⟩

/-- What an alternative of a fresh name is to be used for, what it is left of was to be used for, if the shared start
vanishes. -/
theorem predicts_of_remainder (hsplit : SplitOff used rules rules' rule group new) (hmem : right ∈ group)
    (h0 : StartsWith rules (sharedStart group) epsilon)
    (h : Predicts rules' start new.left (remainder (sharedStart group) right) a) :
    Predicts rules start rule.left right a := by
  obtain ⟨rest, rfl⟩ := sharedStart_isPrefix hmem
  have hs := hF.mem_used_of_split hsplit hmem
  refine predicts_append h0 ?_
  rwa [Predicts, remainder_append, startsWith_spelled hF.tidy'.epsilon_notMem,
    startsWith_spelled hF.tidy'.epsilon_notMem, hF.startsWith_iff hs, hF.startsWith_iff hs,
    hF.followedBy_iff hstart (hF.owner_split hsplit)] at h

/-- **Left factoring adds no conflicts**, if every left side starts with something. -/
theorem conflictFree (hfirst : ∀ name ∈ rules.map Rule.left, ∃ a, StartsWith rules [name] a)
    (h : ConflictFree rules start) : ConflictFree rules' start := by
  intro new hnew
  by_cases hleft : new.left ∈ used
  -- alternatives start with different symbols, and so did those they come from
  · obtain ⟨rule, hrule, fresh, hstands⟩ := hF.replaced.exists_of_left_mem hnew hleft
    have hapart : new.rights.Pairwise fun right right' => right.head? ≠ right'.head? :=
      List.pairwise_map.mp hstands.replacement.nodup_heads
    refine hapart.imp_of_mem fun {right right'} hright hright' hne a ha ha' => hne ?_
    have heq := hstands.left.symm
    obtain ⟨member, hmember, hhead, hold⟩ := hF.exists_predicts hstart hrule hnew heq hright ha
    obtain ⟨member', hmember', hhead', hold'⟩ := hF.exists_predicts hstart hrule hnew heq hright' ha'
    rw [← hhead, ← hhead', h.eq_of_predicts hrule hmember hmember' hold hold']
  -- the members of a group were apart, so their shared start vanishes
  · obtain ⟨rule, group, hsplit⟩ := hF.exists_split hnew hleft
    have hsublist : group.Sublist rule.rights := by
      have hgroup := hsplit.group_mem
      rw [groups_eq] at hgroup
      obtain ⟨symbol, -, rfl⟩ := List.mem_map.mp hgroup
      exact List.filter_sublist
    rw [hsplit.rights, List.pairwise_map]
    refine ((h rule hsplit.rule_mem).sublist hsublist).imp_of_mem ?_
    intro right right' hright hright' hapart a ha ha'
    have h0 : StartsWith rules (sharedStart group) epsilon := by
      obtain ⟨b, hb⟩ := exists_startsWith hfirst (sharedStart group)
      by_cases hne : b = epsilon
      · exact hne ▸ hb
      · obtain ⟨rest, rfl⟩ := sharedStart_isPrefix hright
        obtain ⟨rest', rfl⟩ := sharedStart_isPrefix hright'
        have hstarts : ∀ rest, Predicts rules start rule.left (sharedStart group ++ rest) b := fun rest =>
          Or.inl ⟨startsWith_append.mpr (Or.inl ⟨hb, hne⟩), hne⟩
        exact absurd (hstarts rest') (hapart b (hstarts rest))
    exact hapart a (hF.predicts_of_remainder hstart hsplit hright h0 ha)
      (hF.predicts_of_remainder hstart hsplit hright' h0 ha')

end Factoring

/-! ## In grammars -/

namespace Grammar

variable {g : Grammar} {W : FollowSets} {nt : NonTerminal} {production : Production} {name : String}

namespace WellFormed

variable (hg : g.WellFormed)
include hg

/-- Sets of symbols have no member in common if no name is one of a member of both. -/
theorem disjoint_iff_namesIn {set set' : SymbolSet} (hset : ∀ a ∈ set, a < g.symbols.length)
    (hset' : ∀ a ∈ set', a < g.symbols.length) :
    (∀ a ∈ set, a ∉ set') ↔ ∀ name ∈ g.namesIn set, name ∉ g.namesIn set' := by
  refine ⟨?_, fun h a ha ha' => ?_⟩
  · rintro h name ⟨a, ha, hname⟩ ⟨b, hb, hname'⟩
    obtain ⟨-, rfl⟩ := nameOf_eq_ok_iff.mp hname
    obtain ⟨-, heq⟩ := nameOf_eq_ok_iff.mp hname'
    exact h a ha (hg.label_inj (hset' b hb) (hset a ha) heq ▸ hb)
  · exact h (g.label a) ⟨a, ha, nameOf_eq (hset a ha)⟩ ⟨a, ha', nameOf_eq (hset a ha)⟩

/-- A non-terminal whose FIRST set has members starts with something. -/
theorem exists_startsWith_of_ne_empty (h : ∀ nt ∈ g.nonTerminals, g.first.get? nt.index ≠ some ∅) :
    ∀ name ∈ g.namedRules.map Rule.left, ∃ a, StartsWith g.namedRules [name] a := by
  intro name hname
  obtain ⟨nt, hnt, rfl⟩ := exists_named hname
  have hset := h nt hnt
  rw [hg.get?_first hnt, ne_eq, Option.some.injEq] at hset
  have hlt : ∀ i ∈ [nt.index], i < g.symbols.length := List.forall_mem_singleton.mpr (hg.index_lt hnt)
  by_contra hnone
  refine hset (SymbolSet.ext fun a => iff_of_false (fun ha => hnone ⟨g.label a, ?_⟩) (SymbolSet.not_mem_empty a))
  exact (hg.mem_namesIn_first_index hnt).mp ⟨a, ha, nameOf_eq (hg.lt_of_mem_first hlt ha)⟩

variable (hW : W.Exact g)
include hW

/-- What a production is to be used for, by name. -/
theorem mem_namesIn_predict (hnt : nt ∈ g.nonTerminals) (hp : production ∈ nt.productions) :
    name ∈ g.namesIn (predict g.first W nt.index production) ↔
      Predicts g.namedRules (g.start.map g.label) nt.name (production.map g.label) name := by
  have hlt := hg.production_lt hnt hp
  rw [Predicts, ← hg.mem_namesIn_first hlt, ← hg.mem_namesIn_erase, ← hg.epsilon_mem_first_iff_startsWith hlt,
    ← hg.mem_namesIn_follow_index hnt hW]
  refine ⟨?_, ?_⟩
  · rintro ⟨a, ha, hname⟩
    exact (mem_predict.mp ha).imp (fun ha => ⟨a, SymbolSet.mem_erase.mpr ha, hname⟩)
      (And.imp_right fun ha => ⟨a, ha, hname⟩)
  · rintro (⟨a, ha, hname⟩ | ⟨h0, a, ha, hname⟩)
    · exact ⟨a, mem_predict.mpr (Or.inl (SymbolSet.mem_erase.mp ha)), hname⟩
    · exact ⟨a, mem_predict.mpr (Or.inr ⟨h0, ha⟩), hname⟩

/-- **A table has no conflicts if the rules have none.** -/
theorem conflicts_eq_nil_iff_rules :
    (g.namedTable g.first W).conflicts = [] ↔ ConflictFree g.namedRules (g.start.map g.label) := by
  rw [hg.conflicts_eq_nil_iff (hg.isTerminal_of_mem_claims hW)]
  refine (forall₂_congr fun nt hnt => ?_).trans List.forall_mem_map.symm
  rw [clashesAfter_claims_eq_nil_iff, List.pairwise_map]
  have hlt : ∀ {p}, p ∈ nt.productions → ∀ a ∈ predict g.first W nt.index p, a < g.symbols.length :=
    fun hp a ha => lt_of_isTerminal (hg.isTerminal_of_mem_predict hW hnt hp ha)
  refine List.Pairwise.iff_of_mem fun {p p'} hp hp' => ?_
  rw [hg.disjoint_iff_namesIn (hlt hp) (hlt hp')]
  refine forall_congr' fun name => ?_
  rw [hg.mem_namesIn_predict hW hnt hp, hg.mem_namesIn_predict hW hnt hp']

end WellFormed

/-! ## In built grammars -/

/-- **Left factoring keeps tables free of conflicts.** All the computations succeed. If no FIRST set of a non-terminal
is empty and the table has no conflicts, the table after left factoring has none. -/
theorem Built.leftFactored_conflictFree (hg : g.Built) :
    ∃ W T h V U, g.follow g.first = .ok W ∧ g.table g.first W = .ok T ∧
      g.leftFactored = .ok h ∧ h.follow h.first = .ok V ∧ h.table h.first V = .ok U ∧
        ((∀ nt ∈ g.nonTerminals, g.first.get? nt.index ≠ some ∅) → T.conflicts = [] → U.conflicts = []) := by
  have hwf := hg.wellFormed
  obtain ⟨h, hok, hh, hstart, hrules⟩ := hwf.leftFactored
  obtain ⟨W, hfollow, hW⟩ := hwf.follow_eq
  obtain ⟨V, hfollow', hV⟩ := hh.follow_eq
  refine ⟨W, _, h, V, _, hfollow, hwf.table_own hW, hok, hfollow', hh.table_own hV,
    fun hfirst hconflicts => ?_⟩
  rw [hwf.conflicts_eq_nil_iff_rules hW] at hconflicts
  rw [hh.conflicts_eq_nil_iff_rules hV, hrules, hwf.map_label_start hh hstart]
  exact hwf.factoring.conflictFree hwf.start_mem_names (hwf.exists_startsWith_of_ne_empty hfirst) hconflicts

/-- Two alternatives that share a name which can only vanish, and differ in whether anything stands behind it. -/
def silentStart : Grammar := .ofRules [⟨"S", [["A", "d"]]⟩, ⟨"A", [["X", "b"], ["X"]]⟩, ⟨"X", [["ε"]]⟩]

/-- There the fresh name has the alternatives `b` and `ε`, and no conflict arises. -/
theorem Built.leftFactored_conflictFree_silentStart :
    silentStart.Built ∧ ∃ h V U, silentStart.leftFactored = .ok h ∧ h.follow h.first = .ok V ∧
      h.table h.first V = .ok U ∧ U.conflicts = [] ∧ ∃ nt ∈ h.nonTerminals, nt.name = "A_LF1" := by
  have hbuilt : silentStart.Built := .ofRules _
  obtain ⟨W, T, h, V, U, hW, hT, hok, hV, hU, hfree⟩ := Built.leftFactored_conflictFree hbuilt
  have hconflicts : T.conflicts = [] := by
    have hknown : ((silentStart.follow silentStart.first).bind fun W => silentStart.table silentStart.first W).map
        Table.conflicts = .ok [] := by decide
    rw [hW] at hknown
    change (silentStart.table silentStart.first W).map Table.conflicts = .ok [] at hknown
    rw [hT] at hknown
    exact Except.ok.inj hknown
  refine ⟨hbuilt, h, V, U, hok, hV, hU, hfree (by decide) hconflicts, ?_⟩
  have hknown : silentStart.leftFactored.map (fun h => h.nonTerminals.map NonTerminal.name) =
      .ok ["S", "A", "A_LF1", "X"] := by decide
  rw [hok] at hknown
  have hnames : h.nonTerminals.map NonTerminal.name = ["S", "A", "A_LF1", "X"] := Except.ok.inj hknown
  apply List.mem_map.mp
  rw [hnames]
  decide

end Grammar

end PredictiveGrammar
