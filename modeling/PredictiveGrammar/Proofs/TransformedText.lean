import PredictiveGrammar.Proofs.BaseCases
import PredictiveGrammar.Proofs.LeftFactoringWords
import PredictiveGrammar.Proofs.RoundTrip

/-!
# The text of transformed grammars

A transformation makes new names by putting apostrophes, `_LF` and digits behind left sides, and puts the new
names on right sides. None of these characters is a blank, completes an arrow or is a bar. So the rules of a
grammar that was read and then transformed have names of one word without an arrow, and their text is read
back unless a bar, which is allowed in left sides, has come to stand on a right side
(`Grammar.readBack_transform_iff`).
-/

namespace PredictiveGrammar

open Text

/-! ## New names -/

/-- The characters that transformations put behind names. -/
def FreshChar (c : Char) : Prop := c ∈ "'_LF".toList ∨ c.isDigit = true

/-- The properties of names that `ε` has and that new names inherit from old ones. -/
structure Inherited (P : String → Prop) : Prop where
  /-- `ε` has the property -/
  epsilon : P epsilon
  /-- a name with more characters of the transformations has it -/
  append : ∀ {name suffix : String}, P name → (∀ c ∈ suffix.toList, FreshChar c) → P (name ++ suffix)

/-- The characters that fresh names add are neither blank nor part of the syntax. -/
theorem FreshChar.not_separates {c : Char} (h : FreshChar c) :
    isBlank c = false ∧ c ≠ '>' ∧ c ≠ '|' := by
  rcases h with h | h
  · simp at h
    rcases h with rfl | rfl | rfl | rfl <;> decide
  · have hrange : 48 ≤ c.toNat ∧ c.toNat ≤ 57 := by
      simpa [Char.isDigit, UInt32.le_iff_toNat_le] using h
    refine ⟨?_, ?_, ?_⟩
    · simp [isBlank, blankRanges]
      omega
    · rintro rfl
      cases h
    · rintro rfl
      cases h

/-- If a name can stand on a left side, so can the fresh names made of it. -/
theorem inherited_spellable : Inherited Spellable where
  epsilon := writableRight_epsilon.spellable epsilon List.mem_cons_self
  append := by
    intro name suffix h hsuffix
    constructor
    · constructor
      · simp [h.isWord.ne_nil]
      · intro c hc
        rw [String.toList_append, List.mem_append] at hc
        rcases hc with hc | hc
        · exact h.isWord.noBlank c hc
        · exact (hsuffix c hc).not_separates.1
    · rw [String.toList_append]
      intro harrow
      refine h.noArrow (harrow.of_append fun hmem => ?_)
      exact (hsuffix _ hmem).not_separates.2.1 rfl

/-- If a name has no bar, neither have the fresh names made of it. -/
theorem inherited_barless : Inherited fun name => '|' ∉ name.toList where
  epsilon := by decide
  append := by
    intro name suffix h hsuffix hmem
    rw [String.toList_append, List.mem_append] at hmem
    rcases hmem with hmem | hmem
    · exact h hmem
    · exact (hsuffix _ hmem).not_separates.2.2 rfl

namespace Inherited

variable {P : String → Prop} (hP : Inherited P) {name : String} {used : List String}
include hP

theorem mark (h : P name) : P (name ++ "'") := by
  refine hP.append h fun c hc => Or.inl ?_
  obtain rfl := List.mem_singleton.mp hc
  exact List.mem_cons_self

theorem ordinal (h : P name) (number : Nat) : P (name ++ "_LF" ++ toString number) := by
  refine hP.append (hP.append h fun c hc => Or.inl ?_) fun c hc => Or.inr ?_
  · exact List.mem_cons_of_mem _ hc
  · rw [Nat.toString_eq_ofList_toDigits, String.toList_ofList] at hc
    exact Nat.isDigit_of_mem_toDigits (by decide) (by decide) hc

/-- What is inherited goes from a name to the fresh one made of it, however many apostrophes it took. -/
theorem freshName (h : P name) : P (freshName used name) := by
  suffices hmarks : ∀ steps name, P name → P (addMarks used steps name) from hmarks used.length name h
  intro steps
  induction steps with
  | zero => exact fun _ h => h
  | succ steps ih =>
    intro name h
    rw [addMarks]
    split
    · exact ih _ (hP.mark h)
    · exact h

/-- The elimination defines inherited names only. -/
theorem left_unrollRules {rules : List Rule} (h : ∀ rule ∈ rules, P rule.left) :
    ∀ new ∈ unrollRules used rules, P new.left := by
  induction rules generalizing used with
  | nil => exact h
  | cons rule rules ih =>
    obtain ⟨hrule, h⟩ := List.forall_mem_cons.mp h
    rw [unrollRules]
    split
    · exact List.forall_mem_cons.mpr ⟨hrule, ih h⟩
    · refine List.forall_mem_cons.mpr ⟨hrule, List.forall_mem_cons.mpr ⟨?_, ih h⟩⟩
      exact hP.freshName (hP.mark hrule)

theorem left_factorGroups (h : P name) (ordinal : Nat) (groups : List (List (List String))) :
    ∀ new ∈ (factorGroups name used ordinal groups).2, P new.left := by
  induction groups generalizing used ordinal with
  | nil => exact List.forall_mem_nil _
  | cons group groups ih =>
    match group with
    | [right] => exact ih ordinal
    | [] => exact List.forall_mem_cons.mpr ⟨hP.freshName (hP.ordinal h ordinal), ih (ordinal + 1)⟩
    | first :: second :: rest =>
      exact List.forall_mem_cons.mpr ⟨hP.freshName (hP.ordinal h ordinal), ih (ordinal + 1)⟩

/-- Factoring defines inherited names only. -/
theorem left_factorRules {rules : List Rule} (h : ∀ rule ∈ rules, P rule.left) :
    ∀ new ∈ factorRules used rules, P new.left := by
  induction rules generalizing used with
  | nil => exact h
  | cons rule rules ih =>
    obtain ⟨hrule, h⟩ := List.forall_mem_cons.mp h
    rw [factorRules]
    refine List.forall_mem_cons.mpr ⟨hrule, fun new hnew => ?_⟩
    rcases List.mem_append.mp hnew with hnew | hnew
    · exact hP.left_factorGroups hrule 1 _ new hnew
    · exact ih h new hnew

end Inherited

/-! ## Transformed rules -/

/-- A rule with alternatives, all of whose names have a property. -/
structure Rule.Named (P : String → Prop) (rule : Rule) : Prop where
  /-- it has an alternative -/
  inhabited : rule.rights ≠ []
  /-- its left side has the property -/
  left : P rule.left
  /-- every alternative has symbols, and their names have the property -/
  rights : ∀ right ∈ rule.rights, right ≠ [] ∧ ∀ name ∈ right, P name

/-- Rules are writable if their names are one word without an arrow, and without a bar on the right. -/
theorem Rule.writable_iff_named {rule : Rule} : rule.Writable ↔
    rule.Named Spellable ∧ ∀ right ∈ rule.rights, ∀ name ∈ right, '|' ∉ name.toList := by
  constructor
  · intro h
    refine ⟨⟨h.inhabited, h.left, fun right hright => ?_⟩, fun right hright => ?_⟩
    · exact ⟨(h.rights right hright).inhabited, (h.rights right hright).spellable⟩
    · exact (h.rights right hright).noBar
  · rintro ⟨h, hbar⟩
    refine ⟨h.inhabited, h.left, fun right hright => ?_⟩
    exact ⟨(h.rights right hright).1, (h.rights right hright).2, hbar right hright⟩

section Named

variable {P : String → Prop} {rule : Rule}

theorem forall_mem_append_singleton {start : List String} {name : String} (hstart : ∀ n ∈ start, P n)
    (hname : P name) : start ++ [name] ≠ [] ∧ ∀ n ∈ start ++ [name], P n := by
  refine ⟨by simp, List.forall_mem_append.mpr ⟨hstart, ?_⟩⟩
  exact List.forall_mem_singleton.mpr hname

/-- The entry of a rule with loops holds inherited names only, if the rule and the fresh name do. -/
theorem Rule.Named.entry (h : rule.Named P) {name : String} (hname : P name) :
    (rule.entry name).Named P where
  inhabited := by
    cases hbases : rule.bases with
    | nil => exact List.ne_nil_of_mem (Rule.mem_rights_entry.mpr ⟨[], Or.inr ⟨hbases, rfl⟩, rfl⟩)
    | cons base _ =>
      have hbase : base ∈ rule.bases := hbases ▸ List.mem_cons_self
      exact List.ne_nil_of_mem (Rule.mem_rights_entry.mpr ⟨base, Or.inl hbase, rfl⟩)
  left := h.left
  rights := by
    intro right hright
    obtain ⟨base, hbase | ⟨-, rfl⟩, rfl⟩ := Rule.mem_rights_entry.mp hright
    · exact forall_mem_append_singleton (h.rights base (Rule.mem_bases.mp hbase).1).2 hname
    · exact forall_mem_append_singleton (List.forall_mem_nil _) hname

/-- So does the fresh rule of its loops. -/
theorem Rule.Named.loop (hepsilon : P epsilon) (h : rule.Named P) {name : String} (hname : P name) :
    (rule.loop name).Named P where
  inhabited := List.ne_nil_of_mem (Rule.mem_rights_loop.mpr (Or.inr rfl))
  left := hname
  rights := by
    intro right hright
    rcases Rule.mem_rights_loop.mp hright with ⟨loop, hmem, rfl⟩ | rfl
    · obtain ⟨rest, hrest, rfl⟩ := Rule.mem_loops.mp hmem
      refine forall_mem_append_singleton ?_ hname
      split
      · exact List.forall_mem_singleton.mpr hepsilon
      · exact (List.forall_mem_cons.mp (h.rights _ hrest).2).2
    · exact ⟨List.cons_ne_nil _ _, List.forall_mem_singleton.mpr hepsilon⟩

variable {entry : Rule} {fresh : List Rule}

theorem Unrolled.named (hepsilon : P epsilon) (h : Unrolled rule entry fresh) (hrule : rule.Named P)
    (hfresh : ∀ new ∈ fresh, P new.left) : ∀ new ∈ entry :: fresh, new.Named P := by
  cases h with
  | keep => exact List.forall_mem_singleton.mpr hrule
  | unroll name =>
    have hname : P name := hfresh _ List.mem_cons_self
    refine List.forall_mem_cons.mpr ⟨hrule.entry hname, ?_⟩
    exact List.forall_mem_singleton.mpr (hrule.loop hepsilon hname)

theorem addToGroup_ne_nil {symbol : String} {right : List String}
    {groups : List (String × List (List String))} (h : ∀ e ∈ groups, e.2 ≠ []) :
    ∀ e ∈ addToGroup symbol right groups, e.2 ≠ [] := by
  induction groups with
  | nil => exact List.forall_mem_singleton.mpr (List.cons_ne_nil right [])
  | cons e groups ih =>
    obtain ⟨he, h⟩ := List.forall_mem_cons.mp h
    rw [addToGroup]
    split
    · exact List.forall_mem_cons.mpr ⟨by simp, h⟩
    · exact List.forall_mem_cons.mpr ⟨he, ih h⟩

/-- No group is empty. -/
theorem groupByHead_ne_nil (rights : List (List String)) : ∀ e ∈ groupByHead rights, e.2 ≠ [] := by
  refine List.foldlRecOn
    (motive := fun groups : List (String × List (List String)) => ∀ e ∈ groups, e.2 ≠ [])
    rights _ (List.forall_mem_nil _) ?_
  intro groups hgroups right _
  cases right with
  | nil => exact hgroups
  | cons symbol rest => exact addToGroup_ne_nil hgroups

/-- Groups hold names of the rule. -/
theorem Rule.Named.of_mem_group (h : rule.Named P) {group : List (List String)} {right : List String}
    (hgroup : group ∈ (groupByHead rule.rights).map (·.2)) (hright : right ∈ group) :
    ∀ n ∈ right, P n :=
  (h.rights right (mem_rights_of_mem_group hgroup hright)).2

/-- The rule in the place of a factored one holds alternatives of it, or their starts before fresh names. -/
theorem Factored.named_entry (h : Factored rule entry fresh) (hleft : entry.left = rule.left)
    (hrule : rule.Named P) (hfresh : ∀ new ∈ fresh, P new.left) : entry.Named P where
  inhabited := by
    obtain ⟨right, hright⟩ := List.exists_mem_of_ne_nil _ hrule.inhabited
    obtain ⟨group, hgroup, hmem⟩ := exists_group_of_mem_rights hright (hrule.rights right hright).1
    rcases FactoredGroups.mem_or_factored h hgroup hmem with hkept | ⟨name, hname, -⟩
    · exact List.ne_nil_of_mem hkept
    · exact List.ne_nil_of_mem hname
  left := hleft ▸ hrule.left
  rights := by
    intro right hright
    obtain ⟨group, hgroup, hmem | ⟨-, name, rfl, hname⟩⟩ := FactoredGroups.exists_of_mem_rights h hright
    · exact ⟨h.inhabited entry List.mem_cons_self right hright, hrule.of_mem_group hgroup hmem⟩
    · refine forall_mem_append_singleton (fun n hn => ?_) (hfresh _ hname)
      obtain ⟨right, hmem, hn⟩ := exists_of_mem_sharedStart hn
      exact hrule.of_mem_group hgroup hmem n hn

/-- The rule of a fresh name holds remainders of alternatives. -/
theorem Factored.named_fresh (hepsilon : P epsilon) (h : Factored rule entry fresh) (hrule : rule.Named P)
    {new : Rule} (hnew : new ∈ fresh) (hleft : P new.left) : new.Named P := by
  obtain ⟨group, hgroup, -, hrights⟩ := FactoredGroups.exists_of_mem_fresh h hnew
  constructor
  · obtain ⟨e, he, rfl⟩ := List.mem_map.mp hgroup
    simpa [hrights] using groupByHead_ne_nil rule.rights e he
  · exact hleft
  · intro right hright
    refine ⟨h.inhabited new (List.mem_cons_of_mem entry hnew) right hright, fun n hn => ?_⟩
    rw [hrights] at hright
    obtain ⟨member, hmember, rfl⟩ := List.mem_map.mp hright
    rcases mem_of_mem_remainder hn with rfl | hn
    · exact hepsilon
    · exact hrule.of_mem_group hgroup hmember n hn

theorem Factored.named (hepsilon : P epsilon) (h : Factored rule entry fresh)
    (hleft : entry.left = rule.left) (hrule : rule.Named P) (hfresh : ∀ new ∈ fresh, P new.left) :
    ∀ new ∈ entry :: fresh, new.Named P := by
  refine List.forall_mem_cons.mpr ⟨h.named_entry hleft hrule hfresh, fun new hnew => ?_⟩
  exact h.named_fresh hepsilon hrule hnew (hfresh new hnew)

/-- Replacement keeps a property of all names if the single replacements do. -/
theorem Replaced.named {Local : LocalReplacement} {used : List String} {rules rules' : List Rule}
    (h : Replaced Local used rules rules') (hrules : ∀ rule ∈ rules, rule.Named P)
    (hlefts : ∀ new ∈ rules', P new.left)
    (hlocal : ∀ rule entry fresh, Local rule entry fresh → entry.left = rule.left → rule.Named P →
      (∀ new ∈ fresh, P new.left) → ∀ new ∈ entry :: fresh, new.Named P) :
    ∀ new ∈ rules', new.Named P := by
  intro new hnew
  obtain ⟨rule, hrule, entry, fresh, hstands, horigin⟩ := h.exists_of_mem_result hnew
  have hfresh : ∀ other ∈ fresh, P other.left :=
    fun other hother => hlefts other (hstands.subset (List.mem_cons_of_mem entry hother))
  apply hlocal rule entry fresh hstands.replacement hstands.left (hrules rule hrule) hfresh
  exact List.mem_cons.mpr horigin

end Named

namespace Grammar

variable {g : Grammar}

/-- One transformation keeps the names. -/
theorem WellFormed.apply_named (hg : g.WellFormed) (step : Transformation) :
    ∃ h, step.apply g = .ok h ∧ h.WellFormed ∧ ∀ P, Inherited P →
      (∀ rule ∈ g.namedRules, rule.Named P) → ∀ rule ∈ h.namedRules, rule.Named P := by
  cases step with
  | eliminateLeftRecursion =>
    obtain ⟨h, heq, hwf, -, hrules⟩ := hg.withoutLeftRecursion
    refine ⟨h, heq, hwf, fun P hP hnamed => ?_⟩
    rw [hrules]
    apply (unrollRules_replaced g.names g.namedRules).named hnamed
    · exact hP.left_unrollRules fun rule hrule => (hnamed rule hrule).left
    · exact fun _ _ _ hlocal _ => hlocal.named hP.epsilon
  | factorLeft =>
    obtain ⟨h, heq, hwf, -, hrules⟩ := hg.leftFactored
    refine ⟨h, heq, hwf, fun P hP hnamed => ?_⟩
    rw [hrules]
    apply (factorRules_replaced g.names g.namedRules).named hnamed
    · exact hP.left_factorRules fun rule hrule => (hnamed rule hrule).left
    · exact fun _ _ _ hlocal => hlocal.named hP.epsilon

/-- **Any sequence of transformations keeps the names.** -/
theorem WellFormed.transform_named (hg : g.WellFormed) (steps : List Transformation) :
    ∃ h, g.transform steps = .ok h ∧ h.WellFormed ∧ ∀ P, Inherited P →
      (∀ rule ∈ g.namedRules, rule.Named P) → ∀ rule ∈ h.namedRules, rule.Named P := by
  induction steps generalizing g with
  | nil => exact ⟨g, rfl, hg, fun _ _ hnamed => hnamed⟩
  | cons step steps ih =>
    obtain ⟨h, heq, hwf, hstep⟩ := hg.apply_named step
    obtain ⟨k, hrun, hwf', hsteps⟩ := ih hwf
    exact ⟨k, (transform_cons heq steps).trans hrun, hwf', fun P hP hnamed => hsteps P hP (hstep P hP hnamed)⟩

/-- **The text of a transformed grammar is read back exactly if no bar stands on a right side**, and none does
if the grammar that was read had no bar in a left side. -/
theorem readBack_transform_iff {text : String} (h : Grammar.parse text = .ok g)
    (steps : List Transformation) :
    ∃ k written, g.transform steps = .ok k ∧ k.rules = .ok written ∧
      (ReadBack written ↔ ∀ rule ∈ written, ∀ right ∈ rule.rights, ∀ name ∈ right, '|' ∉ name.toList) ∧
      ((∀ nt ∈ g.nonTerminals, '|' ∉ nt.name.toList) → ReadBack written) := by
  have hwritable := Grammar.writable_of_parse h
  obtain ⟨k, hrun, hwf, hnames⟩ := (Built.parse h).wellFormed.transform_named steps
  have hspellable := hnames Spellable inherited_spellable fun rule hrule =>
    (Rule.writable_iff_named.mp (hwritable rule hrule)).1
  have hiff : ReadBack k.namedRules ↔
      ∀ rule ∈ k.namedRules, ∀ right ∈ rule.rights, ∀ name ∈ right, '|' ∉ name.toList := by
    rw [hwf.tidy.readBack_iff]
    refine forall₂_congr fun rule hrule => ?_
    rw [Rule.writable_iff_named, and_iff_right (hspellable rule hrule)]
  refine ⟨k, k.namedRules, hrun, hwf.rules_eq, hiff, fun hlefts => hiff.mpr ?_⟩
  have hbarless := hnames _ inherited_barless fun rule hrule => by
    obtain ⟨nt, hnt, hname, -⟩ := mem_namedRules.mp hrule
    have hrule := hwritable rule hrule
    refine ⟨hrule.inhabited, hname ▸ hlefts nt hnt, fun right hright => ?_⟩
    exact ⟨(hrule.rights right hright).inhabited, (hrule.rights right hright).noBar⟩
  exact fun rule hrule right hright => ((hbarless rule hrule).rights right hright).2

/-- Both transformations, and the rules of the result are read back from its text. -/
theorem readBack_transform_itemLists :
    ∃ g k written, Grammar.parse "list -> list , item | item\nitem -> x y | x z" = .ok g ∧
      g.transform [.eliminateLeftRecursion, .factorLeft] = .ok k ∧ k.rules = .ok written ∧
      ReadBack written := by
  have hparse : Grammar.parse "list -> list , item | item\nitem -> x y | x z" =
      .ok (.ofRules [⟨"list", [["list", ",", "item"], ["item"]]⟩, ⟨"item", [["x", "y"], ["x", "z"]]⟩]) := by
    decide
  obtain ⟨k, written, hrun, hrules, -, hread⟩ :=
    readBack_transform_iff hparse [.eliminateLeftRecursion, .factorLeft]
  exact ⟨_, k, written, hparse, hrun, hrules, hread (by decide)⟩

/-- A left side with a bar. Factoring puts its name on a right side, where the bar separates alternatives. -/
theorem not_readBack_barredLeft :
    ∃ g k written, Grammar.parse "a|b -> c d | c e" = .ok g ∧ g.transform [.factorLeft] = .ok k ∧
      k.rules = .ok written ∧ ¬ReadBack written := by
  refine ⟨.ofRules [⟨"a|b", [["c", "d"], ["c", "e"]]⟩],
    .ofRules [⟨"a|b", [["c", "a|b_LF1"]]⟩, ⟨"a|b_LF1", [["d"], ["e"]]⟩],
    [⟨"a|b", [["c", "a|b_LF1"]]⟩, ⟨"a|b_LF1", [["d"], ["e"]]⟩], by decide, by decide, by decide, ?_⟩
  rintro ⟨g, hparse, hrules⟩
  have hcut : Grammar.parse (Rules.toPlain [⟨"a|b", [["c", "a|b_LF1"]]⟩, ⟨"a|b_LF1", [["d"], ["e"]]⟩]) =
      .ok (.ofRules [⟨"a|b", [["c", "a"], ["b_LF1"]]⟩, ⟨"a|b_LF1", [["d"], ["e"]]⟩]) := by decide
  rw [hcut, Except.ok.injEq] at hparse
  subst hparse
  exact absurd hrules (by decide)

end Grammar

end PredictiveGrammar
