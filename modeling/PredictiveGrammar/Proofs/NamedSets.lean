import Mathlib.Data.Set.Basic
import PredictiveGrammar.Proofs.NamedWords
import PredictiveGrammar.Proofs.ParserHalts

/-!
# FIRST and FOLLOW of rules

What a list of names can start with under rules (`StartsWith`) and what can follow a left side (`FollowedBy`), with no
indices and no sets. For the rules of a well-formed grammar these are the names of the members of FIRST and FOLLOW
(`Grammar.WellFormed.mem_namesIn_first`, `Grammar.WellFormed.mem_namesIn_follow`), so the sets of two grammars with
different symbols can be compared on their rules. Rules under which the alternatives of other rules start with nothing
that their left sides do not start with, start with at least as much as the others (`StartsWith.transfer`).
-/

namespace PredictiveGrammar

/-- What a list of names can start with under the rules; `ε` if the list can vanish. -/
inductive StartsWith (rules : List Rule) : List String → String → Prop
  /-- no name is left -/
  | nil : StartsWith rules [] epsilon
  /-- `ε` in front says nothing -/
  | silent {s : List String} {a : String} : StartsWith rules s a → StartsWith rules (epsilon :: s) a
  /-- a name that is not a left side stands for itself -/
  | terminal {name : String} {s : List String} : name ≠ epsilon → name ∉ rules.map Rule.left →
      StartsWith rules (name :: s) name
  /-- a left side starts with what one of its alternatives starts with -/
  | expand {rule : Rule} {right s : List String} {a : String} : rule ∈ rules → right ∈ rule.rights →
      a ≠ epsilon → StartsWith rules right a → StartsWith rules (rule.left :: s) a
  /-- a left side that can vanish lets through what stands behind it -/
  | skip {rule : Rule} {right s : List String} {a : String} : rule ∈ rules → right ∈ rule.rights →
      StartsWith rules right epsilon → StartsWith rules s a → StartsWith rules (rule.left :: s) a

/-- What can follow a left side under the rules, where the start symbol may have a name. -/
inductive FollowedBy (rules : List Rule) (start : Option String) : String → String → Prop
  /-- the end mark follows the start symbol -/
  | start {name : String} : start = some name → FollowedBy rules start name endMark
  /-- what stands behind the left side in an alternative starts with this -/
  | next {rule : Rule} {before rest : List String} {name a : String} : rule ∈ rules →
      before ++ name :: rest ∈ rule.rights → name ∈ rules.map Rule.left → a ≠ epsilon →
      StartsWith rules rest a → FollowedBy rules start name a
  /-- what stands behind it can vanish, and this follows the left side of the alternative -/
  | outer {rule : Rule} {before rest : List String} {name a : String} : rule ∈ rules →
      before ++ name :: rest ∈ rule.rights → name ∈ rules.map Rule.left → StartsWith rules rest epsilon →
      FollowedBy rules start rule.left a → FollowedBy rules start name a

variable {rules rules' : List Rule} {rule : Rule} {s t right rest : List String} {name a : String}

/-! ## Starts of concatenations -/

namespace StartsWith

theorem eq_epsilon_of_nil (h : StartsWith rules [] a) : a = epsilon := by
  cases h
  rfl

/-- A left side starts with what an alternative of it starts with. -/
theorem single (hrule : rule ∈ rules) (hright : right ∈ rule.rights) (h : StartsWith rules right a) :
    StartsWith rules [rule.left] a := by
  by_cases h0 : a = epsilon
  · subst h0
    exact .skip hrule hright h .nil
  · exact .expand hrule hright h0 h

end StartsWith

theorem startsWith_nil : StartsWith rules [] a ↔ a = epsilon :=
  ⟨StartsWith.eq_epsilon_of_nil, fun h => h ▸ .nil⟩

/-- **What a form starts with** is what its first name starts with, and what the rest does if the first name can vanish.
-/
theorem startsWith_cons :
    StartsWith rules (name :: s) a ↔
      StartsWith rules [name] a ∧ a ≠ epsilon ∨ StartsWith rules [name] epsilon ∧ StartsWith rules s a := by
  refine ⟨fun h => ?_, ?_⟩
  -- the first name goes on with something, or vanishes
  · cases h with
    | silent h => exact Or.inr ⟨.silent .nil, h⟩
    | terminal hne hleft => exact Or.inl ⟨.terminal hne hleft, hne⟩
    | expand hrule hright hne h => exact Or.inl ⟨.expand hrule hright hne h, hne⟩
    | skip hrule hright h0 h => exact Or.inr ⟨.skip hrule hright h0 .nil, h⟩
  · rintro (⟨h, hne⟩ | ⟨h0, h⟩)
    -- something in front stays in front, whatever is put behind it
    · cases h with
      | silent h => exact absurd h.eq_epsilon_of_nil hne
      | terminal hne hleft => exact .terminal hne hleft
      | expand hrule hright hne h => exact .expand hrule hright hne h
      | skip _ _ _ h => exact absurd h.eq_epsilon_of_nil hne
    -- a first name that vanishes does so whatever is behind it
    · generalize hform : [name] = form at h0
      generalize hzero : epsilon = zero at h0
      cases h0 with
      | nil => cases hform
      | silent =>
        obtain ⟨rfl, -⟩ := List.cons.inj hform
        exact .silent h
      | terminal hne =>
        exact absurd hzero.symm hne
      | expand _ _ hne => exact absurd hzero.symm hne
      | skip hrule hright h0 =>
        obtain ⟨rfl, -⟩ := List.cons.inj hform
        exact .skip hrule hright h0 h

/-- **What a concatenation starts with**: what its first part starts with and, if that can vanish, what the second
does. -/
theorem startsWith_append :
    StartsWith rules (s ++ t) a ↔
      StartsWith rules s a ∧ a ≠ epsilon ∨ StartsWith rules s epsilon ∧ StartsWith rules t a := by
  induction s with
  | nil => simp [startsWith_nil]
  | cons name s ih =>
    rw [List.cons_append, startsWith_cons, ih, startsWith_cons (s := s), startsWith_cons (s := s) (a := epsilon)]
    by_cases h0 : a = epsilon
    · simp [h0, and_assoc]
    · simp [h0, and_or_left, and_assoc, or_assoc]

/-- Exchanging a middle part for one that starts with more. -/
theorem StartsWith.middle {before after p q : List String}
    (hmore : ∀ a, StartsWith rules p a → StartsWith rules q a) (h : StartsWith rules (before ++ p ++ after) a) :
    StartsWith rules (before ++ q ++ after) a := by
  rw [startsWith_append, startsWith_append, startsWith_append] at h ⊢
  exact h.imp (And.imp_left (Or.imp_right (And.imp_right (hmore _))))
    (And.imp_left (Or.imp_right (And.imp_right (hmore _))))

/-- A name alone is `ε`, stands for itself, or starts with what an alternative of it starts with. -/
theorem startsWith_single (h : StartsWith rules [name] a) :
    name = epsilon ∧ a = epsilon ∨ a = name ∧ name ∉ rules.map Rule.left ∨
      ∃ rule ∈ rules, rule.left = name ∧ ∃ right ∈ rule.rights, StartsWith rules right a := by
  cases h with
  | silent h => exact Or.inl ⟨rfl, h.eq_epsilon_of_nil⟩
  | terminal _ hleft => exact Or.inr (Or.inl ⟨rfl, hleft⟩)
  | expand hrule hright _ h => exact Or.inr (Or.inr ⟨_, hrule, rfl, _, hright, h⟩)
  | skip hrule hright h0 h =>
    obtain rfl := h.eq_epsilon_of_nil
    exact Or.inr (Or.inr ⟨_, hrule, rfl, _, hright, h0⟩)

/-- **In tidy rules a left side starts with what its alternatives start with.** -/
theorem Tidy.startsWith_left (hr : Tidy rules) (hrule : rule ∈ rules) :
    StartsWith rules [rule.left] a ↔ ∃ right ∈ rule.rights, StartsWith rules right a := by
  refine ⟨fun h => ?_, fun ⟨right, hright, h⟩ => .single hrule hright h⟩
  rcases startsWith_single h with ⟨heq, -⟩ | ⟨-, hnot⟩ | ⟨other, hother, hleft, hrights⟩
  · exact absurd (heq ▸ List.mem_cons_self) (hr.unreserved rule hrule)
  · exact absurd (List.mem_map_of_mem hrule) hnot
  · exact hr.rule_ext hother hrule hleft ▸ hrights

/-- What stands before a left side is followed by one of its alternatives. -/
theorem Tidy.startsWith_append_left (hr : Tidy rules) (hrule : rule ∈ rules) (hne : rule.rights ≠ []) :
    StartsWith rules (s ++ [rule.left]) a ↔ ∃ right ∈ rule.rights, StartsWith rules (s ++ right) a := by
  simp only [startsWith_append, hr.startsWith_left hrule]
  refine ⟨?_, ?_⟩
  · rintro (hstart | ⟨h0, right, hright, h⟩)
    · obtain ⟨right, hright⟩ := List.exists_mem_of_ne_nil _ hne
      exact ⟨right, hright, Or.inl hstart⟩
    · exact ⟨right, hright, Or.inr ⟨h0, h⟩⟩
  · rintro ⟨right, hright, hstart | ⟨h0, h⟩⟩
    · exact Or.inl hstart
    · exact Or.inr ⟨h0, right, hright, h⟩

/-- An alternative that stands for the empty word adds nothing. -/
theorem startsWith_append_spelled (hleft : epsilon ∉ rules.map Rule.left) :
    StartsWith rules (s ++ spelled rest) a ↔ StartsWith rules (s ++ rest) a := by
  rw [startsWith_append, startsWith_append]
  cases rest with
  | nil =>
    refine or_congr_right (and_congr_right fun _ => ⟨fun h => ?_, fun h => .silent h⟩)
    rcases startsWith_cons.mp h with ⟨h, hne⟩ | ⟨-, h⟩
    · rcases startsWith_single h with ⟨-, h0⟩ | ⟨h0, -⟩ | ⟨rule, hrule, heq, -⟩
      · exact absurd h0 hne
      · exact absurd h0 hne
      · exact absurd (heq ▸ List.mem_map_of_mem hrule) hleft
    · exact h
  | cons => rfl

/-- An empty alternative starts with what `ε` does. -/
theorem startsWith_spelled (hleft : epsilon ∉ rules.map Rule.left) :
    StartsWith rules (spelled s) a ↔ StartsWith rules s a :=
  startsWith_append_spelled (s := []) hleft

/-! ## Comparing rules -/

/-- **Rules that allow for the alternatives of other rules** start with whatever the others start with. -/
theorem StartsWith.transfer (hlefts : rules'.map Rule.left ⊆ rules.map Rule.left)
    (hallows : ∀ rule ∈ rules, ∀ right ∈ rule.rights, ∀ a, StartsWith rules' right a → StartsWith rules' [rule.left] a)
    (h : StartsWith rules s a) : StartsWith rules' s a := by
  induction h with
  | nil => exact .nil
  | silent _ ih => exact .silent ih
  | terminal hne hleft => exact .terminal hne fun hmem => hleft (hlefts hmem)
  | expand hrule hright hne _ ih => exact startsWith_cons.mpr (Or.inl ⟨hallows _ hrule _ hright _ ih, hne⟩)
  | skip hrule hright _ _ ih0 ih => exact startsWith_cons.mpr (Or.inr ⟨hallows _ hrule _ hright _ ih0, ih⟩)

/-- Rules for names that no other rule mentions change nothing for used names. -/
theorem startsWith_append_rules {used : List String} {extra : List Rule}
    (hright : ∀ rule ∈ rules, ∀ right ∈ rule.rights, ∀ n ∈ right, n ∈ used)
    (hextra : ∀ rule ∈ extra, rule.left ∉ used) (hs : ∀ n ∈ s, n ∈ used) :
    StartsWith (rules ++ extra) s a ↔ StartsWith rules s a := by
  have hlefts : ∀ n ∈ used, n ∈ (rules ++ extra).map Rule.left ↔ n ∈ rules.map Rule.left := by
    intro n hn
    rw [List.map_append, List.mem_append, or_iff_left]
    intro hmem
    obtain ⟨rule, hrule, rfl⟩ := List.mem_map.mp hmem
    exact hextra rule hrule hn
  have hrules : ∀ rule ∈ rules ++ extra, rule.left ∈ used → rule ∈ rules := fun rule hrule hused =>
    (List.mem_append.mp hrule).resolve_right fun hmem => hextra rule hmem hused
  refine ⟨fun h => ?_, fun h => ?_⟩
  -- every name that comes up is a used one, so no rule of the extra ones is for it
  · induction h with
    | nil => exact .nil
    | silent _ ih => exact .silent (ih (List.forall_mem_cons.mp hs).2)
    | terminal hne hleft =>
      exact .terminal hne fun hmem => hleft ((hlefts _ (hs _ List.mem_cons_self)).mpr hmem)
    | expand hrule hmem hne _ ih =>
      have hold := hrules _ hrule (hs _ List.mem_cons_self)
      exact .expand hold hmem hne (ih (hright _ hold _ hmem))
    | skip hrule hmem _ _ ih0 ih =>
      have hold := hrules _ hrule (hs _ List.mem_cons_self)
      exact .skip hold hmem (ih0 (hright _ hold _ hmem)) (ih (List.forall_mem_cons.mp hs).2)
  -- all rules are still there, and no used name becomes a left side
  · induction h with
    | nil => exact .nil
    | silent _ ih => exact .silent (ih (List.forall_mem_cons.mp hs).2)
    | terminal hne hleft =>
      exact .terminal hne fun hmem => hleft ((hlefts _ (hs _ List.mem_cons_self)).mp hmem)
    | expand hrule hmem hne _ ih =>
      exact .expand (List.mem_append_left _ hrule) hmem hne (ih (hright _ hrule _ hmem))
    | skip hrule hmem _ _ ih0 ih =>
      exact .skip (List.mem_append_left _ hrule) hmem (ih0 (hright _ hrule _ hmem))
        (ih (List.forall_mem_cons.mp hs).2)

/-! ## FIRST and FOLLOW of a grammar -/

namespace Grammar

/-- The names of the members of a set. -/
def namesIn (g : Grammar) (set : SymbolSet) : Set String := {name | ∃ a ∈ set, g.nameOf a = .ok name}

/-- Both grammars have a set, and the names of the members are the same. -/
def SameNames (g h : Grammar) (set set' : Option SymbolSet) : Prop :=
  ∃ members ∈ set, ∃ members' ∈ set', g.namesIn members = h.namesIn members'

variable {g h : Grammar} {W V : FollowSets} {nt nt' : NonTerminal} {s t : List Nat} {a B : Nat}

/-- A non-terminal of a grammar that has a rule for the name. -/
theorem exists_named (hname : name ∈ g.namedRules.map Rule.left) : ∃ nt ∈ g.nonTerminals, nt.name = name := by
  rw [lefts_namedRules] at hname
  exact List.mem_map.mp hname

theorem name_mem_lefts (hnt : nt ∈ g.nonTerminals) : nt.name ∈ g.namedRules.map Rule.left := by
  rw [lefts_namedRules]
  exact List.mem_map_of_mem hnt

namespace WellFormed

variable (hg : g.WellFormed)
include hg

/-! ### FIRST -/

/-- A production, by name. -/
theorem mem_rights_of_mem_productions (hnt : nt ∈ g.nonTerminals) {production : Production}
    (hp : production ∈ nt.productions) :
    ∃ rule ∈ g.namedRules, rule.left = g.label nt.index ∧ production.map g.label ∈ rule.rights :=
  ⟨⟨nt.name, nt.productions.map (·.map g.label)⟩, List.mem_map.mpr ⟨nt, hnt, rfl⟩, (hg.label_index hnt).symm,
    List.mem_map_of_mem hp⟩

/-- What a form starts with, so does every form that derives it. -/
theorem startsWith_of_derives (h : g.Derives s t) (ht : StartsWith g.namedRules (t.map g.label) name) :
    StartsWith g.namedRules (s.map g.label) name := by
  induction h with
  | refl => exact ht
  | tail _ step ih =>
    obtain ⟨before, after, hnt, hp⟩ := step
    apply ih
    obtain ⟨rule, hrule, hleft, hright⟩ := hg.mem_rights_of_mem_productions hnt hp
    rw [List.map_append, List.map_append] at ht
    have hmiddle := ht.middle (q := [rule.left]) fun _ => .single hrule hright
    rwa [hleft, List.append_assoc, List.singleton_append, ← List.map_cons, ← List.map_append] at hmiddle

theorem startsWith_epsilon_of_visible (h : visible s = []) :
    StartsWith g.namedRules (s.map g.label) PredictiveGrammar.epsilon := by
  induction s with
  | nil => exact .nil
  | cons b s ih =>
    have hall := visible_eq_nil_iff.mp h
    obtain rfl : b = epsilonIndex := hall b List.mem_cons_self
    rw [List.map_cons, hg.label_epsilon]
    exact .silent (ih (visible_eq_nil_iff.mpr fun c hc => hall c (List.mem_cons_of_mem _ hc)))

/-- What a form can begin with by derivations, it starts with by rules. -/
theorem startsWith_of_begins (ha : g.isTerminal a) (h : g.Begins s a) :
    StartsWith g.namedRules (s.map g.label) (g.label a) := by
  obtain ⟨t, rest, hderives, hvisible⟩ := h
  refine hg.startsWith_of_derives hderives ?_
  have hsplit : visible t = [] ++ a :: rest := hvisible
  obtain ⟨before, after, rfl, hnone, -⟩ := exists_of_visible_eq hsplit
  rw [List.map_append]
  refine startsWith_append.mpr (Or.inr ⟨hg.startsWith_epsilon_of_visible hnone, ?_⟩)
  have hlt := lt_of_isTerminal ha
  exact .terminal (hg.label_ne_epsilon hlt (hg.ne_epsilon_of_isTerminal ha))
    fun hleft => not_isNonTerminal_of_isTerminal ha ((hg.mem_lefts_iff hlt).mp hleft)

/-- Members of FIRST are names that the form starts with. -/
theorem startsWith_of_mem_first (hs : ∀ i ∈ s, i < g.symbols.length) (h : a ∈ g.first.ofSequence s) :
    StartsWith g.namedRules (s.map g.label) (g.label a) := by
  by_cases h0 : a = epsilonIndex
  · subst h0
    obtain ⟨t, ht, hnone⟩ := (hg.epsilon_mem_first_iff hs).mp h
    rw [hg.label_epsilon]
    exact hg.startsWith_of_derives ht (hg.startsWith_epsilon_of_visible hnone)
  · have ha := hg.isTerminal_of_mem_first hs h h0
    exact hg.startsWith_of_begins ha ((hg.mem_first_iff hs ha).mp h)

theorem lt_of_mem_first (hs : ∀ i ∈ s, i < g.symbols.length) (h : a ∈ g.first.ofSequence s) :
    a < g.symbols.length := by
  by_cases h0 : a = epsilonIndex
  · exact h0 ▸ hg.epsilon_lt
  · exact lt_of_isTerminal (hg.isTerminal_of_mem_first hs h h0)

/-- A left side that is the name of a symbol, with the production that an alternative stands for. -/
theorem exists_production_of_mem_rights (hB : B < g.symbols.length) (hrule : rule ∈ g.namedRules)
    (hright : right ∈ rule.rights) (hname : g.label B = rule.left) :
    ∃ nt ∈ g.nonTerminals, nt.index = B ∧ ∃ production ∈ nt.productions, production.map g.label = right := by
  obtain ⟨nt, hnt, hleft, hrights⟩ := mem_namedRules.mp hrule
  rw [← hleft, ← hg.label_index hnt] at hname
  rw [← hrights, List.mem_map] at hright
  exact ⟨nt, hnt, (hg.label_inj hB (hg.index_lt hnt) hname).symm, hright⟩

/-- What an alternative starts with is in FIRST of its left side. -/
theorem mem_first_of_mem_production (hnt : nt ∈ g.nonTerminals) {production : Production}
    (hp : production ∈ nt.productions) (h : a ∈ g.first.ofSequence production) : a ∈ g.first.getD nt.index :=
  (FirstSets.mem_ofSequence_singleton (hg.length_first ▸ hg.index_lt hnt)).mp
    (hg.first_production_subset hnt hp a h)

/-- Every name that the form starts with is that of a member of FIRST. -/
theorem exists_mem_first_of_startsWith (hs : ∀ i ∈ s, i < g.symbols.length)
    (h : StartsWith g.namedRules (s.map g.label) name) : ∃ a ∈ g.first.ofSequence s, g.label a = name := by
  generalize hform : s.map g.label = form at h
  induction h generalizing s with
  | nil =>
    obtain rfl := List.map_eq_nil_iff.mp hform
    exact ⟨epsilonIndex, FirstSets.mem_ofSequence_nil.mpr rfl, hg.label_epsilon⟩
  -- a name `ε` is that of the symbol `ε`, which can vanish
  | silent _ ih =>
    obtain ⟨b, s, rfl, hb, rfl⟩ := List.map_eq_cons_iff.mp hform
    have h0 : b = epsilonIndex := by
      rw [← hg.label_epsilon] at hb
      exact hg.label_inj (hs b List.mem_cons_self) hg.epsilon_lt hb
    subst h0
    obtain ⟨a, ha, hname⟩ := ih (fun i hi => hs i (List.mem_cons_of_mem _ hi)) rfl
    refine ⟨a, FirstSets.mem_ofSequence_cons.mpr (Or.inr ⟨?_, ha⟩), hname⟩
    rw [hg.getD_first hg.epsilon_lt hg.not_isNonTerminal_epsilon]
    exact SymbolSet.mem_singleton.mpr rfl
  -- a name without rules is that of a terminal
  | terminal hne hleft =>
    obtain ⟨b, s, rfl, rfl, rfl⟩ := List.map_eq_cons_iff.mp hform
    have hlt := hs b List.mem_cons_self
    have h0 : b ≠ epsilonIndex := fun h0 => hne (h0 ▸ hg.label_epsilon)
    rw [hg.mem_lefts_iff hlt] at hleft
    refine ⟨b, FirstSets.mem_ofSequence_cons.mpr (Or.inl ?_), rfl⟩
    rw [FirstSets.mem_heads (hg.length_first ▸ hlt), hg.getD_first hlt hleft]
    exact ⟨SymbolSet.mem_singleton.mpr rfl, h0⟩
  -- what an alternative starts with is in FIRST of its left side
  | expand hrule hright hne _ ih =>
    obtain ⟨b, s, rfl, hb, rfl⟩ := List.map_eq_cons_iff.mp hform
    have hlt := hs b List.mem_cons_self
    obtain ⟨nt, hnt, rfl, production, hp, rfl⟩ := hg.exists_production_of_mem_rights hlt hrule hright hb
    obtain ⟨a, ha, hname⟩ := ih (hg.production_lt hnt hp) rfl
    have h0 : a ≠ epsilonIndex := fun h0 => hne (hname ▸ h0 ▸ hg.label_epsilon)
    refine ⟨a, FirstSets.mem_ofSequence_cons.mpr (Or.inl ?_), hname⟩
    rw [FirstSets.mem_heads (hg.length_first ▸ hlt)]
    exact ⟨hg.mem_first_of_mem_production hnt hp ha, h0⟩
  -- an alternative that can vanish makes its left side nullable
  | skip hrule hright _ _ ih0 ih =>
    obtain ⟨b, s, rfl, hb, rfl⟩ := List.map_eq_cons_iff.mp hform
    have hlt := hs b List.mem_cons_self
    obtain ⟨nt, hnt, rfl, production, hp, rfl⟩ := hg.exists_production_of_mem_rights hlt hrule hright hb
    obtain ⟨e, he, hlabel⟩ := ih0 (hg.production_lt hnt hp) rfl
    rw [← hg.label_epsilon] at hlabel
    obtain rfl := hg.label_inj (hg.lt_of_mem_first (hg.production_lt hnt hp) he) hg.epsilon_lt hlabel
    obtain ⟨a, ha, hname⟩ := ih (fun i hi => hs i (List.mem_cons_of_mem _ hi)) rfl
    exact ⟨a, FirstSets.mem_ofSequence_cons.mpr (Or.inr ⟨hg.mem_first_of_mem_production hnt hp he, ha⟩), hname⟩

/-- **The names in FIRST of a sequence** are what its names start with. -/
theorem mem_namesIn_first (hs : ∀ i ∈ s, i < g.symbols.length) :
    name ∈ g.namesIn (g.first.ofSequence s) ↔ StartsWith g.namedRules (s.map g.label) name := by
  refine ⟨?_, fun h => ?_⟩
  · rintro ⟨a, ha, hname⟩
    rw [nameOf_eq (hg.lt_of_mem_first hs ha)] at hname
    exact Except.ok.inj hname ▸ hg.startsWith_of_mem_first hs ha
  · obtain ⟨a, ha, hname⟩ := hg.exists_mem_first_of_startsWith hs h
    exact ⟨a, ha, hname ▸ nameOf_eq (hg.lt_of_mem_first hs ha)⟩

theorem mem_namesIn_erase {set : SymbolSet} :
    name ∈ g.namesIn (set.erase epsilonIndex) ↔ name ∈ g.namesIn set ∧ name ≠ PredictiveGrammar.epsilon := by
  have hname : ∀ {a}, g.nameOf a = .ok name → (a ≠ epsilonIndex ↔ name ≠ PredictiveGrammar.epsilon) := by
    intro a h
    obtain ⟨ha, rfl⟩ := nameOf_eq_ok_iff.mp h
    rw [← hg.label_epsilon]
    exact not_congr ⟨congrArg g.label, hg.label_inj ha hg.epsilon_lt⟩
  refine ⟨?_, ?_⟩
  · rintro ⟨a, ha, h⟩
    obtain ⟨ha, hne⟩ := SymbolSet.mem_erase.mp ha
    exact ⟨⟨a, ha, h⟩, (hname h).mp hne⟩
  · rintro ⟨⟨a, ha, h⟩, hne⟩
    exact ⟨a, SymbolSet.mem_erase.mpr ⟨ha, (hname h).mpr hne⟩, h⟩

/-- A sequence is nullable if its names can vanish. -/
theorem epsilon_mem_first_iff_startsWith (hs : ∀ i ∈ s, i < g.symbols.length) :
    epsilonIndex ∈ g.first.ofSequence s ↔ StartsWith g.namedRules (s.map g.label) PredictiveGrammar.epsilon := by
  refine ⟨fun h => hg.label_epsilon ▸ hg.startsWith_of_mem_first hs h, fun h => ?_⟩
  obtain ⟨a, ha, hname⟩ := hg.exists_mem_first_of_startsWith hs h
  rw [← hg.label_epsilon] at hname
  exact hg.label_inj (hg.lt_of_mem_first hs ha) hg.epsilon_lt hname ▸ ha

/-! ### FOLLOW -/

/-- An occurrence of a non-terminal stands in an alternative, under its names. -/
theorem exists_rule_of_occurrence {o : Occurrence} (ho : o ∈ g.occurrences) :
    ∃ rule ∈ g.namedRules, rule.left = g.label o.left ∧ g.label o.symbol ∈ g.namedRules.map Rule.left ∧
      ∃ before, before ++ g.label o.symbol :: o.rest.map g.label ∈ rule.rights := by
  obtain ⟨nt, hnt, production, hp, hindex, hsymbol, before, rfl⟩ := mem_occurrences.mp ho
  obtain ⟨rule, hrule, hleft, hright⟩ := hg.mem_rights_of_mem_productions hnt hp
  rw [List.map_append, List.map_cons] at hright
  exact ⟨rule, hrule, hindex ▸ hleft, (hg.mem_lefts_iff (lt_of_isNonTerminal hsymbol)).mpr hsymbol, _, hright⟩

/-- The name of a non-terminal in an alternative is that of an occurrence. -/
theorem exists_occurrence {rule : Rule} {before rest : List String} (hB : g.isNonTerminal B)
    (hrule : rule ∈ g.namedRules) (hright : before ++ g.label B :: rest ∈ rule.rights) :
    ∃ o ∈ g.occurrences, o.symbol = B ∧ g.label o.left = rule.left ∧ o.rest.map g.label = rest := by
  obtain ⟨nt, hnt, hleft, hrights⟩ := mem_namedRules.mp hrule
  rw [← hrights, List.mem_map] at hright
  obtain ⟨production, hp, hright⟩ := hright
  obtain ⟨b, r, rfl, -, hr⟩ := List.map_eq_append_iff.mp hright
  obtain ⟨C, r, rfl, hC, hrest⟩ := List.map_eq_cons_iff.mp hr
  have hlt := hg.production_lt hnt hp C (List.mem_append_right _ List.mem_cons_self)
  obtain rfl := hg.label_inj hlt (lt_of_isNonTerminal hB) hC
  exact ⟨⟨nt.index, C, r⟩, mem_occurrences.mpr ⟨nt, hnt, _, hp, rfl, hB, b, rfl⟩, rfl,
    (hg.label_index hnt).trans hleft, hrest⟩

/-- What is carried to a non-terminal is a name that it is followed by. -/
theorem followedBy_of_carried (h : g.Carried g.first (FollowSets.seed g).sets B a) :
    FollowedBy g.namedRules (g.start.map g.label) (g.label B) (g.label a) := by
  induction h with
  -- the end mark behind the start symbol
  | given ha =>
    obtain ⟨hstart, rfl⟩ := mem_seed.mp ha
    rw [hg.label_endMark]
    exact .start (by rw [hstart]; rfl)
  -- FIRST of what stands behind an occurrence
  | first ho ha hne =>
    obtain ⟨rule, hrule, -, hsymbol, before, hright⟩ := hg.exists_rule_of_occurrence ho
    have hrest := hg.occurrence_rest_lt ho
    exact .next hrule hright hsymbol (hg.label_ne_epsilon (hg.lt_of_mem_first hrest ha) hne)
      (hg.startsWith_of_mem_first hrest ha)
  -- FOLLOW of the left side, where the rest can vanish
  | left ho h0 _ ih =>
    obtain ⟨rule, hrule, hleft, hsymbol, before, hright⟩ := hg.exists_rule_of_occurrence ho
    rw [← hleft] at ih
    exact .outer hrule hright hsymbol
      ((hg.epsilon_mem_first_iff_startsWith (hg.occurrence_rest_lt ho)).mp h0) ih

/-- Every name that a non-terminal is followed by is carried to it. -/
theorem exists_carried_of_followedBy (hB : g.isNonTerminal B)
    (h : FollowedBy g.namedRules (g.start.map g.label) (g.label B) name) :
    ∃ a, g.Carried g.first (FollowSets.seed g).sets B a ∧ g.label a = name := by
  generalize hname : g.label B = left at h
  induction h generalizing B with
  -- the end mark behind the start symbol
  | start hstart =>
    obtain ⟨S, hS, hlabel⟩ := Option.map_eq_some_iff.mp hstart
    obtain rfl := hg.label_inj (lt_of_isNonTerminal (hg.start S hS)) (lt_of_isNonTerminal hB) (hlabel.trans hname.symm)
    exact ⟨endMarkIndex, .given (mem_seed.mpr ⟨hS, rfl⟩), hg.label_endMark⟩
  -- what a name stands in front of, in an alternative
  | next hrule hright _ hne hfirst =>
    subst hname
    obtain ⟨o, ho, rfl, -, rfl⟩ := hg.exists_occurrence hB hrule hright
    obtain ⟨a, ha, rfl⟩ := hg.exists_mem_first_of_startsWith (hg.occurrence_rest_lt ho) hfirst
    exact ⟨a, .first ho ha fun h0 => hne (h0 ▸ hg.label_epsilon), rfl⟩
  -- what the left side is followed by, where the rest of the alternative can vanish
  | outer hrule hright _ h0 _ ih =>
    subst hname
    obtain ⟨o, ho, rfl, hleft, rfl⟩ := hg.exists_occurrence hB hrule hright
    obtain ⟨nt, hnt, -, -, hindex, -⟩ := mem_occurrences.mp ho
    obtain ⟨a, ha, hname⟩ := ih (hindex ▸ hg.isNonTerminal_index hnt) hleft
    exact ⟨a, .left ho ((hg.epsilon_mem_first_iff_startsWith (hg.occurrence_rest_lt ho)).mpr h0) ha, hname⟩

/-- **The names in FOLLOW of a non-terminal** are what can follow its name. -/
theorem mem_namesIn_follow (hW : W.Exact g) (hB : g.isNonTerminal B) :
    name ∈ g.namesIn (W.sets.getD B) ↔
      FollowedBy g.namedRules (g.start.map g.label) (g.label B) name := by
  have hlt : ∀ a ∈ W.sets.getD B, a < g.symbols.length := by
    intro a ha
    rcases (hW.mem_iff B hB a).mp ha with ⟨hterminal, -⟩ | ⟨rfl, -⟩
    · exact lt_of_isTerminal hterminal
    · exact lt_of_isTerminal hg.isTerminal_endMark
  refine ⟨?_, fun h => ?_⟩
  · rintro ⟨a, ha, hname⟩
    rw [nameOf_eq (hlt a ha)] at hname
    exact Except.ok.inj hname ▸ hg.followedBy_of_carried ((hg.mem_follow_iff_carried hW hB).mp ha)
  · obtain ⟨a, ha, rfl⟩ := hg.exists_carried_of_followedBy hB h
    have hmem := (hg.mem_follow_iff_carried hW hB).mpr ha
    exact ⟨a, hmem, nameOf_eq (hlt a hmem)⟩

/-! ### The sets that are found -/

section stored

variable (hnt : nt ∈ g.nonTerminals)
include hnt

theorem get?_first : g.first.get? nt.index = some (g.first.ofSequence [nt.index]) := by
  have hlt : nt.index < g.first.sets.length := hg.length_first ▸ hg.index_lt hnt
  rw [FirstSets.get?_eq_some hlt]
  exact congrArg some (SymbolSet.ext fun a => (FirstSets.mem_ofSequence_singleton hlt).symm)

theorem get?_follow (hW : W.Exact g) : W.get? nt.index = some (W.sets.getD nt.index) :=
  SetFamily.get?_eq_some_getD ((hW.keys nt.index).mpr (hg.isNonTerminal_index hnt))

/-- FIRST of a non-terminal says by name what it starts with. -/
theorem mem_namesIn_first_index :
    name ∈ g.namesIn (g.first.ofSequence [nt.index]) ↔ StartsWith g.namedRules [nt.name] name := by
  rw [hg.mem_namesIn_first (List.forall_mem_singleton.mpr (hg.index_lt hnt)), List.map_singleton, hg.label_index hnt]

/-- FOLLOW of a non-terminal says by name what it is followed by. -/
theorem mem_namesIn_follow_index (hW : W.Exact g) :
    name ∈ g.namesIn (W.sets.getD nt.index) ↔
      FollowedBy g.namedRules (g.start.map g.label) nt.name name := by
  rw [hg.mem_namesIn_follow hW (hg.isNonTerminal_index hnt), hg.label_index hnt]

/-- A non-terminal is nullable if it starts with `ε`. -/
theorem nullable_index_iff :
    g.first.nullable nt.index ↔ StartsWith g.namedRules [nt.name] PredictiveGrammar.epsilon := by
  have hlt : ∀ i ∈ [nt.index], i < g.symbols.length := List.forall_mem_singleton.mpr (hg.index_lt hnt)
  have hstored : nt.index < g.first.sets.length := hg.length_first ▸ hg.index_lt hnt
  rw [FirstSets.nullable_iff, ← FirstSets.mem_ofSequence_singleton hstored, hg.epsilon_mem_first_iff_startsWith hlt,
    List.map_singleton, hg.label_index hnt]

end stored

/-! ### Comparing grammars -/

theorem start_mem_names : ∀ s ∈ g.start.map g.label, s ∈ g.names := by
  intro s hs
  obtain ⟨i, hi, rfl⟩ := Option.map_eq_some_iff.mp hs
  exact label_mem_names (lt_of_isNonTerminal (hg.start i hi))

variable (hh : h.WellFormed)
include hh

/-- The start symbols of two grammars have the same name if they are read back the same. -/
theorem map_label_start (hstart : h.startName? = g.startName?) : h.start.map h.label = g.start.map g.label := by
  rw [hh.startName?_eq, hg.startName?_eq] at hstart
  exact Except.ok.inj hstart

variable (hnt : nt ∈ g.nonTerminals) (hnt' : nt' ∈ h.nonTerminals)
include hnt hnt'

/-- Namesakes that start with the same names are nullable together. -/
theorem nullable_eq (hiff : ∀ a, StartsWith h.namedRules [nt'.name] a ↔ StartsWith g.namedRules [nt.name] a) :
    h.first.nullable nt'.index = g.first.nullable nt.index := by
  rw [Bool.eq_iff_iff, hh.nullable_index_iff hnt', hg.nullable_index_iff hnt, hiff]

/-- Non-terminals whose names start with the same have the same FIRST set by name. -/
theorem sameNames_first (hiff : ∀ a, StartsWith h.namedRules [nt'.name] a ↔ StartsWith g.namedRules [nt.name] a) :
    g.SameNames h (g.first.get? nt.index) (h.first.get? nt'.index) := by
  refine ⟨_, hg.get?_first hnt, _, hh.get?_first hnt', Set.ext fun a => ?_⟩
  rw [hh.mem_namesIn_first_index hnt', hg.mem_namesIn_first_index hnt, hiff]

/-- Non-terminals whose names are followed by the same have the same FOLLOW set by name. -/
theorem sameNames_follow (hW : W.Exact g) (hV : V.Exact h)
    (hiff : ∀ a, FollowedBy h.namedRules (h.start.map h.label) nt'.name a ↔
      FollowedBy g.namedRules (g.start.map g.label) nt.name a) :
    g.SameNames h (W.get? nt.index) (V.get? nt'.index) := by
  refine ⟨_, hg.get?_follow hnt hW, _, hh.get?_follow hnt' hV, Set.ext fun a => ?_⟩
  rw [hh.mem_namesIn_follow_index hnt' hV, hg.mem_namesIn_follow_index hnt hW, hiff]

end WellFormed

end Grammar

end PredictiveGrammar
