import PredictiveGrammar.Proofs.LeftmostDerivations
import PredictiveGrammar.Proofs.TidyRules
import PredictiveGrammar.Proofs.Words

/-!
# Words of rules

The words that a list of names yields under rules that go by names too (`Yields`), with no indices and no forms in
between. For the rules of a well-formed grammar they are the words that the grammar generates
(`Grammar.WellFormed.generates_iff_yields`), so two grammars with different symbols can be compared on their rules.
-/

namespace PredictiveGrammar

/-- The words that a list of names yields: `ε` yields the empty word, a left side what its alternatives yield, and
every other name itself. -/
inductive Yields (rules : List Rule) : List String → List String → Prop
  /-- no name, no word -/
  | nil : Yields rules [] []
  /-- `ε` in front says nothing -/
  | silent {s w : List String} : Yields rules s w → Yields rules (epsilon :: s) w
  /-- a name that is not a left side stands for itself -/
  | terminal {name : String} {s w : List String} : name ≠ epsilon →
      name ∉ rules.map Rule.left → Yields rules s w → Yields rules (name :: s) (name :: w)
  /-- a left side yields what one of its alternatives yields -/
  | expand {rule : Rule} {right s u v : List String} : rule ∈ rules → right ∈ rule.rights →
      Yields rules right u → Yields rules s v → Yields rules (rule.left :: s) (u ++ v)

namespace Yields

variable {rules : List Rule} {rule : Rule} {s t right u v w : List String}

/-! ## Parts -/

/-- Words are yielded one after the other. -/
theorem append (h : Yields rules s u) (h' : Yields rules t v) : Yields rules (s ++ t) (u ++ v) := by
  induction h with
  | nil => exact h'
  | silent _ ih => exact .silent ih
  | terminal hne hleft _ ih => exact .terminal hne hleft ih
  | expand hrule hright hu _ _ ih =>
    rw [List.append_assoc]
    exact .expand hrule hright hu ih

/-- A word that two parts yield is taken apart into words of each. -/
theorem exists_append (h : Yields rules (s ++ t) w) :
    ∃ u v, w = u ++ v ∧ Yields rules s u ∧ Yields rules t v := by
  generalize hform : s ++ t = form at h
  induction h generalizing s with
  | nil =>
    obtain ⟨rfl, rfl⟩ := List.append_eq_nil_iff.mp hform
    exact ⟨[], [], rfl, .nil, .nil⟩
  -- in each case the name in front is the first one of `s`, or `s` is empty and all is left to `t`
  | @silent rest w h ih =>
    cases s with
    | nil =>
      obtain rfl : t = epsilon :: rest := hform
      exact ⟨[], w, rfl, .nil, .silent h⟩
    | cons name s =>
      obtain ⟨rfl, hrest⟩ := List.cons.inj hform
      obtain ⟨u, v, rfl, hu, hv⟩ := ih hrest
      exact ⟨u, v, rfl, .silent hu, hv⟩
  | @terminal name rest w hne hleft h ih =>
    cases s with
    | nil =>
      obtain rfl : t = name :: rest := hform
      exact ⟨[], name :: w, rfl, .nil, .terminal hne hleft h⟩
    | cons other s =>
      obtain ⟨rfl, hrest⟩ := List.cons.inj hform
      obtain ⟨u, v, rfl, hu, hv⟩ := ih hrest
      exact ⟨other :: u, v, rfl, .terminal hne hleft hu, hv⟩
  | @expand rule right rest u₀ v₀ hrule hright hu h _ ih =>
    cases s with
    | nil =>
      obtain rfl : t = rule.left :: rest := hform
      exact ⟨[], u₀ ++ v₀, rfl, .nil, .expand hrule hright hu h⟩
    | cons name s =>
      obtain ⟨rfl, hrest⟩ := List.cons.inj hform
      obtain ⟨u, v, rfl, hu', hv⟩ := ih hrest
      exact ⟨u₀ ++ u, v, (List.append_assoc _ _ _).symm, .expand hrule hright hu hu', hv⟩

/-- A left side alone yields what its alternatives yield. -/
theorem single (hrule : rule ∈ rules) (hright : right ∈ rule.rights) (h : Yields rules right w) :
    Yields rules [rule.left] w := by
  have hsingle := Yields.expand hrule hright h .nil
  rwa [List.append_nil] at hsingle

/-- Only the empty word comes from `ε`, which is no left side. -/
theorem eq_nil_of_epsilon (hleft : epsilon ∉ rules.map Rule.left) (h : Yields rules [epsilon] w) :
    w = [] := by
  generalize hform : [epsilon] = form at h
  cases h with
  | nil => rfl
  | silent h =>
    obtain ⟨-, rfl⟩ := List.cons.inj hform
    cases h
    rfl
  | terminal hne =>
    obtain ⟨rfl, -⟩ := List.cons.inj hform
    exact absurd rfl hne
  | expand hrule =>
    obtain ⟨heq, -⟩ := List.cons.inj hform
    exact absurd (heq ▸ List.mem_map_of_mem hrule) hleft

end Yields

/-! ## Words of a grammar -/

namespace Grammar

variable {g : Grammar} {s t choices : List Nat} {w : List String}

namespace WellFormed

variable (hg : g.WellFormed)
include hg

/-- A symbol has rules if it is a non-terminal. -/
theorem mem_lefts_iff {a : Nat} (ha : a < g.symbols.length) :
    g.label a ∈ g.namedRules.map Rule.left ↔ g.isNonTerminal a := by
  rw [lefts_namedRules, List.mem_map]
  refine ⟨?_, ?_⟩
  · rintro ⟨nt, hnt, hname⟩
    rw [← hg.label_index hnt] at hname
    exact hg.label_inj (hg.index_lt hnt) ha hname ▸ hg.isNonTerminal_index hnt
  · intro h
    obtain ⟨nt, hnt, rfl⟩ := hg.exists_nonTerminal h
    exact ⟨nt, hnt, (hg.label_index hnt).symm⟩

/-- A leftmost derivation of a word, by name. -/
theorem yields_of_leftParse (h : g.LeftParse s choices t) (hw : g.Spells t w) :
    Yields g.namedRules (s.map g.label) w := by
  induction h generalizing w with
  | nil =>
    obtain rfl : [] = w := hw.2
    exact .nil
  | @keep a s choices t ha _ ih =>
    rw [List.map_cons]
    by_cases h0 : a = epsilonIndex
    · subst h0
      rw [hg.label_epsilon]
      exact .silent (ih (spells_epsilon_cons.mp hw))
    · obtain ⟨hterminal, v, rfl, hv⟩ := hw.exists_of_cons h0
      have hlt := lt_of_isTerminal hterminal
      have hleft : g.label a ∉ g.namedRules.map Rule.left := fun h => ha ((hg.mem_lefts_iff hlt).mp h)
      exact .terminal (hg.label_ne_epsilon hlt h0) hleft (ih hv)
  -- the word of the production and the word of the rest are taken apart
  | @expand s choices t nt k production hnt hk _ ih =>
    have hyields := ih hw
    rw [List.map_append] at hyields
    obtain ⟨u, v, rfl, hu, hv⟩ := hyields.exists_append
    have hrule : (⟨nt.name, nt.productions.map (·.map g.label)⟩ : Rule) ∈ g.namedRules :=
      List.mem_map.mpr ⟨nt, hnt, rfl⟩
    rw [List.map_cons, hg.label_index hnt]
    exact .expand hrule (List.mem_map_of_mem (List.mem_of_getElem? hk)) hu hv

/-- What rules yield by names, the grammar generates by indices. -/
theorem generates_of_yields (hs : ∀ i ∈ s, i < g.symbols.length)
    (h : Yields g.namedRules (s.map g.label) w) : g.Generates s w := by
  generalize hform : s.map g.label = form at h
  induction h generalizing s with
  | nil =>
    obtain rfl := List.map_eq_nil_iff.mp hform
    exact g.spells_nil.generates
  -- the name `ε` is that of the symbol `ε`
  | silent _ ih =>
    obtain ⟨a, s, rfl, ha, rfl⟩ := List.map_eq_cons_iff.mp hform
    have h0 : a = epsilonIndex := by
      rw [← hg.label_epsilon] at ha
      exact hg.label_inj (hs a List.mem_cons_self) hg.epsilon_lt ha
    subst h0
    exact (ih (fun i hi => hs i (List.mem_cons_of_mem _ hi)) rfl).epsilon_cons
  -- a name without rules is that of a terminal
  | terminal hne hleft _ ih =>
    obtain ⟨a, s, rfl, rfl, rfl⟩ := List.map_eq_cons_iff.mp hform
    have hlt := hs a List.mem_cons_self
    have h0 : a ≠ epsilonIndex := fun h0 => hne (h0 ▸ hg.label_epsilon)
    rw [hg.mem_lefts_iff hlt] at hleft
    have ha : g.isTerminal a := ((hg.symbol_cases hlt).resolve_left h0).resolve_right hleft
    exact (ih (fun i hi => hs i (List.mem_cons_of_mem _ hi)) rfl).cons ha h0
  -- an alternative is a production by name
  | expand hrule hright _ _ ih ih' =>
    obtain ⟨a, s, rfl, ha, rfl⟩ := List.map_eq_cons_iff.mp hform
    obtain ⟨nt, hnt, hname, hrights⟩ := mem_namedRules.mp hrule
    rw [← hrights] at hright
    obtain ⟨production, hp, rfl⟩ := List.mem_map.mp hright
    rw [← hname, ← hg.label_index hnt] at ha
    obtain rfl := hg.label_inj (hs a List.mem_cons_self) (hg.index_lt hnt) ha
    have hfirst := (Derives.production hnt hp).generates (ih (hg.production_lt hnt hp) rfl)
    exact hfirst.append (ih' (fun i hi => hs i (List.mem_cons_of_mem _ hi)) rfl)

/-- **A grammar generates what its rules yield.** -/
theorem generates_iff_yields (hs : ∀ i ∈ s, i < g.symbols.length) :
    g.Generates s w ↔ Yields g.namedRules (s.map g.label) w := by
  refine ⟨?_, ?_⟩
  · rintro ⟨t, ht, hw⟩
    obtain ⟨choices, hparse⟩ := exists_leftParse ht (hg.ground_of_spells hw)
    exact hg.yields_of_leftParse hparse hw
  · exact hg.generates_of_yields hs

/-- The words of a non-terminal are those of its name. -/
theorem generates_index_iff {nt : NonTerminal} (hnt : nt ∈ g.nonTerminals) :
    g.Generates [nt.index] w ↔ Yields g.namedRules [nt.name] w := by
  have hs : ∀ i ∈ [nt.index], i < g.symbols.length := List.forall_mem_singleton.mpr (hg.index_lt hnt)
  rw [hg.generates_iff_yields hs, List.map_singleton, hg.label_index hnt]

end WellFormed

end Grammar

end PredictiveGrammar
