import PredictiveGrammar.Proofs.BuiltGrammars
import PredictiveGrammar.Proofs.WrittenRules

/-!
# When rules are read back from their text

Tidy rules are read back from their text exactly if all of them are writable (`Tidy.readBack_iff`): writable
rules are read as they were written, and other rules are not read from any text. So the text of a built
grammar gives its rules back exactly if every non-terminal has a production and the names are of the kind that
rule text can hold (`Grammar.readBack_ofRules_iff`).
-/

namespace PredictiveGrammar

/-- Reading the text of the rules gives a grammar with these rules. -/
def ReadBack (rules : List Rule) : Prop :=
  ∃ g, Grammar.parse (Rules.toPlain rules) = .ok g ∧ g.rules = .ok rules

/-- **Tidy rules are read back exactly if they are writable.** -/
theorem Tidy.readBack_iff {rules : List Rule} (hr : Tidy rules) :
    ReadBack rules ↔ ∀ rule ∈ rules, rule.Writable := by
  constructor
  · rintro ⟨g, hparse, hrules⟩
    have hg := (Grammar.Built.parse hparse).wellFormed
    rw [hg.rules_eq, Except.ok.injEq] at hrules
    exact hrules ▸ Grammar.writable_of_parse hparse
  · intro h
    refine ⟨Grammar.ofRules rules, ?_, ?_⟩
    · exact map_eq_ok.mpr ⟨rules, readRules_toPlain h hr.unreserved, rfl⟩
    · rw [(Grammar.wellFormed_ofRules rules).rules_eq, hr.namedRules_ofRules]

namespace Grammar

variable {g : Grammar}

/-- A grammar whose non-terminals all have productions and whose names can be written where they occur. -/
structure Writable (g : Grammar) : Prop where
  /-- there is something to write behind every arrow -/
  inhabited : ∀ nt ∈ g.nonTerminals, nt.productions ≠ []
  /-- every non-terminal's name can stand before an arrow -/
  nonTerminals : ∀ nt ∈ g.nonTerminals, Spellable nt.name
  /-- every name in a production can stand behind an arrow and between bars -/
  productions : ∀ nt ∈ g.nonTerminals, ∀ production ∈ nt.productions, ∀ i ∈ production,
    ∀ name, g.nameOf i = .ok name → Spellable name ∧ '|' ∉ name.toList

/-- A well-formed grammar is writable if its rules are. -/
theorem WellFormed.writable_iff (hg : g.WellFormed) :
    g.Writable ↔ ∀ rule ∈ g.namedRules, rule.Writable := by
  constructor
  -- from the names of the symbols in productions to rules by name
  · intro h rule hrule
    obtain ⟨nt, hnt, hname, hrights⟩ := mem_namedRules.mp hrule
    constructor
    · rw [← hrights, ne_eq, List.map_eq_nil_iff]
      exact h.inhabited nt hnt
    · exact hname ▸ h.nonTerminals nt hnt
    · intro right hright
      rw [← hrights] at hright
      obtain ⟨production, hp, rfl⟩ := List.mem_map.mp hright
      have hnames : ∀ name ∈ production.map g.label, Spellable name ∧ '|' ∉ name.toList := by
        intro name hname
        obtain ⟨i, hi, rfl⟩ := List.mem_map.mp hname
        exact h.productions nt hnt production hp i hi _ (nameOf_eq (hg.production_lt hnt hp i hi))
      constructor
      · simpa using (hg.productions nt hnt production hp).1
      · exact fun name hname => (hnames name hname).1
      · exact fun name hname => (hnames name hname).2
  -- and back
  · intro h
    have hrule : ∀ nt ∈ g.nonTerminals, (⟨nt.name, nt.productions.map (·.map g.label)⟩ : Rule).Writable :=
      fun nt hnt => h _ (mem_namedRules.mpr ⟨nt, hnt, rfl, rfl⟩)
    constructor
    · intro nt hnt
      simpa using (hrule nt hnt).inhabited
    · exact fun nt hnt => (hrule nt hnt).left
    · intro nt hnt production hp i hi name hname
      have hright := (hrule nt hnt).rights _ (List.mem_map_of_mem hp)
      rw [nameOf_eq (hg.production_lt hnt hp i hi), Except.ok.injEq] at hname
      subst hname
      exact ⟨hright.spellable _ (List.mem_map_of_mem hi), hright.noBar _ (List.mem_map_of_mem hi)⟩

/-- **The text of a built grammar gives its rules back exactly if the grammar is writable.** -/
theorem readBack_ofRules_iff (rules : List Rule) :
    ∃ written, (ofRules rules).rules = .ok written ∧ (ReadBack written ↔ (ofRules rules).Writable) := by
  have hg := wellFormed_ofRules rules
  exact ⟨_, hg.rules_eq, hg.tidy.readBack_iff.trans hg.writable_iff.symm⟩

end Grammar

end PredictiveGrammar
