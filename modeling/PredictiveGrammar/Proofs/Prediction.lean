import PredictiveGrammar.Proofs.FollowExact
import PredictiveGrammar.Proofs.NamedTables
import PredictiveGrammar.Proofs.Words

/-!
# The terminal that comes next predicts the production

If a non-terminal in a form derived from the start symbol is expanded by a production, and the form then derives
one without non-terminals, the terminal that comes next there, or the end mark if none does, is one for which the
production is to be used (`Grammar.WellFormed.mem_predict_of_derives`). In a table without conflicts no other
production is to be used for that terminal, so the table answers with this one
(`Grammar.WellFormed.get?_of_derives`).
-/

namespace PredictiveGrammar

theorem mem_predict {F : FirstSets} {W : FollowSets} {left a : Nat} {production : Production} :
    a ∈ predict F W left production ↔
      a ∈ F.ofSequence production ∧ a ≠ epsilonIndex ∨
        epsilonIndex ∈ F.ofSequence production ∧ a ∈ W.sets.getD left := by
  rw [predict]
  by_cases h0 : epsilonIndex ∈ F.ofSequence production
  · simp [h0]
  · simp [h0]

namespace Grammar

variable {g : Grammar} {W : FollowSets} {nt : NonTerminal} {production : Production}
  {before after t : List Nat} {S a : Nat} {w : List String}

namespace WellFormed

variable (hg : g.WellFormed) (hW : W.Exact g)
include hg hW

/-- Productions are used for terminals only. -/
theorem isTerminal_of_mem_predict (hnt : nt ∈ g.nonTerminals) (hp : production ∈ nt.productions)
    (ha : a ∈ predict g.first W nt.index production) : g.isTerminal a := by
  rcases mem_predict.mp ha with ⟨ha, hne⟩ | ⟨-, ha⟩
  · exact hg.isTerminal_of_mem_first (hg.production_lt hnt hp) ha hne
  · rcases (hW.mem_iff _ (hg.isNonTerminal_index hnt) a).mp ha with ⟨hterminal, -⟩ | ⟨rfl, -⟩
    · exact hterminal
    · exact hg.isTerminal_endMark

theorem isTerminal_of_mem_claims : ∀ nt ∈ g.nonTerminals, ∀ c ∈ claims g.first W nt, g.isTerminal c.1 := by
  rintro nt hnt ⟨terminal, production⟩ hc
  obtain ⟨hp, hterminal⟩ := mem_claims.mp hc
  exact hg.isTerminal_of_mem_predict hW hnt hp hterminal

/-- The table of the grammar's own sets. -/
theorem table_own : g.table g.first W = .ok (g.namedTable g.first W) :=
  hg.table_eq (hg.isTerminal_of_mem_claims hW) g.isFor_first hW.isFor

/-- **The table answers with the production to be used**, if it has no conflicts. -/
theorem get?_of_mem_predict (hconflicts : (g.namedTable g.first W).conflicts = []) (hnt : nt ∈ g.nonTerminals)
    (hp : production ∈ nt.productions) (ha : a ∈ predict g.first W nt.index production) :
    (g.namedTable g.first W).get? nt.name (g.label a) = some (production.map g.label) := by
  have hclaims := hg.isTerminal_of_mem_claims hW
  rw [hg.get?_named hclaims hnt (hg.isTerminal_of_mem_predict hW hnt hp ha),
    lookup_claims (hg.clashes_eq_nil hclaims hconflicts hnt) hp ha]
  rfl

section derivation

variable (hS : g.start = some S) (hform : g.Derives [S] (before ++ nt.index :: after))
  (hnt : nt ∈ g.nonTerminals) (hp : production ∈ nt.productions)
  (ht : g.Derives (production ++ after) t)
include hS hform hnt hp ht

/-- **What comes next is predicted.** -/
theorem mem_predict_of_derives (hw : g.Spells t w) :
    (visible t).headD endMarkIndex ∈ predict g.first W nt.index production := by
  have hindex := hg.isNonTerminal_index hnt
  have hlt := hg.production_lt hnt hp
  obtain ⟨u, v, rfl, hu, hv⟩ := ht.exists_append
  have hterminal : ∀ a ∈ visible u ++ visible v, g.isTerminal a := visible_append u v ▸ hw.1
  rw [visible_append, mem_predict]
  rcases hvisible : visible u with - | ⟨a, rest⟩
  -- the production vanishes, so what comes next comes behind the non-terminal
  · have h0 := (hg.epsilon_mem_first_iff hlt).mpr ⟨u, hu, hvisible⟩
    have hbehind := hform.trans ((hv.append_left [nt.index]).append_left before)
    refine Or.inr ⟨h0, (hW.mem_iff _ hindex _).mpr ?_⟩
    rcases hnext : visible v with - | ⟨b, rest⟩
    · refine Or.inr ⟨rfl, S, hS, _, visible before, hbehind, ?_⟩
      rw [List.singleton_append, hg.visible_nonTerminal_cons hindex, hnext]
    · have hb : g.isTerminal b := hterminal b (by simp [hnext])
      refine Or.inl ⟨hb, S, hg.start S hS, _, visible before, rest, hbehind, ?_⟩
      rw [List.singleton_append, hg.visible_nonTerminal_cons hindex, hnext]
      rfl
  · have ha : g.isTerminal a := hterminal a (by simp [hvisible])
    have hfirst := (hg.mem_first_iff hlt ha).mpr ⟨u, rest, hu, hvisible⟩
    exact Or.inl ⟨hfirst, hg.ne_epsilon_of_isTerminal ha⟩

/-- **The table answers with the production in use**, if it has no conflicts. -/
theorem get?_of_derives (hw : g.Spells t w) (hconflicts : (g.namedTable g.first W).conflicts = []) :
    (g.namedTable g.first W).get? nt.name (w.headD PredictiveGrammar.endMark) =
      some (production.map g.label) := by
  have hhead : w.headD PredictiveGrammar.endMark = g.label ((visible t).headD endMarkIndex) := by
    rw [← hw.2, ← hg.label_endMark]
    rcases visible t with - | ⟨a, rest⟩
    · rfl
    · rfl
  rw [hhead]
  exact hg.get?_of_mem_predict hW hconflicts hnt hp (hg.mem_predict_of_derives hW hS hform hnt hp ht hw)

end derivation

end WellFormed

end Grammar

end PredictiveGrammar
