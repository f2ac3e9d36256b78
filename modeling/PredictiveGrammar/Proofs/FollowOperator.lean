import PredictiveGrammar.Proofs.FollowExact
import PredictiveGrammar.Proofs.Sessions

/-!
# Growing FOLLOW sets is a closure operator

The sets to start from need not be the usual ones: callers may give any that are remembered for the grammar. Whatever
they are, the answer is the least family above them that satisfies what the productions ask for
(`FollowSets.LeastAbove`), so it only adds members, grows with what is given, and is its own answer
(`Grammar.Built.extendFollow_least`). Whether the rest of a production can vanish is put to derivations here
(`SetFamily.ClosedFor`), and to FIRST sets where the answer is computed (`Grammar.WellFormed.least_above`).
-/

namespace PredictiveGrammar

/-! ## Least closed families -/

namespace SetFamily

variable {X Y Z : SetFamily}

/-- Every set of the first family is part of the set of the second one under the same key. -/
def Within (X Y : SetFamily) : Prop := ∀ k, X.getD k ⊆ Y.getD k

theorem Within.trans (h : X.Within Y) (h' : Y.Within Z) : X.Within Z := fun k a ha => h' k a (h k a ha)

/-- A family satisfies what the occurrences of non-terminals in the productions of a grammar ask for. -/
structure ClosedFor (X : SetFamily) (g : Grammar) : Prop where
  /-- FIRST of what stands behind an occurrence is part of its set, except for `ε` -/
  first : ∀ nt ∈ g.nonTerminals, ∀ before B rest, before ++ B :: rest ∈ nt.productions → g.isNonTerminal B →
    ∀ a ∈ g.first.ofSequence rest, a ≠ epsilonIndex → a ∈ X.getD B
  /-- the set of the left side is part of the set of an occurrence if what stands behind it can vanish -/
  left : ∀ nt ∈ g.nonTerminals, ∀ before B rest, before ++ B :: rest ∈ nt.productions → g.isNonTerminal B →
    g.Vanishes rest → X.getD nt.index ⊆ X.getD B

end SetFamily

/-- Sets are the least closed ones above given sets. -/
structure FollowSets.LeastAbove (W' : FollowSets) (g : Grammar) (W : FollowSets) : Prop where
  /-- the sets belong to the grammar -/
  isFor : W'.isFor g
  /-- the non-terminals have sets, and what had one before -/
  keys : ∀ k, k ∈ W'.sets.keys ↔ k ∈ W.sets.keys ∨ g.isNonTerminal k
  /-- members are only added -/
  above : W.sets.Within W'.sets
  /-- the sets satisfy what the productions ask for -/
  closed : W'.sets.ClosedFor g
  /-- so does no family above the given sets that lacks a member -/
  least : ∀ X : SetFamily, W.sets.Within X → X.ClosedFor g → W'.sets.Within X

namespace Grammar

variable {g : Grammar} {W W' : FollowSets} {X : SetFamily} {o : Occurrence} {k a : Nat}

/-! ## What is carried is least -/

theorem mk_mem_occurrences {nt : NonTerminal} {before rest : Production} {B : Nat} (hnt : nt ∈ g.nonTerminals)
    (hp : before ++ B :: rest ∈ nt.productions) (hB : g.isNonTerminal B) : ⟨nt.index, B, rest⟩ ∈ g.occurrences :=
  mem_occurrences.mpr ⟨nt, hnt, _, hp, rfl, hB, before, rfl⟩

namespace WellFormed

variable (hg : g.WellFormed)
include hg

/-- A family that holds what it carries is closed. -/
theorem closedFor_of_carried (h : ∀ k a, g.Carried g.first X k a → a ∈ X.getD k) : X.ClosedFor g where
  first := fun _ hnt _ _ _ hp hB _ ha hne => h _ _ (.first (mk_mem_occurrences hnt hp hB) ha hne)
  left := by
    intro nt hnt before B rest hp hB hvanishes a ha
    have ho := mk_mem_occurrences hnt hp hB
    exact h _ _ (.left ho ((hg.epsilon_mem_first_iff (hg.occurrence_rest_lt ho)).mpr hvanishes) (.given ha))

/-- A closed family holds what any family within it carries. -/
theorem mem_of_carried_within (hX : X.ClosedFor g) (hwithin : W.sets.Within X)
    (h : g.Carried g.first W.sets k a) : a ∈ X.getD k := by
  induction h with
  | given ha => exact hwithin _ _ ha
  | first ho ha hne =>
    obtain ⟨nt, hnt, _, hp, -, hsymbol, before, rfl⟩ := mem_occurrences.mp ho
    exact hX.first nt hnt before _ _ hp hsymbol _ ha hne
  | left ho h0 _ ih =>
    have hvanishes := (hg.epsilon_mem_first_iff (hg.occurrence_rest_lt ho)).mp h0
    obtain ⟨nt, hnt, _, hp, hleft, hsymbol, before, rfl⟩ := mem_occurrences.mp ho
    exact hX.left nt hnt before _ _ hp hsymbol hvanishes _ (hleft ▸ ih)

/-- **The answer is least** among the closed families above what is given. -/
theorem least_above (hW : W.isFor g) : ∃ W', g.extendFollow g.first W = .ok W' ∧ W'.LeastAbove g W := by
  obtain ⟨W', heq, hkeys, hclosed, hW'⟩ := mem_extendFollow g.isFor_first hW
  refine ⟨W', heq, hW', fun k => (hkeys k).trans hg.mem_keys_directFollow, ?_, ?_, ?_⟩
  · exact fun k a ha => (hclosed k a).mpr (.given ha)
  · exact hg.closedFor_of_carried fun k a h => mem_of_carried hclosed h
  · exact fun X hwithin hX k a ha => hg.mem_of_carried_within hX hwithin ((hclosed k a).mp ha)

end WellFormed

end Grammar

namespace FollowSets

variable {g : Grammar} {V V' W W' : FollowSets}

/-- Above more there is more. -/
theorem LeastAbove.mono (hW : W'.LeastAbove g W) (hV : V'.LeastAbove g V) (h : W.sets.Within V.sets) :
    W'.sets.Within V'.sets :=
  hW.least _ (h.trans hV.above) hV.closed

end FollowSets

namespace Grammar

variable {g : Grammar} {W : FollowSets}

/-! ## In built grammars -/

/-- **Growing FOLLOW sets is a closure operator.** From any sets remembered for a built grammar it leads to the least
family above them that is closed under what the productions ask for; from larger sets it leads to larger ones; and it
leaves its own answers as they are. -/
theorem Built.extendFollow_least (hg : g.Built) (hW : W.isFor g) :
    ∃ W', g.extendFollow g.first W = .ok W' ∧ W'.LeastAbove g W ∧
      (∀ V V', V.isFor g → W.sets.Within V.sets → g.extendFollow g.first V = .ok V' → W'.sets.Within V'.sets) ∧
      g.extendFollow g.first W' = .ok W' := by
  obtain ⟨W', heq, hleast⟩ := hg.wellFormed.least_above hW
  refine ⟨W', heq, hleast, ?_, extendFollow_self g.isFor_first hW heq⟩
  intro V V' hV hwithin heq'
  obtain ⟨V'', heq'', hleast'⟩ := hg.wellFormed.least_above hV
  obtain rfl : V' = V'' := Except.ok.inj (heq'.symm.trans heq'')
  exact hleast.mono hleast' hwithin

/-- A grammar whose non-terminals end in each other. -/
def endInTurn : Grammar := .ofRules [⟨"A", [["a", "B"], []]⟩, ⟨"B", [["b", "C"]]⟩, ⟨"C", [["c", "A"]]⟩]

/-- Sets remembered for it in which an index of no symbol stands behind `B`, and nothing behind the others. -/
def strayBehindB : FollowSets := ⟨(∅ : SetFamily).add 3 {9}, endInTurn.symbols, endInTurn.start⟩

/-- From there the stray index gets behind all of them. -/
theorem Built.extendFollow_least_endInTurn :
    endInTurn.Built ∧ strayBehindB.isFor endInTurn ∧
      ∃ W', endInTurn.extendFollow endInTurn.first strayBehindB = .ok W' ∧
      9 ∈ W'.sets.getD 3 ∧ 9 ∈ W'.sets.getD 4 ∧ 9 ∈ W'.sets.getD 2 ∧
      endInTurn.extendFollow endInTurn.first W' = .ok W' := by
  have hbuilt : endInTurn.Built := .ofRules _
  have hfor : strayBehindB.isFor endInTurn := decide_eq_true ⟨rfl, rfl⟩
  obtain ⟨W', heq, hleast, -, hagain⟩ := Built.extendFollow_least hbuilt hfor
  have hB : 9 ∈ W'.sets.getD 3 := hleast.above 3 9 (by decide)
  have hC : 9 ∈ W'.sets.getD 4 :=
    hleast.closed.left ⟨3, "B", [[6, 4]]⟩ (by decide) [6] 4 [] (by decide) (by decide) (vanishes_nil _) _ hB
  have hA : 9 ∈ W'.sets.getD 2 :=
    hleast.closed.left ⟨4, "C", [[7, 2]]⟩ (by decide) [7] 2 [] (by decide) (by decide) (vanishes_nil _) _ hC
  exact ⟨hbuilt, hfor, W', heq, hB, hC, hA, hagain⟩

end Grammar

end PredictiveGrammar
