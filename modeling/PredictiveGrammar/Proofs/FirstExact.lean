import PredictiveGrammar.Proofs.BuiltGrammars
import PredictiveGrammar.Proofs.Derivations
import PredictiveGrammar.Proofs.FirstFixpoint

/-!
# FIRST is exact

FIRST of a sequence holds exactly the terminals that the sequence can begin with, and `ε` exactly if it can
vanish. Members are justified by a derivation because every visit keeps them justified
(`FirstSets.Sound`). Nothing is missing because the sets are stable: FIRST of a production is part of FIRST of
its left side, so along a derivation FIRST of the forms only shrinks
(`Grammar.WellFormed.first_subset_of_derives`), and it is read off where the derivation ends.
-/

namespace PredictiveGrammar

/-! ## Members are justified -/

/-- Every member of a set is justified by a derivation. -/
structure FirstSets.Sound (g : Grammar) (F : FirstSets) : Prop where
  /-- what a symbol is said to begin with, it can begin with -/
  begins : ∀ i < g.symbols.length, ∀ a ∈ F.getD i, a ≠ epsilonIndex → g.Begins [i] a
  /-- what is said to vanish, can vanish -/
  vanishes : ∀ i < g.symbols.length, epsilonIndex ∈ F.getD i → g.Vanishes [i]

namespace FirstSets

variable {g : Grammar} {F : FirstSets}

/-- Sound sets are sound for forms: what is in FIRST of a form, the form can begin with, and it can vanish if `ε` is. -/
theorem Sound.ofSequence (hF : F.Sound g) (hlength : F.sets.length = g.symbols.length) {s : List Nat}
    (hs : ∀ i ∈ s, i < g.symbols.length) :
    (∀ a ∈ F.ofSequence s, a ≠ epsilonIndex → g.Begins s a) ∧
      (epsilonIndex ∈ F.ofSequence s → g.Vanishes s) := by
  induction s with
  | nil => exact ⟨fun a ha hne => absurd (mem_ofSequence_nil.mp ha) hne, fun _ => g.vanishes_nil⟩
  | cons i s ih =>
    have hi : i < g.symbols.length := hs i List.mem_cons_self
    obtain ⟨hbegins, hvanishes⟩ := ih fun j hj => hs j (List.mem_cons_of_mem i hj)
    refine ⟨?_, ?_⟩
    · intro a ha hne
      rcases mem_ofSequence_cons.mp ha with ha | ⟨hnull, ha⟩
      · exact (hF.begins i hi a ((mem_heads (hlength ▸ hi)).mp ha).1 hne).append s
      · exact (hF.vanishes i hi hnull).begins_append (hbegins a ha hne)
    · intro h0
      rcases mem_ofSequence_cons.mp h0 with h0 | ⟨hnull, h0⟩
      · exact absurd rfl ((mem_heads (hlength ▸ hi)).mp h0).2
      · exact (hF.vanishes i hi hnull).append (hvanishes h0)

/-- A recomputed set is justified by one step more. -/
theorem Sound.store (hg : g.WellFormed) (hrising : Rising g F) (hF : F.Sound g) {nt : NonTerminal}
    (hnt : nt ∈ g.nonTerminals) : (F.store nt).Sound g := by
  -- what the productions give begins some derivation of the non-terminal
  have hproduction : ∀ a ∈ F.ofProductions nt.productions,
      (a ≠ epsilonIndex → g.Begins [nt.index] a) ∧ (a = epsilonIndex → g.Vanishes [nt.index]) := by
    intro a ha
    obtain ⟨production, hp, ha⟩ := mem_ofProductions.mp ha
    have hstep := Grammar.Derives.production hnt hp
    obtain ⟨hbegins, hvanishes⟩ := hF.ofSequence hrising.length (hg.production_lt hnt hp)
    exact ⟨fun hne => hstep.begins (hbegins a ha hne), fun h0 => hstep.vanishes (hvanishes (h0 ▸ ha))⟩
  -- every other set is the one it was
  refine ⟨?_, ?_⟩
  · intro i hi a ha hne
    rw [getD_store (hrising.index_lt hg hnt)] at ha
    split at ha
    · next heq => exact heq ▸ (hproduction a ha).1 hne
    · exact hF.begins i hi a ha hne
  · intro i hi h0
    rw [getD_store (hrising.index_lt hg hnt)] at h0
    split at h0
    · next heq => exact heq ▸ (hproduction _ h0).2 rfl
    · exact hF.vanishes i hi h0

/-- The sets before the first round are sound. -/
theorem sound_initial (g : Grammar) : (initial g).Sound g := by
  refine ⟨?_, ?_⟩
  · intro i hi a ha hne
    rw [getD_initial hi] at ha
    split at ha
    · exact absurd ha (SymbolSet.not_mem_empty a)
    · obtain rfl := SymbolSet.mem_singleton.mp ha
      exact g.begins_self hne []
  · intro i hi h0
    rw [getD_initial hi] at h0
    split at h0
    · exact absurd h0 (SymbolSet.not_mem_empty _)
    · obtain rfl := SymbolSet.mem_singleton.mp h0
      exact ⟨_, .refl _, rfl⟩

end FirstSets

namespace Grammar

variable {g : Grammar} {s t : List Nat} {a : Nat}

namespace WellFormed

variable (hg : g.WellFormed)
include hg

/-- So are the sets that the rounds end with. -/
theorem first_sound : g.first.Sound g := by
  -- that sets are justified is kept only together with their having the right length
  have hvisit : ∀ F : FirstSets, ∀ nt ∈ g.nonTerminals, FirstSets.Rising g F ∧ F.Sound g →
      FirstSets.Rising g (F.visit nt).1 ∧ (F.visit nt).1.Sound g := by
    rintro F nt hnt ⟨hrising, hsound⟩
    refine ⟨(hrising.visit hg hnt).1, ?_⟩
    rw [FirstSets.visit_eq (hrising.index_lt hg hnt)]
    split
    · exact hsound
    · exact hsound.store hg hrising hnt
  have hinitial : FirstSets.Rising g (.initial g) ∧ (FirstSets.initial g).Sound g :=
    ⟨FirstSets.rising_initial hg, FirstSets.sound_initial g⟩
  have hboth : FirstSets.Rising g g.first ∧ g.first.Sound g :=
    FirstSets.stabilise_induction (P := fun F => FirstSets.Rising g F ∧ F.Sound g) hvisit hinitial
  exact hboth.2

theorem length_first : g.first.sets.length = g.symbols.length := hg.first_rising.length

/-! ## Nothing is missing -/

/-- Exchanging a middle part for one with less in FIRST leaves less in FIRST. -/
theorem first_subset_of_middle {before after p q : List Nat} (hb : ∀ i ∈ before, i < g.symbols.length)
    (hp : ∀ i ∈ p, i < g.symbols.length) (hq : ∀ i ∈ q, i < g.symbols.length)
    (h : g.first.ofSequence p ⊆ g.first.ofSequence q) :
    g.first.ofSequence (before ++ (p ++ after)) ⊆ g.first.ofSequence (before ++ (q ++ after)) := by
  rw [← hg.length_first] at hb hp hq
  intro a ha
  rw [FirstSets.mem_ofSequence_append hb, FirstSets.mem_ofSequence_append hp] at ha
  rw [FirstSets.mem_ofSequence_append hb, FirstSets.mem_ofSequence_append hq]
  rcases ha with ha | ⟨h0, ⟨ha, hne⟩ | ⟨h0', ha⟩⟩
  · exact Or.inl ha
  · exact Or.inr ⟨h0, Or.inl ⟨h a ha, hne⟩⟩
  · exact Or.inr ⟨h0, Or.inr ⟨h _ h0', ha⟩⟩

/-- FIRST of a non-terminal has FIRST of all its productions, since nothing changed in the last round. -/
theorem first_production_subset {nt : NonTerminal} (hnt : nt ∈ g.nonTerminals) {production : Production}
    (hp : production ∈ nt.productions) :
    g.first.ofSequence production ⊆ g.first.ofSequence [nt.index] := by
  intro a ha
  rw [FirstSets.mem_ofSequence_singleton (hg.length_first ▸ hg.index_lt hnt), hg.first_stable nt hnt]
  exact FirstSets.mem_ofProductions.mpr ⟨production, hp, ha⟩

/-- **FIRST shrinks along derivations.** -/
theorem first_subset_of_derives (h : g.Derives s t) (hs : ∀ i ∈ s, i < g.symbols.length) :
    g.first.ofSequence t ⊆ g.first.ofSequence s := by
  induction h with
  | refl => exact SymbolSet.Subset.refl _
  | tail h step ih =>
    -- the step exchanges a left side for one of its productions
    have hlt := hg.lt_of_derives h hs
    obtain ⟨before, after, hnt, hp⟩ := step
    rw [List.append_assoc]
    refine SymbolSet.Subset.trans (hg.first_subset_of_middle ?_ (hg.production_lt hnt hp)
      (List.forall_mem_singleton.mpr (hg.index_lt hnt)) (hg.first_production_subset hnt hp)) ih
    exact fun i hi => hlt i (List.mem_append_left _ hi)

/-- A symbol without productions is all there is in its set. -/
theorem getD_first {i : Nat} (hi : i < g.symbols.length) (hnot : ¬ g.isNonTerminal i) :
    g.first.getD i = {i} :=
  hg.first_rising.others i hi hnot

/-- A form of nothing but `ε` has `ε` in FIRST. -/
theorem epsilon_mem_first_of_visible (h : visible s = []) : epsilonIndex ∈ g.first.ofSequence s := by
  have hall := visible_eq_nil_iff.mp h
  have hlt : ∀ i ∈ s, i < g.first.sets.length := by
    intro i hi
    rw [hall i hi, hg.length_first]
    exact hg.epsilon_lt
  rw [FirstSets.epsilon_mem_ofSequence hlt]
  intro i hi
  rw [hall i hi, hg.getD_first hg.epsilon_lt hg.not_isNonTerminal_epsilon]
  exact SymbolSet.mem_singleton.mpr rfl

/-- A terminal that a form says first is in its FIRST set. -/
theorem mem_first_of_visible (ha : g.isTerminal a) {rest : List Nat} (h : visible s = a :: rest) :
    a ∈ g.first.ofSequence s := by
  have hsplit : visible s = [] ++ a :: rest := h
  obtain ⟨before, after, rfl, hbefore, -⟩ := exists_of_visible_eq hsplit
  have hlt : ∀ i ∈ before, i < g.first.sets.length := by
    intro i hi
    rw [visible_eq_nil_iff.mp hbefore i hi, hg.length_first]
    exact hg.epsilon_lt
  have ha' : a < g.first.sets.length := hg.length_first ▸ lt_of_isTerminal ha
  refine (FirstSets.mem_ofSequence_append hlt).mpr
    (Or.inr ⟨hg.epsilon_mem_first_of_visible hbefore, FirstSets.mem_ofSequence_cons.mpr (Or.inl ?_)⟩)
  rw [FirstSets.mem_heads ha',
    hg.getD_first (lt_of_isTerminal ha) (not_isNonTerminal_of_isTerminal ha)]
  exact ⟨SymbolSet.mem_singleton.mpr rfl, hg.ne_epsilon_of_isTerminal ha⟩

/-! ## Both together -/

variable (hs : ∀ i ∈ s, i < g.symbols.length)
include hs

/-- **FIRST of a form** has the terminals that the form can begin with. -/
theorem mem_first_iff (ha : g.isTerminal a) : a ∈ g.first.ofSequence s ↔ g.Begins s a := by
  refine ⟨?_, ?_⟩
  · intro hmem
    exact (hg.first_sound.ofSequence hg.length_first hs).1 a hmem (hg.ne_epsilon_of_isTerminal ha)
  · rintro ⟨t, rest, ht, hvisible⟩
    exact hg.first_subset_of_derives ht hs a (hg.mem_first_of_visible ha hvisible)

/-- It has `ε` if the form can vanish. -/
theorem epsilon_mem_first_iff : epsilonIndex ∈ g.first.ofSequence s ↔ g.Vanishes s := by
  refine ⟨?_, ?_⟩
  · exact (hg.first_sound.ofSequence hg.length_first hs).2
  · rintro ⟨t, ht, hvisible⟩
    exact hg.first_subset_of_derives ht hs _ (hg.epsilon_mem_first_of_visible hvisible)

/-- FIRST of a sequence holds terminals and `ε` only. -/
theorem isTerminal_of_mem_first (h : a ∈ g.first.ofSequence s) (hne : a ≠ epsilonIndex) :
    g.isTerminal a := by
  rw [← hg.length_first] at hs
  obtain ⟨i, -, hi⟩ := FirstSets.exists_of_mem_ofSequence hs h hne
  exact (hg.first_rising.members i a hi).resolve_left hne

end WellFormed

/-! ## In built grammars -/

/-- **FIRST is exact**: FIRST of a sequence of symbols holds exactly the terminals that the sequence can
begin with, `ε` exactly if the sequence can vanish, and no non-terminals; and FIRST of a symbol is FIRST of
the sequence of that symbol alone. -/
theorem Built.first_exact (hg : g.Built) :
    (∀ s : List Nat, (∀ i ∈ s, i < g.symbols.length) →
      (∀ a, g.isTerminal a → (a ∈ g.first.ofSequence s ↔ g.Begins s a)) ∧
        (epsilonIndex ∈ g.first.ofSequence s ↔ g.Vanishes s) ∧
        ∀ a ∈ g.first.ofSequence s, ¬ g.isNonTerminal a) ∧
      ∀ i < g.symbols.length, g.first.get? i = some (g.first.ofSequence [i]) := by
  have hwf := hg.wellFormed
  refine ⟨?_, ?_⟩
  · intro s hs
    refine ⟨fun a ha => hwf.mem_first_iff hs ha, hwf.epsilon_mem_first_iff hs, fun a ha => ?_⟩
    by_cases h0 : a = epsilonIndex
    · exact h0 ▸ hwf.not_isNonTerminal_epsilon
    · exact not_isNonTerminal_of_isTerminal (hwf.isTerminal_of_mem_first hs ha h0)
  · intro i hi
    have hi' : i < g.first.sets.length := hwf.length_first ▸ hi
    rw [FirstSets.get?_eq_some hi']
    refine congrArg some (SymbolSet.ext fun a => ?_)
    exact (FirstSets.mem_ofSequence_singleton hi').symm

/-- A grammar whose start symbol recurses behind a symbol that vanishes. -/
def hiddenRecursion : Grammar :=
  .ofRules [⟨"S", [["A", "S", "b"], ["A"]]⟩, ⟨"A", [["A", "a"], []]⟩]

/-- There `S` begins with `a` and with `b` and vanishes, and `A` does not begin with `b`. -/
theorem Built.first_exact_hiddenRecursion :
    hiddenRecursion.Built ∧ hiddenRecursion.Begins [2] 4 ∧ hiddenRecursion.Begins [2] 5 ∧
      hiddenRecursion.Vanishes [2] ∧ ¬ hiddenRecursion.Begins [3] 4 ∧
      hiddenRecursion.first.get? 2 = some (hiddenRecursion.first.ofSequence [2]) := by
  have hbuilt : hiddenRecursion.Built := .ofRules _
  obtain ⟨hsequence, hsymbol⟩ := Built.first_exact hbuilt
  obtain ⟨hbegins, hvanishes, -⟩ := hsequence [2] (by decide)
  obtain ⟨hbegins', -⟩ := hsequence [3] (by decide)
  refine ⟨hbuilt, (hbegins 4 (by decide)).mp (by decide), (hbegins 5 (by decide)).mp (by decide),
    hvanishes.mp (by decide), ?_, hsymbol 2 (by decide)⟩
  intro h
  exact absurd ((hbegins' 4 (by decide)).mpr h) (by decide)

end Grammar

end PredictiveGrammar
