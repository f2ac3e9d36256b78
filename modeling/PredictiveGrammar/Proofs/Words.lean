import PredictiveGrammar.Proofs.Derivations

/-!
# The words of a form

A form without non-terminals spells a word, which is the names of its terminals with `ε` erased
(`Grammar.Spells`). A form generates the words spelled by what it derives (`Grammar.Generates`), and a concatenation
generates the concatenations of words of its parts (`Grammar.Generates.append`).
-/

namespace PredictiveGrammar

namespace Grammar

variable {g : Grammar} {s t : List Nat} {w w' : List String} {a : Nat}

/-! ## Spelling -/

/-- The form has terminals and `ε` only, and the word is the names of its terminals. -/
def Spells (g : Grammar) (s : List Nat) (w : List String) : Prop :=
  (∀ a ∈ visible s, g.isTerminal a) ∧ (visible s).map g.label = w

theorem spells_nil (g : Grammar) : g.Spells [] [] := ⟨fun _ h => absurd h List.not_mem_nil, rfl⟩

/-- Words are spelled one after the other. -/
theorem Spells.append (h : g.Spells s w) (h' : g.Spells t w') : g.Spells (s ++ t) (w ++ w') := by
  refine ⟨fun a ha => ?_, ?_⟩
  · rw [visible_append] at ha
    rcases List.mem_append.mp ha with ha | ha
    · exact h.1 a ha
    · exact h'.1 a ha
  · rw [visible_append, List.map_append, h.2, h'.2]

/-- A form that spells a word splits together with the word. -/
theorem Spells.exists_append (h : g.Spells (s ++ t) w) :
    ∃ u v, w = u ++ v ∧ g.Spells s u ∧ g.Spells t v := by
  obtain ⟨hterminal, hword⟩ := h
  rw [visible_append, List.map_append] at hword
  rw [visible_append] at hterminal
  refine ⟨_, _, hword.symm, ⟨fun a ha => ?_, rfl⟩, ⟨fun a ha => ?_, rfl⟩⟩
  · exact hterminal a (List.mem_append_left _ ha)
  · exact hterminal a (List.mem_append_right _ ha)

/-- `ε` is erased. -/
theorem spells_epsilon_cons : g.Spells (epsilonIndex :: s) w ↔ g.Spells s w := by
  rw [Spells, Spells, visible_epsilon_cons]

/-- A terminal in front spells its name. -/
theorem Spells.cons (ha : g.isTerminal a) (hne : a ≠ epsilonIndex) (h : g.Spells s w) :
    g.Spells (a :: s) (g.label a :: w) := by
  rw [Spells, visible_cons_of_ne hne]
  refine ⟨fun b hb => ?_, by rw [List.map_cons, h.2]⟩
  rcases List.mem_cons.mp hb with rfl | hb
  · exact ha
  · exact h.1 b hb

/-- A symbol in front of a word is the terminal that the word begins with, unless it is `ε`. -/
theorem Spells.exists_of_cons (hne : a ≠ epsilonIndex) (h : g.Spells (a :: s) w) :
    g.isTerminal a ∧ ∃ v, w = g.label a :: v ∧ g.Spells s v := by
  obtain ⟨hterminal, hword⟩ := h
  rw [visible_cons_of_ne hne] at hterminal hword
  refine ⟨hterminal a List.mem_cons_self, _, hword.symm, fun b hb => ?_, rfl⟩
  exact hterminal b (List.mem_cons_of_mem a hb)

/-- A form that spells a word is ground: what is not `ε` in it is a terminal. -/
theorem WellFormed.ground_of_spells (hg : g.WellFormed) (h : g.Spells s w) : g.Ground s := by
  intro a ha
  by_cases h0 : a = epsilonIndex
  · exact h0 ▸ hg.not_isNonTerminal_epsilon
  · exact not_isNonTerminal_of_isTerminal (h.1 a (mem_visible.mpr ⟨ha, h0⟩))

/-- Forms that spell the same word say the same. -/
theorem WellFormed.visible_eq_of_spells (hg : g.WellFormed) (h : g.Spells s w) (h' : g.Spells t w) :
    visible s = visible t := by
  obtain ⟨hs, hw⟩ := h
  obtain ⟨ht, rfl⟩ := h'
  generalize visible s = l at hs hw
  generalize visible t = m at ht hw
  induction l generalizing m with
  | nil => exact (List.map_eq_nil_iff.mp hw.symm).symm
  | cons a l ih =>
    cases m with
    | nil => cases hw
    | cons b m =>
      rw [List.map_cons, List.map_cons, List.cons.injEq] at hw
      have ha := lt_of_isTerminal (hs a List.mem_cons_self)
      have hb := lt_of_isTerminal (ht b List.mem_cons_self)
      have hrest := ih (fun c hc => hs c (List.mem_cons_of_mem a hc)) m
        (fun c hc => ht c (List.mem_cons_of_mem b hc)) hw.2
      rw [hg.label_inj ha hb hw.1, hrest]

/-! ## Generating -/

/-- The form derives one that spells the word. -/
def Generates (g : Grammar) (s : List Nat) (w : List String) : Prop :=
  ∃ t, g.Derives s t ∧ g.Spells t w

theorem Spells.generates (h : g.Spells s w) : g.Generates s w := ⟨s, .refl s, h⟩

/-- What derives a form generates its words. -/
theorem Derives.generates (h : g.Derives s t) (ht : g.Generates t w) : g.Generates s w := by
  obtain ⟨u, hu, hw⟩ := ht
  exact ⟨u, h.trans hu, hw⟩

/-- **A concatenation generates** the concatenations of words of its parts. -/
theorem Generates.append (h : g.Generates s w) (h' : g.Generates t w') :
    g.Generates (s ++ t) (w ++ w') := by
  obtain ⟨u, hu, hw⟩ := h
  obtain ⟨v, hv, hw'⟩ := h'
  exact ⟨u ++ v, hu.append hv, hw.append hw'⟩

/-- A terminal in front generates its name. -/
theorem Generates.cons (ha : g.isTerminal a) (hne : a ≠ epsilonIndex) (h : g.Generates s w) :
    g.Generates (a :: s) (g.label a :: w) := by
  have hself : g.Spells [a] [g.label a] := (g.spells_nil).cons ha hne
  exact hself.generates.append h

theorem Generates.epsilon_cons (h : g.Generates s w) : g.Generates (epsilonIndex :: s) w := by
  have hself : g.Spells [epsilonIndex] [] := spells_epsilon_cons.mpr g.spells_nil
  exact hself.generates.append h

end Grammar

end PredictiveGrammar
