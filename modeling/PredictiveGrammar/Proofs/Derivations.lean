import PredictiveGrammar.Grammar.Derivation
import PredictiveGrammar.Proofs.Arena

/-!
# What derivations say

The questions that the analyses answer, put to derivations: whether a form can vanish (`Grammar.Vanishes`),
what it can begin with (`Grammar.Begins`), what can stand right behind a symbol (`Grammar.Adjoins`), and what
it can end in (`Grammar.EndsIn`). Each is about what forms say, so `ε` is erased first.

A derivation of a concatenation splits into derivations of its parts (`Grammar.Derives.exists_append`), and a
form without non-terminals derives itself only (`Grammar.Derives.eq_of_ground`).
-/

namespace PredictiveGrammar

/-! ## Forms without `ε` -/

@[simp] theorem visible_epsilon_cons (form : List Nat) : visible (epsilonIndex :: form) = visible form :=
  List.filter_cons_of_neg (by simp)

theorem visible_cons_of_ne {a : Nat} (h : a ≠ epsilonIndex) (form : List Nat) :
    visible (a :: form) = a :: visible form :=
  List.filter_cons_of_pos (by simpa using h)

/-- Visible symbols are those other than `ε`. -/
theorem mem_visible {a : Nat} {form : List Nat} : a ∈ visible form ↔ a ∈ form ∧ a ≠ epsilonIndex := by
  rw [visible, List.mem_filter, bne_iff_ne]

theorem visible_eq_nil_iff {form : List Nat} : visible form = [] ↔ ∀ a ∈ form, a = epsilonIndex := by
  rw [visible, List.filter_eq_nil_iff]
  simp

/-- What a form says before and behind a symbol is said by what stands before and behind it. -/
theorem exists_of_visible_eq {a : Nat} {form before after : List Nat}
    (h : visible form = before ++ a :: after) :
    ∃ before' after', form = before' ++ a :: after' ∧ visible before' = before ∧
      visible after' = after := by
  obtain ⟨l₁, l₂, rfl, hl₁, hl₂⟩ := List.filter_eq_append_iff.mp h
  obtain ⟨m₁, m₂, rfl, hm₁, -, hm₂⟩ := List.filter_eq_cons_iff.mp hl₂
  refine ⟨l₁ ++ m₁, m₂, (List.append_assoc _ _ _).symm, ?_, hm₂⟩
  have hnone : visible m₁ = [] := List.filter_eq_nil_iff.mpr hm₁
  rw [visible_append, hnone, List.append_nil]
  exact hl₁

namespace Grammar

variable {g : Grammar} {r s t u : List Nat} {a b : Nat}

/-! ## The questions -/

/-- The form derives one that says nothing. -/
def Vanishes (g : Grammar) (s : List Nat) : Prop := ∃ t, g.Derives s t ∧ visible t = []

/-- The form derives one that says `a` first. -/
def Begins (g : Grammar) (s : List Nat) (a : Nat) : Prop :=
  ∃ t rest, g.Derives s t ∧ visible t = a :: rest

/-- The form derives one that says `b` directly behind an `a`. -/
def Adjoins (g : Grammar) (s : List Nat) (a b : Nat) : Prop :=
  ∃ t before rest, g.Derives s t ∧ visible t = before ++ a :: b :: rest

/-- The form derives one that says `a` last. -/
def EndsIn (g : Grammar) (s : List Nat) (a : Nat) : Prop :=
  ∃ t before, g.Derives s t ∧ visible t = before ++ [a]

/-- The form has no non-terminals. -/
def Ground (g : Grammar) (s : List Nat) : Prop := ∀ a ∈ s, ¬ g.isNonTerminal a

/-! ## Answers for parts -/

theorem vanishes_nil (g : Grammar) : g.Vanishes [] := ⟨[], .refl [], rfl⟩

/-- Every symbol but `ε` begins with itself. -/
theorem begins_self (g : Grammar) (h : a ≠ epsilonIndex) (s : List Nat) : g.Begins (a :: s) a :=
  ⟨a :: s, visible s, .refl _, visible_cons_of_ne h s⟩

/-- What derives a form that can vanish can vanish. -/
theorem Derives.vanishes (h : g.Derives s t) (ht : g.Vanishes t) : g.Vanishes s := by
  obtain ⟨u, hu, hv⟩ := ht
  exact ⟨u, h.trans hu, hv⟩

/-- What derives a form can begin with whatever that form can begin with. -/
theorem Derives.begins (h : g.Derives s t) (ht : g.Begins t a) : g.Begins s a := by
  obtain ⟨u, rest, hu, hv⟩ := ht
  exact ⟨u, rest, h.trans hu, hv⟩

theorem Vanishes.append (hs : g.Vanishes s) (ht : g.Vanishes t) : g.Vanishes (s ++ t) := by
  obtain ⟨s', hs', hvs⟩ := hs
  obtain ⟨t', ht', hvt⟩ := ht
  refine ⟨s' ++ t', hs'.append ht', ?_⟩
  rw [visible_append, hvs, hvt, List.append_nil]

theorem Begins.append (hs : g.Begins s a) (t : List Nat) : g.Begins (s ++ t) a := by
  obtain ⟨s', rest, hs', hvs⟩ := hs
  refine ⟨s' ++ t, rest ++ visible t, hs'.append_right t, ?_⟩
  rw [visible_append, hvs, List.cons_append]

/-- What stands behind something that vanishes comes first. -/
theorem Vanishes.begins_append (hs : g.Vanishes s) (ht : g.Begins t a) : g.Begins (s ++ t) a := by
  obtain ⟨s', hs', hvs⟩ := hs
  obtain ⟨t', rest, ht', hvt⟩ := ht
  refine ⟨s' ++ t', rest, hs'.append ht', ?_⟩
  rw [visible_append, hvs, hvt, List.nil_append]

/-! ## Parts of a derivation -/

/-- A step in a concatenation is a step in one of its parts. -/
theorem Expands.append_cases (h : g.Expands (s ++ t) u) :
    (∃ s', g.Expands s s' ∧ u = s' ++ t) ∨ ∃ t', g.Expands t t' ∧ u = s ++ t' := by
  generalize hform : s ++ t = form at h
  obtain ⟨before, after, hnt, hp⟩ := h
  rename_i nt production
  rcases List.append_eq_append_iff.mp hform with ⟨l, rfl, hright⟩ | ⟨l, rfl, hright⟩
  · refine Or.inr ⟨l ++ production ++ after, ?_, by simp⟩
    rw [hright]
    exact .mk l after hnt hp
  · cases l with
    | nil =>
      refine Or.inr ⟨production ++ after, ?_, by simp⟩
      rw [← show nt.index :: after = t from hright]
      exact .mk [] after hnt hp
    | cons c l =>
      obtain ⟨rfl, rfl⟩ := List.cons.inj hright
      exact Or.inl ⟨before ++ production ++ l, .mk before l hnt hp, by simp⟩

/-- **A derivation splits** like the form it starts from. -/
theorem Derives.exists_append (h : g.Derives (s ++ t) u) :
    ∃ s' t', u = s' ++ t' ∧ g.Derives s s' ∧ g.Derives t t' := by
  induction h with
  | refl => exact ⟨s, t, rfl, .refl s, .refl t⟩
  | tail _ step ih =>
    obtain ⟨s', t', rfl, hs, ht⟩ := ih
    rcases step.append_cases with ⟨s'', hstep, rfl⟩ | ⟨t'', hstep, rfl⟩
    · exact ⟨s'', t', rfl, hs.tail hstep, ht⟩
    · exact ⟨s', t'', rfl, hs, ht.tail hstep⟩

/-- The first step of a derivation, put in front. -/
theorem Derives.head (step : g.Expands s t) (h : g.Derives t u) : g.Derives s u :=
  ((Derives.refl s).tail step).trans h

/-- Using a production in the middle of a form. -/
theorem Derives.expand {nt : NonTerminal} {production : Production} (hnt : nt ∈ g.nonTerminals)
    (hp : production ∈ nt.productions) (before after : List Nat) :
    g.Derives (before ++ nt.index :: after) (before ++ production ++ after) :=
  (Derives.refl _).tail (.mk before after hnt hp)

/-! ## Ground forms -/

namespace WellFormed

variable (hg : g.WellFormed)
include hg

/-- There is no step from a form without non-terminals. -/
theorem not_expands_of_ground (hs : g.Ground s) : ¬ g.Expands s t := by
  rintro ⟨before, after, hnt, -⟩
  exact hs _ (List.mem_append_right before List.mem_cons_self) (hg.isNonTerminal_index hnt)

/-- A form without non-terminals derives nothing but itself. -/
theorem eq_of_ground (hs : g.Ground s) (h : g.Derives s t) : t = s := by
  induction h with
  | refl => rfl
  | tail _ step ih =>
    subst ih
    exact absurd step (hg.not_expands_of_ground hs)

/-- Derivations stay within the symbols of the grammar. -/
theorem lt_of_derives (h : g.Derives s t) (hs : ∀ a ∈ s, a < g.symbols.length) :
    ∀ a ∈ t, a < g.symbols.length := by
  induction h with
  | refl => exact hs
  | tail _ step ih =>
    obtain ⟨before, after, hnt, hp⟩ := step
    intro a ha
    rcases List.mem_append.mp ha with ha | ha
    · rcases List.mem_append.mp ha with ha | ha
      · exact ih a (List.mem_append_left _ ha)
      · exact hg.production_lt hnt hp a ha
    · exact ih a (List.mem_append_right _ (List.mem_cons_of_mem _ ha))

end WellFormed

end Grammar

end PredictiveGrammar
