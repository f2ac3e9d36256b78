import PredictiveGrammar.Proofs.Derivations

/-!
# Leftmost derivations

A leftmost derivation always expands the first non-terminal of a form. It is determined by the productions it
chooses, each given by its place among the productions of its non-terminal (`Grammar.LeftDerives`).

A complete one can be followed symbol by symbol, as a parser does: what is not a non-terminal is set aside, and
a non-terminal in front gives way to the chosen production (`Grammar.LeftParse`, `Grammar.WellFormed.leftParse_iff`).
In that form derivations of parts are put together and taken apart, which shows that every ground form that can
be derived has a leftmost derivation (`Grammar.exists_leftParse`).
-/

namespace PredictiveGrammar

namespace Grammar

variable {g : Grammar} {s s' t t' choices choices' : List Nat}

/-- Expansions of the first non-terminal of a form; `choices` are the places of the productions. -/
inductive LeftDerives (g : Grammar) : List Nat → List Nat → List Nat → Prop
  /-- no step -/
  | refl (s : List Nat) : LeftDerives g s [] s
  /-- one step in front of the others -/
  | head {before after choices t : List Nat} {nt : NonTerminal} {k : Nat} {production : Production} :
      g.Ground before → nt ∈ g.nonTerminals → nt.productions[k]? = some production →
      LeftDerives g (before ++ production ++ after) choices t →
      LeftDerives g (before ++ nt.index :: after) (k :: choices) t

/-- A complete leftmost derivation, followed from the first symbol on. -/
inductive LeftParse (g : Grammar) : List Nat → List Nat → List Nat → Prop
  /-- nothing is left -/
  | nil : LeftParse g [] [] []
  /-- a symbol that is not a non-terminal stays -/
  | keep {a : Nat} {s choices t : List Nat} : ¬ g.isNonTerminal a → LeftParse g s choices t →
      LeftParse g (a :: s) choices (a :: t)
  /-- a non-terminal gives way to a production -/
  | expand {s choices t : List Nat} {nt : NonTerminal} {k : Nat} {production : Production} :
      nt ∈ g.nonTerminals → nt.productions[k]? = some production →
      LeftParse g (production ++ s) choices t → LeftParse g (nt.index :: s) (k :: choices) t

/-- A leftmost derivation is a derivation. -/
theorem LeftDerives.derives (h : g.LeftDerives s choices t) : g.Derives s t := by
  induction h with
  | refl s => exact .refl s
  | head _ hnt hk _ ih => exact .head (.mk _ _ hnt (List.mem_of_getElem? hk)) ih

/-- A symbol that is not a non-terminal may stand in front all along. -/
theorem LeftDerives.cons {a : Nat} (ha : ¬ g.isNonTerminal a) (h : g.LeftDerives s choices t) :
    g.LeftDerives (a :: s) choices (a :: t) := by
  induction h with
  | refl s => exact .refl (a :: s)
  | @head before _ _ _ _ _ _ hbefore hnt hk _ ih =>
    have hmore : g.Ground (a :: before) := by
      intro b hb
      rcases List.mem_cons.mp hb with rfl | hb
      · exact ha
      · exact hbefore b hb
    exact .head hmore hnt hk ih

namespace LeftParse

theorem ground (h : g.LeftParse s choices t) : g.Ground t := by
  induction h with
  | nil => exact fun a ha => absurd ha List.not_mem_nil
  | keep ha _ ih =>
    intro b hb
    rcases List.mem_cons.mp hb with rfl | hb
    · exact ha
    · exact ih b hb
  | expand _ _ _ ih => exact ih

/-- What is ground stays, whatever happens behind it. -/
theorem keepAll (hs : g.Ground s) (h : g.LeftParse s' choices t) : g.LeftParse (s ++ s') choices (s ++ t) := by
  induction s with
  | nil => exact h
  | cons a s ih =>
    have hrest := ih fun b hb => hs b (List.mem_cons_of_mem a hb)
    exact .keep (hs a List.mem_cons_self) hrest

/-! ## Parts -/

/-- Derivations are done one behind the other. -/
theorem append (h : g.LeftParse s choices t) (h' : g.LeftParse s' choices' t') :
    g.LeftParse (s ++ s') (choices ++ choices') (t ++ t') := by
  induction h with
  | nil => exact h'
  | keep ha _ ih => exact .keep ha ih
  | expand hnt hk _ ih =>
    rw [List.append_assoc] at ih
    exact .expand hnt hk ih

/-- A derivation of two parts is done with the first part before it begins with the second. -/
theorem exists_append (h : g.LeftParse (s ++ s') choices t) :
    ∃ c c' u u', choices = c ++ c' ∧ t = u ++ u' ∧ g.LeftParse s c u ∧ g.LeftParse s' c' u' := by
  generalize hform : s ++ s' = form at h
  induction h generalizing s with
  | nil =>
    obtain ⟨rfl, rfl⟩ := List.append_eq_nil_iff.mp hform
    exact ⟨[], [], [], [], rfl, rfl, .nil, .nil⟩
  | @keep a rest choices t ha h ih =>
    cases s with
    | nil =>
      obtain rfl : s' = a :: rest := hform
      exact ⟨[], choices, [], a :: t, rfl, rfl, .nil, .keep ha h⟩
    | cons b s =>
      obtain ⟨rfl, hrest⟩ := List.cons.inj hform
      obtain ⟨c, c', u, u', rfl, rfl, hs, hs'⟩ := ih hrest
      exact ⟨c, c', b :: u, u', rfl, rfl, .keep ha hs, hs'⟩
  -- the production goes in front of the first part, which stays first
  | @expand rest choices t nt k production hnt hk h ih =>
    cases s with
    | nil =>
      obtain rfl : s' = nt.index :: rest := hform
      exact ⟨[], k :: choices, [], t, rfl, rfl, .nil, .expand hnt hk h⟩
    | cons b s =>
      obtain ⟨rfl, rfl⟩ := List.cons.inj hform
      obtain ⟨c, c', u, u', rfl, rfl, hs, hs'⟩ := ih (List.append_assoc production s s')
      exact ⟨k :: c, c', u, u', rfl, rfl, .expand hnt hk hs, hs'⟩

end LeftParse

/-- An expansion anywhere can be made when its turn comes. -/
theorem Expands.exists_leftParse (step : g.Expands s s') (h : g.LeftParse s' choices t) :
    ∃ choices', g.LeftParse s choices' t := by
  obtain ⟨before, after, hnt, hp⟩ := step
  obtain ⟨k, hk⟩ := List.mem_iff_getElem?.mp hp
  rw [List.append_assoc] at h
  obtain ⟨c, c', u, u', rfl, rfl, hbefore, hrest⟩ := h.exists_append
  exact ⟨c ++ k :: c', hbefore.append (.expand hnt hk hrest)⟩

/-- **Every derivation of a ground form can be made leftmost.** -/
theorem exists_leftParse (h : g.Derives s t) (ht : g.Ground t) : ∃ choices, g.LeftParse s choices t := by
  have hself : g.LeftParse t [] t := by
    have hkeep := LeftParse.keepAll ht LeftParse.nil
    rwa [List.append_nil] at hkeep
  -- from the last step of the derivation back to the first
  have hback : ∀ {u choices}, g.LeftParse t choices u → ∃ choices', g.LeftParse s choices' u := by
    clear hself ht
    induction h with
    | refl => exact fun hu => ⟨_, hu⟩
    | tail _ step ih =>
      intro u choices hu
      obtain ⟨choices', hu'⟩ := step.exists_leftParse hu
      exact ih hu'
  exact hback hself

namespace WellFormed

variable (hg : g.WellFormed)
include hg

/-- A leftmost derivation leaves what is ground in front as it is. -/
theorem exists_of_leftParse_append (hs : g.Ground s) (h : g.LeftParse (s ++ s') choices t) :
    ∃ u, t = s ++ u ∧ g.LeftParse s' choices u := by
  induction s generalizing t with
  | nil => exact ⟨t, rfl, h⟩
  | cons a s ih =>
    cases h with
    | keep _ h =>
      obtain ⟨u, rfl, hu⟩ := ih (fun b hb => hs b (List.mem_cons_of_mem a hb)) h
      exact ⟨u, rfl, hu⟩
    | expand hnt => exact absurd (hg.isNonTerminal_index hnt) (hs _ List.mem_cons_self)

/-- **Both forms agree** on complete derivations. -/
theorem leftParse_iff : g.LeftParse s choices t ↔ g.LeftDerives s choices t ∧ g.Ground t := by
  refine ⟨?_, ?_⟩
  · intro h
    refine ⟨?_, h.ground⟩
    induction h with
    | nil => exact .refl []
    | keep ha _ ih => exact ih.cons ha
    | expand hnt hk _ ih =>
      have hnone : g.Ground [] := fun a ha => absurd ha List.not_mem_nil
      exact .head hnone hnt hk ih
  · rintro ⟨h, ht⟩
    induction h with
    | refl s =>
      have hkeep := LeftParse.keepAll ht LeftParse.nil
      rwa [List.append_nil] at hkeep
    | head hbefore hnt hk _ ih =>
      have hrest := ih ht
      rw [List.append_assoc] at hrest
      obtain ⟨u, rfl, hu⟩ := hg.exists_of_leftParse_append hbefore hrest
      exact .keepAll hbefore (.expand hnt hk hu)

end WellFormed

end Grammar

end PredictiveGrammar
