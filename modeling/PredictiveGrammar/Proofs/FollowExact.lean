import PredictiveGrammar.Proofs.FollowClosure
import PredictiveGrammar.Proofs.Lists

/-!
# FOLLOW is exact

FOLLOW of a non-terminal holds exactly the terminals that can stand right behind it in what some non-terminal
derives, and the end mark if it can stand at the end of what the start symbol derives. Members are justified
because a form with the left side of a production in it gives way to one with any occurrence in the production
(`Grammar.Derives.descend`). Nothing is missing because of what holds at every place of every form derived
from a non-terminal: FIRST of what stands behind the place is in FOLLOW of what stands there, and so is FOLLOW
of the non-terminal if what stands behind can vanish (`Grammar.Covers`).
-/

namespace PredictiveGrammar

/-- The sets of the non-terminals hold what can stand behind them. -/
structure FollowSets.Exact (g : Grammar) (W : FollowSets) : Prop where
  /-- the sets belong to the grammar -/
  isFor : W.isFor g
  /-- the non-terminals have sets -/
  keys : ∀ k, k ∈ W.sets.keys ↔ g.isNonTerminal k
  /-- a member stands behind the non-terminal, or is the end mark if the non-terminal can stand at the end -/
  mem_iff : ∀ B, g.isNonTerminal B → ∀ t, t ∈ W.sets.getD B ↔
    g.isTerminal t ∧ (∃ A, g.isNonTerminal A ∧ g.Adjoins [A] B t) ∨
      t = endMarkIndex ∧ ∃ S, g.start = some S ∧ g.EndsIn [S] B

namespace Grammar

variable {g : Grammar} {F : FirstSets} {sets : SetFamily} {o : Occurrence} {s t : List Nat} {a A B : Nat}

/-! ## Members are justified -/

/-- From the left side of a production to an occurrence in it, with what stands behind brought along. -/
theorem Derives.descend (ho : o ∈ g.occurrences) {before after rest : List Nat}
    (h : g.Derives s (before ++ o.left :: after)) (hrest : g.Derives o.rest rest) :
    ∃ before', g.Derives s (before' ++ o.symbol :: (rest ++ after)) := by
  obtain ⟨nt, hnt, production, hp, hleft, -, start, rfl⟩ := mem_occurrences.mp ho
  rw [hleft] at h
  have hstep := h.trans (Derives.expand hnt hp before after)
  have hbehind := ((hrest.append_right after).append_left (before ++ start ++ [o.symbol]))
  refine ⟨before ++ start, hstep.trans ?_⟩
  simpa only [List.append_assoc, List.cons_append, List.nil_append] using hbehind

namespace WellFormed

variable (hg : g.WellFormed)
include hg

theorem occurrence_rest_lt (ho : o ∈ g.occurrences) : ∀ i ∈ o.rest, i < g.symbols.length := by
  obtain ⟨nt, hnt, production, hp, -, -, start, rfl⟩ := mem_occurrences.mp ho
  exact fun i hi => hg.production_lt hnt hp i (List.mem_append_right _ (List.mem_cons_of_mem _ hi))

/-- A non-terminal stands in the visible part of a form. -/
theorem visible_nonTerminal_cons (h : g.isNonTerminal B) (before after : List Nat) :
    visible (before ++ B :: after) = visible before ++ B :: visible after := by
  rw [visible_append, visible_cons_of_ne (hg.ne_epsilon_of_isNonTerminal h)]

/-- **Members are justified**: what a FOLLOW set has to hold stands behind its non-terminal in some form. -/
theorem exists_of_carried (h : g.Carried g.first (FollowSets.seed g).sets B a) :
    g.isNonTerminal B ∧
      (g.isTerminal a ∧ (∃ A, g.isNonTerminal A ∧ g.Adjoins [A] B a) ∨
        a = endMarkIndex ∧ ∃ S, g.start = some S ∧ g.EndsIn [S] B) := by
  induction h with
  | given ha =>
    obtain ⟨hstart, rfl⟩ := mem_seed.mp ha
    have hnt := hg.start _ hstart
    refine ⟨hnt, Or.inr ⟨rfl, _, hstart, _, [], .refl _, ?_⟩⟩
    exact visible_cons_of_ne (hg.ne_epsilon_of_isNonTerminal hnt) []
  | @first o a ho ha hne =>
    obtain ⟨nt, hnt, production, -, hleft, hsymbol, -⟩ := mem_occurrences.mp ho
    have hlt := hg.occurrence_rest_lt ho
    have hterminal := hg.isTerminal_of_mem_first hlt ha hne
    obtain ⟨rest, behind, hrest, hvisible⟩ := (hg.mem_first_iff hlt hterminal).mp ha
    have hrefl : g.Derives [o.left] ([] ++ o.left :: []) := .refl _
    obtain ⟨before, hform⟩ := hrefl.descend ho hrest
    refine ⟨hsymbol, Or.inl ⟨hterminal, o.left, hleft ▸ hg.isNonTerminal_index hnt, ?_⟩⟩
    refine ⟨_, visible before, behind, hform, ?_⟩
    rw [hg.visible_nonTerminal_cons hsymbol, List.append_nil, hvisible]
  | @left o a ho h0 _ ih =>
    obtain ⟨-, -, -, -, -, hsymbol, -⟩ := mem_occurrences.mp ho
    obtain ⟨rest, hrest, hnone⟩ := (hg.epsilon_mem_first_iff (hg.occurrence_rest_lt ho)).mp h0
    refine ⟨hsymbol, ?_⟩
    -- the form that puts `a` behind the left side puts it behind the occurrence after one more step
    rcases ih.2 with ⟨hterminal, A, hA, form, before, behind, hform, hvisible⟩ |
      ⟨hend, S, hS, form, before, hform, hvisible⟩
    · obtain ⟨l, m, rfl, -, hm⟩ := exists_of_visible_eq hvisible
      obtain ⟨l', hform'⟩ := hform.descend ho hrest
      refine Or.inl ⟨hterminal, A, hA, _, visible l', behind, hform', ?_⟩
      rw [hg.visible_nonTerminal_cons hsymbol, visible_append, hnone, hm, List.nil_append]
    · obtain ⟨l, m, rfl, -, hm⟩ := exists_of_visible_eq hvisible
      obtain ⟨l', hform'⟩ := hform.descend ho hrest
      refine Or.inr ⟨hend, S, hS, _, visible l', hform', ?_⟩
      rw [hg.visible_nonTerminal_cons hsymbol, visible_append, hnone, hm, List.nil_append]

end WellFormed

/-! ## Nothing is missing -/

/-- At every place of the form, the closure covers what stands behind the place. -/
def Covers (g : Grammar) (sets : SetFamily) (A : Nat) (t : List Nat) : Prop :=
  ∀ before B after, t = before ++ B :: after → g.isNonTerminal B →
    (∀ a ∈ g.first.ofSequence after, a ≠ epsilonIndex → g.Carried g.first sets B a) ∧
      (epsilonIndex ∈ g.first.ofSequence after →
        ∀ a, g.Carried g.first sets A a → g.Carried g.first sets B a)

/-- In a form of one symbol nothing stands behind it. -/
theorem covers_self (g : Grammar) (sets : SetFamily) (A : Nat) : g.Covers sets A [A] := by
  intro before B after h _
  rcases List.append_eq_singleton_iff.mp h.symm with ⟨-, hsingle⟩ | ⟨-, hsingle⟩
  · obtain ⟨rfl, rfl⟩ := List.cons.inj hsingle
    exact ⟨fun a ha hne => absurd (FirstSets.mem_ofSequence_nil.mp ha) hne, fun _ a ha => ha⟩
  · cases hsingle

namespace WellFormed

variable (hg : g.WellFormed)
include hg

/-- **A step keeps places covered.** A place of the new form is one of the old form, with less in FIRST
behind it, or an occurrence in the production. -/
theorem covers_expand {nt : NonTerminal} {production : Production} {before after : List Nat}
    (hnt : nt ∈ g.nonTerminals) (hp : production ∈ nt.productions)
    (hlt : ∀ i ∈ before ++ nt.index :: after, i < g.symbols.length)
    (h : g.Covers sets A (before ++ nt.index :: after)) :
    g.Covers sets A (before ++ production ++ after) := by
  intro x B y hform hB
  have hindex : g.isNonTerminal nt.index := hg.isNonTerminal_index hnt
  rcases append_eq_append_cons hform with ⟨n, hn, rfl⟩ | ⟨n, rfl, rfl⟩
  · rcases append_eq_append_cons hn with ⟨m, rfl, rfl⟩ | ⟨m, rfl, rfl⟩
    -- in front of the production
    · obtain ⟨hfirst, hleft⟩ := h x B (m ++ nt.index :: after) (by simp) hB
      have hmiddle : g.first.ofSequence (m ++ production ++ after) ⊆
          g.first.ofSequence (m ++ nt.index :: after) := by
        rw [List.append_assoc]
        exact hg.first_subset_of_middle (fun i hi => hlt i (by simp [hi])) (hg.production_lt hnt hp)
          (List.forall_mem_singleton.mpr (hg.index_lt hnt)) (hg.first_production_subset hnt hp)
      exact ⟨fun a ha hne => hfirst a (hmiddle a ha) hne, fun h0 => hleft (hmiddle _ h0)⟩
    -- in the production
    · have ho : ⟨nt.index, B, n⟩ ∈ g.occurrences :=
        mem_occurrences.mpr ⟨nt, hnt, _, hp, rfl, hB, m, rfl⟩
      have hrest : ∀ i ∈ n, i < g.first.sets.length := by
        rw [hg.length_first]
        exact hg.occurrence_rest_lt ho
      obtain ⟨hfirst, hleft⟩ := h before nt.index after rfl hindex
      refine ⟨?_, ?_⟩
      · intro a ha hne
        rcases (FirstSets.mem_ofSequence_append hrest).mp ha with ⟨ha, -⟩ | ⟨h0, ha⟩
        · exact .first ho ha hne
        · exact .left ho h0 (hfirst a ha hne)
      · intro h0 a ha
        rcases (FirstSets.mem_ofSequence_append hrest).mp h0 with ⟨-, hne⟩ | ⟨h0, h0'⟩
        · exact absurd rfl hne
        · exact .left ho h0 (hleft h0' a ha)
  -- behind the production
  · exact h (before ++ nt.index :: n) B y (by simp) hB

/-- **Every form derived from a non-terminal is covered.** -/
theorem covers_of_derives (hA : g.isNonTerminal A) (h : g.Derives [A] t) : g.Covers sets A t := by
  induction h with
  | refl => exact g.covers_self sets A
  | tail h step ih =>
    obtain ⟨before, after, hnt, hp⟩ := step
    have hself : ∀ i ∈ [A], i < g.symbols.length := List.forall_mem_singleton.mpr (lt_of_isNonTerminal hA)
    exact hg.covers_expand hnt hp (hg.lt_of_derives h hself) ih

/-- A terminal that can stand behind a non-terminal is carried to it. -/
theorem carried_of_adjoins (hA : g.isNonTerminal A) (hB : g.isNonTerminal B) (ha : g.isTerminal a)
    (h : g.Adjoins [A] B a) : g.Carried g.first sets B a := by
  obtain ⟨form, before, behind, hform, hvisible⟩ := h
  obtain ⟨x, y, rfl, -, hy⟩ := exists_of_visible_eq hvisible
  have hcovers : g.Covers sets A (x ++ B :: y) := hg.covers_of_derives hA hform
  obtain ⟨hfirst, -⟩ := hcovers x B y rfl hB
  exact hfirst a (hg.mem_first_of_visible ha hy) (hg.ne_epsilon_of_isTerminal ha)

/-- The end mark is carried to a non-terminal that can stand at the end. -/
theorem carried_of_endsIn {S : Nat} (hS : g.start = some S) (hB : g.isNonTerminal B)
    (h : g.EndsIn [S] B) : g.Carried g.first (FollowSets.seed g).sets B endMarkIndex := by
  obtain ⟨form, before, hform, hvisible⟩ := h
  obtain ⟨x, y, rfl, -, hy⟩ := exists_of_visible_eq hvisible
  obtain ⟨-, hleft⟩ := hg.covers_of_derives (hg.start S hS) hform x B y rfl hB
  exact hleft (hg.epsilon_mem_first_of_visible hy) _ (.given (mem_seed.mpr ⟨hS, rfl⟩))

/-! ## Both together -/

/-- **The FOLLOW sets of a well-formed grammar are exact**, and asking for them does not fail. -/
theorem follow_eq : ∃ W, g.follow g.first = .ok W ∧ W.Exact g := by
  obtain ⟨W, hW, hkeys, hmem, hfor⟩ := mem_extendFollow g.isFor_first g.isFor_seed
  refine ⟨W, hW, hfor, fun k => ?_, fun B hB t => ?_⟩
  · rw [hkeys, hg.mem_keys_directFollow, mem_keys_seed]
    exact or_iff_right_of_imp (hg.start k)
  · rw [hmem]
    refine ⟨fun h => (hg.exists_of_carried h).2, ?_⟩
    rintro (⟨ht, A, hA, hadjoins⟩ | ⟨rfl, S, hS, hends⟩)
    · exact hg.carried_of_adjoins hA hB ht hadjoins
    · exact hg.carried_of_endsIn hS hB hends

end WellFormed

/-- What stands behind a symbol in something derived from a part stands behind it in the whole. -/
theorem Adjoins.of_mem (h : g.Derives s t) (hA : A ∈ t) (hadjoins : g.Adjoins [A] B a) :
    g.Adjoins s B a := by
  obtain ⟨x, y, rfl⟩ := List.append_of_mem hA
  obtain ⟨form, before, behind, hform, hvisible⟩ := hadjoins
  have hwhole := h.trans ((hform.append_right y).append_left x)
  refine ⟨_, visible x ++ before, behind ++ visible y, hwhole, ?_⟩
  rw [visible_append, visible_append, hvisible]
  simp

/-! ## In built grammars -/

/-- **FOLLOW is exact**: computing it succeeds, its keys are the non-terminals, and FOLLOW of `B` holds the
terminals that stand right behind `B` in some form derived from some non-terminal, and the end mark if the
start symbol derives a form that ends in `B`. If all non-terminals are reachable, the forms derived from the
start symbol are enough. -/
theorem Built.follow_exact (hg : g.Built) :
    ∃ W, g.follow g.first = .ok W ∧ (∀ k, k ∈ W.sets.keys ↔ g.isNonTerminal k) ∧
      ∀ B, g.isNonTerminal B → ∃ set, W.get? B = some set ∧ epsilonIndex ∉ set ∧
        (∀ t, t ∈ set ↔
          g.isTerminal t ∧ (∃ A, g.isNonTerminal A ∧ g.Adjoins [A] B t) ∨
            t = endMarkIndex ∧ ∃ S, g.start = some S ∧ g.EndsIn [S] B) ∧
        ∀ S, g.start = some S → (∀ A, g.isNonTerminal A → ∃ form, g.Derives [S] form ∧ A ∈ form) →
          ∀ t, t ∈ set ↔ g.isTerminal t ∧ g.Adjoins [S] B t ∨ t = endMarkIndex ∧ g.EndsIn [S] B := by
  have hwf := hg.wellFormed
  obtain ⟨W, hW, -, hkeys, hmem⟩ := hwf.follow_eq
  refine ⟨W, hW, hkeys, fun B hB => ?_⟩
  refine ⟨W.sets.getD B, SetFamily.get?_eq_some_getD ((hkeys B).mpr hB), fun h0 => ?_, hmem B hB, ?_⟩
  -- epsilon is neither a terminal nor the end mark
  · rcases (hmem B hB _).mp h0 with ⟨hterminal, -⟩ | ⟨hend, -⟩
    · exact hwf.not_isTerminal_epsilon hterminal
    · cases hend
  -- where every non-terminal is reached, to follow in any form is to follow in one from the start symbol
  · intro S hS hreach t
    rw [hmem B hB t]
    refine ⟨?_, ?_⟩
    · rintro (⟨ht, A, hA, hadjoins⟩ | ⟨rfl, S', hS', hends⟩)
      · obtain ⟨form, hform, hin⟩ := hreach A hA
        exact Or.inl ⟨ht, hadjoins.of_mem hform hin⟩
      · obtain rfl := Option.some.inj (hS.symm.trans hS')
        exact Or.inr ⟨rfl, hends⟩
    · rintro (⟨ht, hadjoins⟩ | ⟨rfl, hends⟩)
      · exact Or.inl ⟨ht, S, hwf.start S hS, hadjoins⟩
      · exact Or.inr ⟨rfl, S, hS, hends⟩

/-- A grammar with a trailer that vanishes, and with a non-terminal `U` that is not reachable. -/
def nullableTrailer : Grammar :=
  .ofRules [⟨"S", [["A", "B"]]⟩, ⟨"A", [["a"]]⟩, ⟨"B", [["b"], []]⟩, ⟨"U", [["A", "u"]]⟩]

/-- There `b` can stand behind `A` and, because of `U`, so can `u`, but not `a`. -/
theorem Built.follow_exact_nullableTrailer :
    nullableTrailer.Built ∧
      (∃ A, nullableTrailer.Adjoins [A] 3 7) ∧ (∃ A, nullableTrailer.Adjoins [A] 3 8) ∧
      ∀ A, nullableTrailer.isNonTerminal A → ¬ nullableTrailer.Adjoins [A] 3 6 := by
  have hbuilt : nullableTrailer.Built := .ofRules _
  obtain ⟨W, hW, -, hsets⟩ := Built.follow_exact hbuilt
  obtain ⟨set, hset, -, hmem, -⟩ := hsets 3 (by decide)
  have hvalue : set = .ofList [1, 7, 8] := by
    have hknown : ((nullableTrailer.follow nullableTrailer.first).toOption.bind (·.get? 3)) =
        some (.ofList [1, 7, 8]) := by decide
    rw [hW] at hknown
    exact Option.some.inj (hset.symm.trans hknown)
  rw [hvalue] at hmem
  refine ⟨hbuilt, ?_, ?_, fun A hA hadjoins => ?_⟩
  · rcases (hmem 7).mp (by decide) with ⟨-, A, -, hadjoins⟩ | ⟨hend, -⟩
    · exact ⟨A, hadjoins⟩
    · cases hend
  · rcases (hmem 8).mp (by decide) with ⟨-, A, -, hadjoins⟩ | ⟨hend, -⟩
    · exact ⟨A, hadjoins⟩
    · cases hend
  · exact absurd ((hmem 6).mpr (Or.inl ⟨by decide, A, hA, hadjoins⟩)) (by decide)

end Grammar

end PredictiveGrammar
