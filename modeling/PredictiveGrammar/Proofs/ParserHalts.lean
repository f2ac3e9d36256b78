import PredictiveGrammar.Proofs.PredictiveParser

/-!
# Conflict-free tables never loop

A table-driven parser can expand for ever under one and the same next name only by expanding non-terminals in front.
If the table has no conflicts, it makes the expansions of a derivation that justifies the cell it reads. A cell
justified by FIRST comes with expansions that bring the next terminal to the front (`Grammar.Surfaces`), and the parser
follows them until it matches the terminal (`Grammar.WellFormed.halts_of_surfaces`). A cell justified by FOLLOW comes
with expansions that make the non-terminal vanish, and the parser follows them until the stack has become smaller
(`Grammar.WellFormed.halts_of_leftParse`). So the parser stops on any stack and input
(`Grammar.WellFormed.halts`).
-/

namespace PredictiveGrammar

/-! ## Runs of the parser -/

namespace Table

/-- What the parser holds after a number of steps, if it makes so many. -/
def steps (T : Table) : Nat → List String × List String → Option (List String × List String)
  | 0, c => some c
  | n + 1, c => (T.step c).bind (T.steps n)

/-- The parser stops. -/
inductive Halts (T : Table) : List String × List String → Prop
  /-- there is no step -/
  | stop {c : List String × List String} : T.step c = none → Halts T c
  /-- it stops after the step -/
  | step {c c' : List String × List String} : T.step c = some c' → Halts T c' → Halts T c

variable {T : Table} {c c' d : List String × List String} {m n : Nat} {A : String}
  {stack stack' rest input input' : List String}

theorem Halts.exists_steps (h : T.Halts c) : ∃ n d, T.steps n c = some d ∧ T.step d = none := by
  induction h with
  | @stop c hstop => exact ⟨0, c, rfl, hstop⟩
  | step hstep _ ih =>
    obtain ⟨n, d, hd, hstop⟩ := ih
    refine ⟨n + 1, d, ?_, hstop⟩
    rw [steps, hstep]
    exact hd

theorem steps_add (h : T.steps m c = some c') : T.steps (m + n) c = T.steps n c' := by
  induction m generalizing c with
  | zero =>
    obtain rfl := Option.some.inj h
    rw [Nat.zero_add]
  | succ m ih =>
    rw [steps] at h
    obtain ⟨d, hstep, hd⟩ := Option.bind_eq_some_iff.mp h
    rw [Nat.add_right_comm, steps, hstep]
    exact ih hd

/-- There are no steps behind the last one. -/
theorem steps_eq_none (h : T.steps n c = some d) (hstop : T.step d = none) (hm : n < m) :
    T.steps m c = none := by
  obtain ⟨k, rfl⟩ := Nat.exists_eq_add_of_lt hm
  rw [Nat.add_assoc, steps_add h, steps, hstop]
  rfl

/-! ## What lies below -/

theorem consume_append {top : String} (h : consume top stack input = some (stack', input'))
    (rest : List String) : consume top (stack ++ rest) input = some (stack' ++ rest, input') := by
  cases input with
  | nil => cases h
  | cons next input =>
    rw [consume] at h ⊢
    split at h
    · next heq =>
      obtain ⟨rfl, rfl⟩ := Prod.mk.inj (Option.some.inj h)
      exact if_pos heq
    · cases h

/-- A step does not depend on what lies below the part of the stack that it works on. -/
theorem step_append (h : T.step (stack, input) = some (stack', input')) (rest : List String) :
    T.step (stack ++ rest, input) = some (stack' ++ rest, input') := by
  cases stack with
  | nil => cases h
  | cons top stack =>
    rw [List.cons_append]
    rw [step] at h ⊢
    split at h
    · next heq =>
      obtain ⟨rfl, rfl⟩ := Prod.mk.inj (Option.some.inj h)
      exact if_pos heq
    · next hne =>
      rw [if_neg hne]
      split at h
      · next hrow =>
        obtain ⟨right, hright, heq⟩ := Option.map_eq_some_iff.mp h
        obtain ⟨rfl, rfl⟩ := Prod.mk.inj heq
        rw [if_pos hrow, hright, Option.map_some, List.append_assoc]
      · next hrow =>
        rw [if_neg hrow]
        exact consume_append h rest

theorem steps_append (h : T.steps n (stack, input) = some (stack', input')) (rest : List String) :
    T.steps n (stack ++ rest, input) = some (stack' ++ rest, input') := by
  induction n generalizing stack input with
  | zero =>
    obtain ⟨rfl, rfl⟩ := Prod.mk.inj (Option.some.inj h)
    rfl
  | succ n ih =>
    rw [steps] at h ⊢
    obtain ⟨⟨stack₁, input₁⟩, hstep, hrest⟩ := Option.bind_eq_some_iff.mp h
    rw [step_append hstep rest]
    exact ih hrest

/-- Where a symbol comes back to the top over the same input, the steps in between can be made again and again. -/
theorem exists_steps_mul (h : T.steps n ([A], input) = some (A :: stack, input)) (k : Nat) :
    ∃ stack', T.steps (n * k) ([A], input) = some (A :: stack', input) := by
  induction k with
  | zero => exact ⟨[], rfl⟩
  | succ k ih =>
    obtain ⟨stack', hstack⟩ := ih
    refine ⟨stack ++ stack', ?_⟩
    rw [Nat.mul_succ, steps_add hstack]
    exact steps_append h stack'

/-- **A parser that stops is not left recursive**: no symbol comes back to the top over the same input. -/
theorem Halts.steps_ne (h : T.Halts ([A], input)) :
    T.steps (n + 1) ([A], input) ≠ some (A :: stack, input) := by
  intro hback
  obtain ⟨last, d, hd, hstop⟩ := h.exists_steps
  obtain ⟨stack', hmore⟩ := exists_steps_mul hback (last + 1)
  have hle : last + 1 ≤ (n + 1) * (last + 1) := Nat.le_mul_of_pos_left _ n.succ_pos
  have hlt : last < (n + 1) * (last + 1) := Nat.lt_of_succ_le hle
  rw [steps_eq_none hd hstop hlt] at hmore
  cases hmore

/-- A table answers for its terminals only. -/
theorem mem_terminals_of_get? {name terminal : String} {right : List String}
    (h : T.get? name terminal = some right) : terminal ∈ T.terminals := by
  simp only [Table.get?, Option.bind_eq_bind, Option.bind_eq_some_iff] at h
  obtain ⟨j, hj, -⟩ := h
  exact List.isSome_idxOf?.mp (Option.isSome_of_eq_some hj)

end Table

namespace Grammar

variable {g : Grammar} {W : FollowSets} {nt : NonTerminal} {a A : Nat} {s s' t before choices : List Nat}
  {stack input : List String}

/-! ## Bringing a terminal to the front -/

/-- Expanding what stands in front, and dropping `ε`, brings `a` to the front. -/
inductive Surfaces (g : Grammar) (a : Nat) : List Nat → Prop
  /-- it stands there -/
  | here (s : List Nat) : Surfaces g a (a :: s)
  /-- `ε` is dropped -/
  | silent {s : List Nat} : Surfaces g a s → Surfaces g a (epsilonIndex :: s)
  /-- a non-terminal gives way to a production -/
  | expand {s : List Nat} {nt : NonTerminal} {production : Production} : nt ∈ g.nonTerminals →
      production ∈ nt.productions → Surfaces g a (production ++ s) → Surfaces g a (nt.index :: s)

theorem Surfaces.begins (h : g.Surfaces a s) (ha : a ≠ epsilonIndex) : g.Begins s a := by
  induction h with
  | here s => exact g.begins_self ha s
  | silent _ ih =>
    have hvanishes : g.Vanishes [epsilonIndex] := ⟨[epsilonIndex], .refl _, rfl⟩
    exact hvanishes.begins_append ih
  | @expand s _ _ hnt hp _ ih => exact (Derives.expand hnt hp [] s).begins ih

/-- An expansion anywhere can be made when its turn comes, or is not needed. -/
theorem Expands.surfaces (step : g.Expands s s') (h : g.Surfaces a s') : g.Surfaces a s := by
  obtain @⟨before, after, nt, production, hnt, hp⟩ := step
  rw [List.append_assoc] at h
  generalize hform : before ++ (production ++ after) = form at h
  induction h generalizing before with
  -- the symbol surfaces at once, in the production or in front of it
  | here form =>
    cases before with
    | nil => exact .expand hnt hp (hform ▸ .here form)
    | cons b before =>
      obtain ⟨rfl, -⟩ := List.cons.inj hform
      exact .here _
  -- an `ε` in front of it is in the production or before it
  | silent hsurfaces ih =>
    cases before with
    | nil => exact .expand hnt hp (hform ▸ .silent hsurfaces)
    | cons b before =>
      obtain ⟨rfl, hrest⟩ := List.cons.inj hform
      exact .silent (ih before hrest)
  -- a non-terminal in front of it is in the production or before it
  | @expand rest nt' production' hnt' hp' hsurfaces ih =>
    cases before with
    | nil => exact .expand hnt hp (hform ▸ .expand hnt' hp' hsurfaces)
    | cons b before =>
      rw [List.cons_append] at hform ⊢
      obtain ⟨rfl, rfl⟩ := List.cons.inj hform
      have hmore := ih (production' ++ before) (List.append_assoc _ _ _)
      rw [List.append_assoc] at hmore
      exact .expand hnt' hp' hmore

/-- **What a form begins with can be brought to the front.** -/
theorem Begins.surfaces (h : g.Begins s a) : g.Surfaces a s := by
  obtain ⟨t, rest, hderives, hvisible⟩ := h
  have hfront : g.Surfaces a t := by
    have hsplit : visible t = [] ++ a :: rest := hvisible
    obtain ⟨silent, after, rfl, hnone, -⟩ := exists_of_visible_eq hsplit
    clear hvisible hsplit hderives
    induction silent with
    | nil => exact .here after
    | cons b silent ih =>
      have hall := visible_eq_nil_iff.mp hnone
      obtain rfl : b = epsilonIndex := hall b List.mem_cons_self
      exact .silent (ih (visible_eq_nil_iff.mpr fun c hc => hall c (List.mem_cons_of_mem _ hc)))
  -- from the last step of the derivation back to the first
  clear hvisible
  induction hderives with
  | refl => exact hfront
  | tail _ step ih => exact ih (step.surfaces hfront)

namespace WellFormed

variable (hg : g.WellFormed) (hW : W.Exact g)
include hg hW

/-! ## Cells that are justified -/

/-- FOLLOW sets are the closure. -/
theorem mem_follow_iff_carried (hA : g.isNonTerminal A) :
    a ∈ W.sets.getD A ↔ g.Carried g.first (FollowSets.seed g).sets A a := by
  rw [hW.mem_iff A hA a]
  refine ⟨?_, fun h => (hg.exists_of_carried h).2⟩
  rintro (⟨ha, B, hB, hadjoins⟩ | ⟨rfl, S, hS, hends⟩)
  · exact hg.carried_of_adjoins hB hA ha hadjoins
  · exact hg.carried_of_endsIn hS hA hends

/-- What follows a non-terminal follows every symbol of a production of it that vanishes. -/
theorem mem_follow_of_vanishing (hnt : nt ∈ g.nonTerminals) {production : Production}
    (hp : production ∈ nt.productions) (h0 : epsilonIndex ∈ g.first.ofSequence production)
    (ha : a ∈ W.sets.getD nt.index) (hA : A ∈ production) (hAnt : g.isNonTerminal A) :
    a ∈ W.sets.getD A := by
  obtain ⟨before, rest, rfl⟩ := List.append_of_mem hA
  have hlt : ∀ i ∈ before ++ A :: rest, i < g.first.sets.length := by
    rw [hg.length_first]
    exact hg.production_lt hnt hp
  have hrest : epsilonIndex ∈ g.first.ofSequence rest := by
    rw [FirstSets.epsilon_mem_ofSequence hlt] at h0
    apply (FirstSets.epsilon_mem_ofSequence fun i hi => hlt i (by simp [hi])).mpr
    exact fun i hi => h0 i (by simp [hi])
  have ho : ⟨nt.index, A, rest⟩ ∈ g.occurrences :=
    mem_occurrences.mpr ⟨nt, hnt, _, hp, rfl, hAnt, before, rfl⟩
  rw [hg.mem_follow_iff_carried hW (hg.isNonTerminal_index hnt)] at ha
  exact (hg.mem_follow_iff_carried hW hAnt).mpr (.left ho hrest ha)

/-- A production that brings `a` to the front, alone or with what stands behind it in a form, is to be used for it. -/
theorem mem_predict_of_surfaces (hA : g.isNonTerminal A) (ha : g.isTerminal a)
    (hform : g.Derives [A] (before ++ nt.index :: s)) (hnt : nt ∈ g.nonTerminals)
    {production : Production} (hp : production ∈ nt.productions) (h : g.Surfaces a (production ++ s)) :
    a ∈ predict g.first W nt.index production := by
  have hindex := hg.isNonTerminal_index hnt
  have hne := hg.ne_epsilon_of_isTerminal ha
  have hself : ∀ i ∈ [A], i < g.symbols.length := List.forall_mem_singleton.mpr (lt_of_isNonTerminal hA)
  have hlt := hg.lt_of_derives (hform.trans (Derives.expand hnt hp before s)) hself
  have hlt' : ∀ i ∈ production ++ s, i < g.symbols.length := fun i hi =>
    hlt i (by rw [List.append_assoc]; exact List.mem_append_right _ hi)
  have hfirst := (hg.mem_first_iff hlt' ha).mpr (h.begins hne)
  have hproduction : ∀ i ∈ production, i < g.first.sets.length := hg.length_first ▸ hg.production_lt hnt hp
  rw [mem_predict]
  rcases (FirstSets.mem_ofSequence_append hproduction).mp hfirst with hfirst | ⟨h0, hfirst⟩
  · exact Or.inl hfirst
  -- the production vanishes, so `a` comes from behind the non-terminal
  · refine Or.inr ⟨h0, (hW.mem_iff _ hindex a).mpr (Or.inl ⟨ha, A, hA, ?_⟩)⟩
    have hs : ∀ i ∈ s, i < g.symbols.length := fun i hi => hlt' i (List.mem_append_right _ hi)
    obtain ⟨u, rest, hu, hvisible⟩ := (hg.mem_first_iff hs ha).mp hfirst
    refine ⟨_, visible before, rest, hform.trans ((hu.append_left [nt.index]).append_left before), ?_⟩
    rw [List.singleton_append, hg.visible_nonTerminal_cons hindex, hvisible]

section conflictFree

variable (hconflicts : (g.namedTable g.first W).conflicts = [])
include hconflicts

/-! ## Following the justification -/

section next

variable (hnext : input.headD PredictiveGrammar.endMark = g.label a)
include hnext

/-- The parser expands a non-terminal by the production to be used for the next terminal. -/
theorem halts_expand (hnt : nt ∈ g.nonTerminals) {production : Production}
    (hp : production ∈ nt.productions) (hpredict : a ∈ predict g.first W nt.index production)
    (h : (g.namedTable g.first W).Halts (production.map g.label ++ stack, input)) :
    (g.namedTable g.first W).Halts (g.label nt.index :: stack, input) := by
  refine .step ?_ h
  rw [hg.step_nonTerminal hW hnt, hnext, hg.get?_of_mem_predict hW hconflicts hnt hp hpredict]
  rfl

/-- **The parser brings the next terminal to the front**, and then it depends on what is below. -/
theorem halts_of_surfaces (ha : g.isTerminal a) (hA : g.isNonTerminal A)
    (hform : g.Derives [A] (before ++ s)) (h : g.Surfaces a s)
    (hmatch : ∀ stack, (g.namedTable g.first W).Halts (g.label a :: stack, input)) :
    (g.namedTable g.first W).Halts (s.map g.label ++ stack, input) := by
  induction h generalizing before with
  | here s => exact hmatch _
  | @silent s _ ih =>
    have hform' : g.Derives [A] (before ++ [epsilonIndex] ++ s) := by rwa [List.append_assoc]
    exact .step (hg.step_epsilon _ _ _) (ih hform')
  | @expand s nt production hnt hp hsurfaces ih =>
    have hexpand := hform.trans (Derives.expand hnt hp before s)
    rw [List.append_assoc] at hexpand
    have hpredict := hg.mem_predict_of_surfaces hW hA ha hform hnt hp hsurfaces
    have hrest := ih hexpand
    rw [List.map_append, List.append_assoc] at hrest
    exact hg.halts_expand hW hconflicts hnext hnt hp hpredict hrest

/-- **The parser drops what vanishes** before a terminal that can follow, and then it depends on what is below. -/
theorem halts_of_leftParse (h : g.LeftParse s choices t) (ht : visible t = [])
    (hfollow : ∀ b ∈ s, g.isNonTerminal b → a ∈ W.sets.getD b)
    (hbelow : (g.namedTable g.first W).Halts (stack, input)) :
    (g.namedTable g.first W).Halts (s.map g.label ++ stack, input) := by
  induction h with
  | nil => exact hbelow
  -- all that is kept is `ε`
  | @keep b s choices t _ _ ih =>
    have hall := visible_eq_nil_iff.mp ht
    obtain rfl : b = epsilonIndex := hall b List.mem_cons_self
    rw [visible_epsilon_cons] at ht
    exact .step (hg.step_epsilon _ _ _) (ih ht fun c hc => hfollow c (List.mem_cons_of_mem _ hc))
  -- a non-terminal that vanishes is expanded for whatever can follow it
  | @expand s choices t nt k production hnt hk h ih =>
    have hp := List.mem_of_getElem? hk
    obtain ⟨c, c', u, v, rfl, rfl, hu, hv⟩ := h.exists_append
    rw [visible_append, List.append_eq_nil_iff] at ht
    have hvanishes : g.Vanishes production := ⟨u, (hg.leftParse_iff.mp hu).1.derives, ht.1⟩
    have h0 := (hg.epsilon_mem_first_iff (hg.production_lt hnt hp)).mpr hvanishes
    have hself := hfollow _ List.mem_cons_self (hg.isNonTerminal_index hnt)
    have hrest := ih (by rw [visible_append, ht.1, ht.2]; rfl) ?_
    · rw [List.map_append, List.append_assoc] at hrest
      exact hg.halts_expand hW hconflicts hnext hnt hp (mem_predict.mpr (Or.inr ⟨h0, hself⟩)) hrest
    -- what can follow it can follow the symbols of its production as well, since they all vanish
    · intro b hb hbnt
      rcases List.mem_append.mp hb with hb | hb
      · exact hg.mem_follow_of_vanishing hW hnt hp h0 hself hb hbnt
      · exact hfollow b (List.mem_cons_of_mem _ hb) hbnt

/-- A non-terminal with a cell for the next terminal is worked off, whichever set justifies the cell. -/
theorem halts_of_mem_predict (ha : g.isTerminal a) (hnt : nt ∈ g.nonTerminals) {production : Production}
    (hp : production ∈ nt.productions) (hpredict : a ∈ predict g.first W nt.index production)
    (hmatch : ∀ stack, (g.namedTable g.first W).Halts (g.label a :: stack, input))
    (hbelow : (g.namedTable g.first W).Halts (stack, input)) :
    (g.namedTable g.first W).Halts (nt.name :: stack, input) := by
  have hderives : g.Derives [nt.index] production := .production hnt hp
  have hlt := hg.production_lt hnt hp
  have hindex := hg.isNonTerminal_index hnt
  have hstack : nt.name :: stack = [nt.index].map g.label ++ stack := by
    rw [List.map_singleton, hg.label_index hnt, List.singleton_append]
  rw [hstack]
  rcases mem_predict.mp hpredict with ⟨hfirst, -⟩ | ⟨h0, hfollow⟩
  · have hbegins := hderives.begins ((hg.mem_first_iff hlt ha).mp hfirst)
    have hform : g.Derives [nt.index] ([] ++ [nt.index]) := .refl _
    exact hg.halts_of_surfaces hW hconflicts hnext ha hindex hform hbegins.surfaces hmatch
  · obtain ⟨t, ht, hnone⟩ := hderives.vanishes ((hg.epsilon_mem_first_iff hlt).mp h0)
    have hground : g.Ground t := fun b hb => visible_eq_nil_iff.mp hnone b hb ▸ hg.not_isNonTerminal_epsilon
    obtain ⟨choices, hparse⟩ := exists_leftParse ht hground
    refine hg.halts_of_leftParse hW hconflicts hnext hparse hnone (fun b hb _ => ?_) hbelow
    exact List.mem_singleton.mp hb ▸ hfollow

end next

/-! ## Every run stops -/

/-- If the parser stops whenever it has matched something, it stops. -/
theorem halts_of_consumed
    (hconsumed : ∀ top stack c, consume top stack input = some c → (g.namedTable g.first W).Halts c) :
    (g.namedTable g.first W).Halts (stack, input) := by
  have hclaims := hg.isTerminal_of_mem_claims hW
  -- a step that matches can be taken or not
  have hmatch : ∀ {top stack}, (g.namedTable g.first W).step (top :: stack, input) = consume top stack input →
      (g.namedTable g.first W).Halts (top :: stack, input) := by
    intro top stack hstep
    rcases hc : consume top stack input with - | c
    · exact .stop (hstep.trans hc)
    · exact .step (hstep.trans hc) (hconsumed _ _ _ hc)
  induction stack with
  | nil => exact .stop rfl
  | cons top stack ih =>
    by_cases h0 : top = PredictiveGrammar.epsilon
    · exact .step (by rw [Table.step, if_pos h0]) ih
    by_cases hrow : (g.namedTable g.first W).rows.any (·.nonTerminal = top)
    · rcases hcell : (g.namedTable g.first W).get? top (input.headD PredictiveGrammar.endMark) with - | right
      · exact .stop (by rw [Table.step, if_neg h0, if_pos hrow, hcell]; rfl)
      · obtain ⟨nt, hnt, rfl, -⟩ := hg.exists_of_get?_named hclaims hcell
        obtain ⟨a, hcolumn, hnext⟩ := List.mem_map.mp (Table.mem_terminals_of_get? hcell)
        have ha := hg.mem_columns.mp hcolumn
        rw [← hnext, hg.get?_named hclaims hnt ha] at hcell
        obtain ⟨production, hlookup, -⟩ := Option.map_eq_some_iff.mp hcell
        obtain ⟨hp, hpredict⟩ := mem_claims.mp (mem_of_lookup_reverse hlookup)
        exact hg.halts_of_mem_predict hW hconflicts hnext.symm ha hnt hp hpredict
          (fun stack' => hmatch (hg.step_terminal hW ha stack' input)) ih
    · exact hmatch (by rw [Table.step, if_neg h0, if_neg hrow])

/-- **Without conflicts the parser always stops.** -/
theorem halts (stack input : List String) : (g.namedTable g.first W).Halts (stack, input) := by
  induction input generalizing stack with
  | nil =>
    apply hg.halts_of_consumed hW hconflicts
    intro top stack c hc
    cases hc
  | cons next input ih =>
    apply hg.halts_of_consumed hW hconflicts
    intro top stack c hc
    rw [consume] at hc
    split at hc
    · exact Option.some.inj hc ▸ ih stack
    · cases hc

end conflictFree

end WellFormed

/-! ## In built grammars -/

/-- **Conflict-free tables never loop.** Computing the FOLLOW sets and the table succeeds. If the table has no
conflicts, the parser makes finitely many steps from any stack on any input, and no symbol that was alone on the stack
comes back to the top while nothing of the input is matched, so expanding is not left recursive, neither directly nor
through other non-terminals nor behind symbols that vanish. -/
theorem Built.conflictFree_halts (hg : g.Built) :
    ∃ W T, g.follow g.first = .ok W ∧ g.table g.first W = .ok T ∧ (T.conflicts = [] →
      (∀ stack input, ∃ n c, T.steps n (stack, input) = some c ∧ T.step c = none) ∧
        ∀ A input n stack, T.steps (n + 1) ([A], input) ≠ some (A :: stack, input)) := by
  have hwf := hg.wellFormed
  obtain ⟨W, hfollow, hW⟩ := hwf.follow_eq
  have htable := hwf.table_eq (hwf.isTerminal_of_mem_claims hW) g.isFor_first hW.isFor
  refine ⟨W, _, hfollow, htable, fun hconflicts => ⟨fun stack input => ?_, fun A input n stack => ?_⟩⟩
  · exact (hwf.halts hW hconflicts stack input).exists_steps
  · exact (hwf.halts hW hconflicts [A] input).steps_ne

/-- A grammar of items behind optional signs, whose table has no conflicts. -/
def signedItems : Grammar := .ofRules [⟨"S", [["P", "i", "S"], []]⟩, ⟨"P", [["+"], []]⟩]

/-- There the parser stops on a stack that does not fit the input, and `S` does not come back to the top before `i` is
matched. -/
theorem Built.conflictFree_halts_signedItems :
    signedItems.Built ∧ ∃ W T, signedItems.follow signedItems.first = .ok W ∧
      signedItems.table signedItems.first W = .ok T ∧ T.conflicts = [] ∧
      (∃ n c, T.steps n (["S", "S", "P"], ["i", "+", "+"]) = some c ∧ T.step c = none) ∧
      ∀ n stack, T.steps (n + 1) (["S"], ["i", "+", "+"]) ≠ some ("S" :: stack, ["i", "+", "+"]) := by
  have hbuilt : signedItems.Built := .ofRules _
  obtain ⟨W, T, hW, hT, hall⟩ := Built.conflictFree_halts hbuilt
  have hconflicts : T.conflicts = [] := by
    have hknown : ((signedItems.follow signedItems.first).bind fun W =>
        signedItems.table signedItems.first W).map Table.conflicts = .ok [] := by decide
    rw [hW] at hknown
    change (signedItems.table signedItems.first W).map Table.conflicts = .ok [] at hknown
    rw [hT] at hknown
    exact Except.ok.inj hknown
  obtain ⟨hstops, hback⟩ := hall hconflicts
  exact ⟨hbuilt, W, T, hW, hT, hconflicts, hstops _ _, fun n stack => hback "S" _ n stack⟩

end Grammar

end PredictiveGrammar
