import PredictiveGrammar.Proofs.LeftmostDerivations
import PredictiveGrammar.Proofs.Prediction

/-!
# Conflict-free tables dictate derivations

A table-driven parser holds a stack of names and the rest of the input (`Table.step`): it drops `ε`, matches a
terminal with the next name of the input, and replaces a non-terminal as the table says for the next name, or for
the end mark if the input is used up. Whatever it accepts is a word of the stack
(`Grammar.WellFormed.generates_of_accepts`), since the table answers with productions only. If the table has no
conflicts, it makes the same steps as any complete leftmost derivation of a word from the start symbol
(`Grammar.WellFormed.accepts_of_leftParse`), so there is only one such derivation
(`Grammar.WellFormed.leftParse_unique`).
-/

namespace PredictiveGrammar

/-! ## The parser -/

/-- Matches a terminal from the stack with the next name of the input. -/
def consume (top : String) (stack : List String) : List String → Option (List String × List String)
  | [] => none
  | next :: input => if next = top then some (stack, input) else none

/-- One step of the parser on a stack and the rest of the input; the top of the stack stands first. -/
def Table.step (T : Table) : List String × List String → Option (List String × List String)
  | ([], _) => none
  | (top :: stack, input) =>
    if top = epsilon then some (stack, input)
    else if T.rows.any (·.nonTerminal = top) then
      (T.get? top (input.headD endMark)).map fun right => (right ++ stack, input)
    else consume top stack input

/-- The parser uses up the stack together with the input. -/
inductive Table.Accepts (T : Table) : List String → List String → Prop
  /-- both are used up -/
  | done : Accepts T [] []
  /-- they are after one step more -/
  | step {stack input stack' input' : List String} : T.step (stack, input) = some (stack', input') →
      Accepts T stack' input' → Accepts T stack input

namespace Grammar

variable {g : Grammar} {W : FollowSets} {nt : NonTerminal} {a S : Nat} {s t t' choices choices' : List Nat}
  {w : List String}

namespace WellFormed

variable (hg : g.WellFormed)
include hg

/-! ## Its steps on the names of a grammar -/

/-- The symbol `ε` is taken off the stack. -/
theorem step_epsilon (T : Table) (stack input : List String) :
    T.step (g.label epsilonIndex :: stack, input) = some (stack, input) := by
  rw [hg.label_epsilon, Table.step, if_pos rfl]

variable (hW : W.Exact g)
include hW

/-- The rows are those of the non-terminals. -/
theorem any_rows (ha : a < g.symbols.length) :
    (g.namedTable g.first W).rows.any (·.nonTerminal = g.label a) ↔ g.isNonTerminal a := by
  rw [List.any_eq_true]
  refine ⟨?_, ?_⟩
  · rintro ⟨row, hrow, hname⟩
    obtain ⟨nt, hnt, rfl⟩ := (hg.mem_rows (hg.isTerminal_of_mem_claims hW)).mp hrow
    have hlabel : g.label nt.index = g.label a := (hg.label_index hnt).trans (of_decide_eq_true hname)
    exact hg.label_inj (hg.index_lt hnt) ha hlabel ▸ hg.isNonTerminal_index hnt
  · intro h
    obtain ⟨nt, hnt, rfl⟩ := hg.exists_nonTerminal h
    exact ⟨_, (hg.mem_rows (hg.isTerminal_of_mem_claims hW)).mpr ⟨nt, hnt, rfl⟩,
      decide_eq_true (hg.label_index hnt).symm⟩

/-- A non-terminal gives way to the right side in its cell for the next name. -/
theorem step_nonTerminal (hnt : nt ∈ g.nonTerminals) (stack input : List String) :
    (g.namedTable g.first W).step (g.label nt.index :: stack, input) =
      ((g.namedTable g.first W).get? nt.name (input.headD PredictiveGrammar.endMark)).map
        fun right => (right ++ stack, input) := by
  have hlt := hg.index_lt hnt
  rw [Table.step, if_neg (hg.label_ne_epsilon hlt (hg.index_ne_epsilon hnt)),
    if_pos ((hg.any_rows hW hlt).mpr (hg.isNonTerminal_index hnt)), hg.label_index hnt]

/-- A terminal has to be the next name. -/
theorem step_terminal (ha : g.isTerminal a) (stack input : List String) :
    (g.namedTable g.first W).step (g.label a :: stack, input) = consume (g.label a) stack input := by
  have hlt := lt_of_isTerminal ha
  rw [Table.step, if_neg (hg.label_ne_epsilon hlt (hg.ne_epsilon_of_isTerminal ha)),
    if_neg fun h => not_isNonTerminal_of_isTerminal ha ((hg.any_rows hW hlt).mp h)]

/-! ## What it accepts -/

/-- **The parser accepts words of the stack only.** -/
theorem generates_of_accepts (hs : ∀ i ∈ s, i < g.symbols.length)
    (h : (g.namedTable g.first W).Accepts (s.map g.label) w) : g.Generates s w := by
  generalize hstack : s.map g.label = stack at h
  induction h generalizing s with
  | done =>
    obtain rfl := List.map_eq_nil_iff.mp hstack
    exact g.spells_nil.generates
  | @step stack input stack' input' hstep _ ih =>
    subst hstack
    cases s with
    | nil => cases hstep
    | cons a s =>
      have hrest : ∀ i ∈ s, i < g.symbols.length := fun i hi => hs i (List.mem_cons_of_mem a hi)
      rw [List.map_cons] at hstep
      rcases hg.symbol_cases (hs a List.mem_cons_self) with rfl | hterminal | hnt
      -- `ε` was dropped
      · rw [hg.step_epsilon] at hstep
        obtain ⟨rfl, rfl⟩ := Prod.mk.inj (Option.some.inj hstep)
        exact (ih hrest rfl).epsilon_cons
      -- a terminal was matched
      · rw [hg.step_terminal hW hterminal] at hstep
        rcases input with - | ⟨next, input⟩
        · cases hstep
        · rw [consume] at hstep
          split at hstep
          · next heq =>
            obtain ⟨rfl, rfl⟩ := Prod.mk.inj (Option.some.inj hstep)
            exact heq ▸ (ih hrest rfl).cons hterminal (hg.ne_epsilon_of_isTerminal hterminal)
          · cases hstep
      -- a non-terminal was replaced, by one of its productions
      · obtain ⟨nt, hmem, rfl⟩ := hg.exists_nonTerminal hnt
        rw [hg.step_nonTerminal hW hmem] at hstep
        obtain ⟨right, hright, heq⟩ := Option.map_eq_some_iff.mp hstep
        obtain ⟨rfl, rfl⟩ := Prod.mk.inj heq
        obtain ⟨nt', hnt', hname, production, hp, rfl⟩ :=
          hg.exists_of_get?_named (hg.isTerminal_of_mem_claims hW) hright
        obtain rfl := hg.nonTerminal_name_ext hnt' hmem hname
        have hmore : ∀ i ∈ production ++ s, i < g.symbols.length := by
          intro i hi
          rcases List.mem_append.mp hi with hi | hi
          · exact hg.production_lt hmem hp i hi
          · exact hrest i hi
        have hgenerates := ih hmore (List.map_append ..)
        exact (Derives.expand hmem hp [] s).generates hgenerates

section start

variable (hS : g.start = some S) (hconflicts : (g.namedTable g.first W).conflicts = [])
include hS hconflicts

/-- **The parser makes the steps of a leftmost derivation.** -/
theorem accepts_of_leftParse {before : List Nat} (hform : g.Derives [S] (before ++ s))
    (h : g.LeftParse s choices t) (hw : g.Spells t w) :
    (g.namedTable g.first W).Accepts (s.map g.label) w := by
  induction h generalizing before w with
  | nil =>
    obtain rfl : [] = w := hw.2
    exact .done
  | @keep a s choices t ha _ ih =>
    have hform' : g.Derives [S] (before ++ [a] ++ s) := by rwa [List.append_assoc]
    -- a kept symbol is taken off the stack, as `ε` or against the input
    by_cases h0 : a = epsilonIndex
    · subst h0
      rw [spells_epsilon_cons] at hw
      exact .step (hg.step_epsilon _ _ _) (ih hform' hw)
    · obtain ⟨hterminal, v, rfl, hv⟩ := hw.exists_of_cons h0
      refine .step ?_ (ih hform' hv)
      rw [List.map_cons, hg.step_terminal hW hterminal]
      exact if_pos rfl
  -- the cell has the production, because the form derives the word with it
  | @expand s choices t nt k production hnt hk h ih =>
    have hp := List.mem_of_getElem? hk
    have hderives : g.Derives (production ++ s) t := (hg.leftParse_iff.mp h).1.derives
    have hexpand := hform.trans (Derives.expand hnt hp before s)
    rw [List.append_assoc] at hexpand
    refine .step ?_ (ih hexpand hw)
    rw [List.map_cons, hg.step_nonTerminal hW hnt,
      hg.get?_of_derives hW hS hform hnt hp hderives hw hconflicts, Option.map_some, List.map_append]

/-- **There is one leftmost derivation of a word.** -/
theorem leftParse_unique {before : List Nat} (hform : g.Derives [S] (before ++ s))
    (h : g.LeftParse s choices t) (h' : g.LeftParse s choices' t') (hw : g.Spells t w)
    (hw' : g.Spells t' w) : choices = choices' ∧ t = t' := by
  induction h generalizing before w choices' t' with
  | nil =>
    cases h'
    exact ⟨rfl, rfl⟩
  | @keep a s choices t ha _ ih =>
    have hform' : g.Derives [S] (before ++ [a] ++ s) := by rwa [List.append_assoc]
    cases h' with
    | expand hnt => exact absurd (hg.isNonTerminal_index hnt) ha
    | @keep _ _ _ t' _ h' =>
      by_cases h0 : a = epsilonIndex
      · subst h0
        obtain ⟨rfl, rfl⟩ := ih hform' h' (spells_epsilon_cons.mp hw) (spells_epsilon_cons.mp hw')
        exact ⟨rfl, rfl⟩
      · obtain ⟨-, v, rfl, hv⟩ := hw.exists_of_cons h0
        obtain ⟨-, v', hword, hv'⟩ := hw'.exists_of_cons h0
        obtain rfl := (List.cons.inj hword).2
        obtain ⟨rfl, rfl⟩ := ih hform' h' hv hv'
        exact ⟨rfl, rfl⟩
  | @expand s choices t nt k production hnt hk h ih =>
    have hp := List.mem_of_getElem? hk
    have hexpand := hform.trans (Derives.expand hnt hp before s)
    rw [List.append_assoc] at hexpand
    have hpredict := hg.mem_predict_of_derives hW hS hform hnt hp (hg.leftParse_iff.mp h).1.derives hw
    generalize hindex : nt.index :: s = form at h'
    cases h' with
    | nil => cases hindex
    | keep ha =>
      obtain ⟨rfl, -⟩ := List.cons.inj hindex
      exact absurd (hg.isNonTerminal_index hnt) ha
    | @expand _ choices' _ nt' k' production' hnt' hk' h' =>
      obtain ⟨heq, rfl⟩ := List.cons.inj hindex
      obtain rfl := hg.nonTerminal_ext hnt hnt' heq
      have hpredict' := hg.mem_predict_of_derives hW hS hform hnt (List.mem_of_getElem? hk')
        (hg.leftParse_iff.mp h').1.derives hw'
      -- both productions are predicted for the terminal that comes next, so they have the same place
      rw [← hg.visible_eq_of_spells hw hw'] at hpredict'
      have hclashes := hg.clashes_eq_nil (hg.isTerminal_of_mem_claims hW) hconflicts hnt
      obtain rfl := eq_of_mem_predict hclashes hk hk' hpredict hpredict'
      obtain rfl := Option.some.inj (hk.symm.trans hk')
      obtain ⟨rfl, rfl⟩ := ih hexpand h' hw hw'
      exact ⟨rfl, rfl⟩

end start

end WellFormed

end Grammar

/-! ## In built grammars -/

/-- Where a leftmost derivation of a word from `S` expands a non-terminal, the table answers with the production
in use for the first terminal of what is left of the word, or for the end mark if nothing is left. -/
def Table.Dictates (T : Table) (g : Grammar) (S : Nat) : Prop :=
  ∀ (nt : NonTerminal) (production : Production) (before after choices choices' t : List Nat)
    (w : List String), nt ∈ g.nonTerminals → production ∈ nt.productions → g.Ground before →
    g.LeftDerives [S] choices (before ++ nt.index :: after) →
    g.LeftDerives (before ++ production ++ after) choices' t → g.Spells t w →
    ∃ r, w = (visible before).map g.label ++ r ∧
      T.get? nt.name (r.headD endMark) = some (production.map g.label)

namespace Grammar

variable {g : Grammar}

/-- **A table without conflicts dictates every step.** Each cell has one right side, and a leftmost derivation of the
input can use no other. -/
theorem WellFormed.dictates (hg : g.WellFormed) {W : FollowSets} (hW : W.Exact g) {S : Nat}
    (hS : g.start = some S) (hconflicts : (g.namedTable g.first W).conflicts = []) :
    (g.namedTable g.first W).Dictates g S := by
  intro nt production before after choices choices' t w hnt hp hbefore hform hrest hw
  have hderives := hrest.derives
  rw [List.append_assoc] at hderives
  obtain ⟨u, v, rfl, hu, hv⟩ := hderives.exists_append
  obtain rfl := hg.eq_of_ground hbefore hu
  obtain ⟨w', r, rfl, hw', hr⟩ := hw.exists_append
  refine ⟨r, congrArg (· ++ r) hw'.2.symm, ?_⟩
  exact hg.get?_of_derives hW hS hform.derives hnt hp hv hr hconflicts

/-- **Conflict-free tables dictate derivations.** Computing the FOLLOW sets and the table succeeds. If the table
has no conflicts, it dictates every step of every complete leftmost derivation from the start symbol, every word
generated has exactly one such derivation, and the table-driven parser accepts exactly the words generated. -/
theorem Built.conflictFree_dictates (hg : g.Built) :
    ∃ W T, g.follow g.first = .ok W ∧ g.table g.first W = .ok T ∧
      ∀ S, g.start = some S → T.conflicts = [] →
        T.Dictates g S ∧
          (∀ w, g.Generates [S] w →
            ∃! d : List Nat × List Nat, g.LeftDerives [S] d.1 d.2 ∧ g.Spells d.2 w) ∧
          ∀ w, T.Accepts [g.label S] w ↔ g.Generates [S] w := by
  have hwf := hg.wellFormed
  obtain ⟨W, hfollow, hW⟩ := hwf.follow_eq
  have htable := hwf.table_eq (hwf.isTerminal_of_mem_claims hW) g.isFor_first hW.isFor
  refine ⟨W, _, hfollow, htable, fun S hS hconflicts => ?_⟩
  refine ⟨hwf.dictates hW hS hconflicts, ?_, ?_⟩
  -- the one leftmost derivation of a word
  · rintro w ⟨t, ht, hw⟩
    obtain ⟨choices, hparse⟩ := exists_leftParse ht (hwf.ground_of_spells hw)
    refine ⟨(choices, t), ⟨(hwf.leftParse_iff.mp hparse).1, hw⟩, ?_⟩
    rintro ⟨choices', t'⟩ ⟨hderives, hw'⟩
    have hparse' := hwf.leftParse_iff.mpr ⟨hderives, hwf.ground_of_spells hw'⟩
    have hform : g.Derives [S] ([] ++ [S]) := .refl [S]
    obtain ⟨rfl, rfl⟩ := hwf.leftParse_unique hW hS hconflicts hform hparse' hparse hw' hw
    rfl
  · intro w
    refine ⟨?_, ?_⟩
    -- runs are derivations
    · intro haccepts
      have hlt := lt_of_isNonTerminal (hwf.start S hS)
      exact hwf.generates_of_accepts hW (List.forall_mem_singleton.mpr hlt) haccepts
    -- and derivations are runs
    · rintro ⟨t, ht, hw⟩
      obtain ⟨choices, hparse⟩ := exists_leftParse ht (hwf.ground_of_spells hw)
      have hform : g.Derives [S] ([] ++ [S]) := .refl [S]
      exact hwf.accepts_of_leftParse hW hS hconflicts hform hparse hw

/-- A grammar of nested pairs. -/
def nestedPairs : Grammar := .ofRules [⟨"S", [["a", "S", "b"], []]⟩]

/-- Its table has no conflicts, so `a b` has exactly one leftmost derivation, and the parser accepts it. -/
theorem Built.conflictFree_dictates_nestedPairs :
    nestedPairs.Built ∧ nestedPairs.start = some 2 ∧
      (∃! d : List Nat × List Nat,
        nestedPairs.LeftDerives [2] d.1 d.2 ∧ nestedPairs.Spells d.2 ["a", "b"]) ∧
      ∃ W T, nestedPairs.follow nestedPairs.first = .ok W ∧ nestedPairs.table nestedPairs.first W = .ok T ∧
        T.conflicts = [] ∧ T.Dictates nestedPairs 2 ∧ T.Accepts ["S"] ["a", "b"] := by
  have hbuilt : nestedPairs.Built := .ofRules _
  have hS : nestedPairs.start = some 2 := by decide
  obtain ⟨W, T, hW, hT, hall⟩ := Built.conflictFree_dictates hbuilt
  have hconflicts : T.conflicts = [] := by
    have hknown : ((nestedPairs.follow nestedPairs.first).bind fun W =>
        nestedPairs.table nestedPairs.first W).map Table.conflicts = .ok [] := by decide
    rw [hW] at hknown
    change (nestedPairs.table nestedPairs.first W).map Table.conflicts = .ok [] at hknown
    rw [hT] at hknown
    exact Except.ok.inj hknown
  obtain ⟨hdictates, hunique, haccepts⟩ := hall 2 hS hconflicts
  have hgenerates : nestedPairs.Generates [2] ["a", "b"] := by
    have hnt : (⟨2, "S", [[3, 2, 4], [0]]⟩ : NonTerminal) ∈ nestedPairs.nonTerminals := by decide
    have hfirst : nestedPairs.Derives [2] [3, 2, 4] := .production hnt (by decide)
    have hsecond : nestedPairs.Derives ([3] ++ 2 :: [4]) ([3] ++ [0] ++ [4]) :=
      .expand hnt (by decide) [3] [4]
    exact ⟨[3, 0, 4], hfirst.trans hsecond, by decide, by decide⟩
  exact ⟨hbuilt, hS, hunique _ hgenerates, W, T, hW, hT, hconflicts, hdictates,
    (haccepts _).mpr hgenerates⟩

end Grammar

end PredictiveGrammar
