import PredictiveGrammar.Analysis.Table
import PredictiveGrammar.Proofs.FollowClosure

/-!
# Mixing analyses of several grammars

Callers may keep sets of many grammars and hand any of them to any analysis (`Session.Call`), and the grammars may have
productions and a start symbol that were set by hand. Each set remembers only symbols and a start symbol, and these say
all there is to say about it: FIRST sets depend on the symbols alone, and FOLLOW sets are closed already, so extending
them adds nothing (`Grammar.extendFollow_self`). So every set that ever comes about is the grammar's own
(`Session.Reached.own`), and an analysis refuses sets or answers as with the grammar's own
(`Session.Reached.analyses_guarded`).
-/

namespace PredictiveGrammar

/-! ## Sessions -/

/-- The sets that a caller has so far, each with the grammar that it was computed for. -/
structure Session where
  /-- FIRST sets -/
  firsts : List (Grammar × FirstSets)
  /-- FOLLOW sets -/
  follows : List (Grammar × FollowSets)

namespace Session

/-- One analysis of any grammar, from sets that are there, whatever grammars they were computed for. -/
inductive Call : Session → Session → Prop
  /-- FIRST sets of a grammar -/
  | first {s : Session} (g : Grammar) : Call s { s with firsts := (g, g.first) :: s.firsts }
  /-- FOLLOW sets of a grammar -/
  | follow {s : Session} (g : Grammar) {a : Grammar} {F : FirstSets} {W : FollowSets} :
      (a, F) ∈ s.firsts → g.follow F = .ok W → Call s { s with follows := (g, W) :: s.follows }
  /-- FOLLOW sets, grown for a grammar -/
  | extend {s : Session} (g : Grammar) {a b : Grammar} {F : FirstSets} {W W' : FollowSets} :
      (a, F) ∈ s.firsts → (b, W) ∈ s.follows → g.extendFollow F W = .ok W' →
      Call s { s with follows := (g, W') :: s.follows }

/-- The sessions that calls lead to. -/
inductive Reached : Session → Prop
  | nil : Reached ⟨[], []⟩
  | call {s s' : Session} : Reached s → Call s s' → Reached s'

end Session

namespace Grammar

variable {a b g : Grammar} {F : FirstSets} {W W' : FollowSets}

/-! ## What sets depend on -/

/-- FIRST sets depend on the symbols only, and not on the start symbol. -/
theorem first_congr (h : a.symbols = g.symbols) : a.first = g.first := by
  obtain ⟨symbols, start⟩ := a
  obtain rfl : symbols = g.symbols := h
  rfl

/-- A grammar answers when it is asked with its own FIRST sets. -/
theorem exists_follow (g : Grammar) : ∃ W, g.follow g.first = .ok W ∧ W.isFor g := by
  obtain ⟨W, hW, -, -, hfor⟩ := mem_extendFollow g.isFor_first g.isFor_seed
  exact ⟨W, hW, hfor⟩

/-! ## Extending FOLLOW sets -/

/-- What closed sets carry they hold. -/
theorem mem_of_carried (hclosed : ∀ k i, i ∈ W'.sets.getD k ↔ g.Carried F W.sets k i) {k i : Nat}
    (h : g.Carried F W'.sets k i) : i ∈ W'.sets.getD k := by
  induction h with
  | given hi => exact hi
  | first ho hi hne => exact (hclosed _ _).mpr (.first ho hi hne)
  | left ho h0 _ ih => exact (hclosed _ _).mpr (.left ho h0 ((hclosed _ _).mp ih))

/-- **Extending a second time adds nothing.** -/
theorem extendFollow_self (hF : F.isFor g) (hW : W.isFor g) (h : g.extendFollow F W = .ok W') :
    g.extendFollow F W' = .ok W' := by
  obtain ⟨V, heq, hkeys, hclosed, hW'⟩ := mem_extendFollow hF hW
  obtain rfl : W' = V := Except.ok.inj (h.symm.trans heq)
  obtain ⟨W'', heq', hkeys', hclosed', hW''⟩ := mem_extendFollow hF hW'
  have hsets : W''.sets = W'.sets := by
    refine SetFamily.ext_members (fun k => ?_) fun k i => ?_
    · rw [hkeys', mem_keys_directFollow, or_iff_left_iff_imp, hkeys]
      exact fun hadded => mem_keys_directFollow.mpr (Or.inr hadded)
    · rw [hclosed']
      exact ⟨mem_of_carried hclosed, .given⟩
  obtain ⟨hstart', hsymbols'⟩ := of_decide_eq_true hW'
  obtain ⟨hstart'', hsymbols''⟩ := of_decide_eq_true hW''
  obtain ⟨sets, symbols, start⟩ := W''
  obtain rfl : sets = W'.sets := hsets
  obtain rfl : symbols = W'.symbols := hsymbols''.trans hsymbols'.symm
  obtain rfl : start = W'.start := hstart''.trans hstart'.symm
  exact heq'

/-! ## Refusals -/

/-- What an analysis of `g` answers that is handed FIRST sets of `a` and FOLLOW sets of `b`: it refuses the FIRST sets
if `a` has other symbols, then the FOLLOW sets if `b` has other symbols or another start symbol. -/
def guarded {α : Type} (g a b : Grammar) (answer : Except GrammarError α) : Except GrammarError α :=
  if a.symbols ≠ g.symbols then .error (.mismatchedSets .first)
  else if b.symbols ≠ g.symbols ∨ b.start ≠ g.start then .error (.mismatchedSets .follow)
  else answer

variable {α : Type} {answer : Except GrammarError α}

/-- A grammar is not refused its own sets. -/
theorem guarded_self (h : a.symbols = g.symbols) : g.guarded a g answer = answer := by
  simp [guarded, h]

/-- An analysis is refused, or both grammars are the one to analyse, except for the start symbol of the first. -/
theorem guarded_cases (g a b : Grammar) :
    (∃ e, ∀ {α : Type} (answer : Except GrammarError α), g.guarded a b answer = .error e) ∨
      a.symbols = g.symbols ∧ b = g := by
  by_cases ha : a.symbols = g.symbols
  · by_cases hb : b.symbols = g.symbols ∧ b.start = g.start
    · exact Or.inr ⟨ha, eq_of_symbols_start hb.1 hb.2⟩
    · exact Or.inl ⟨_, fun answer => by rw [guarded, if_neg (not_not.mpr ha), if_pos (not_and_or.mp hb)]⟩
  · exact Or.inl ⟨_, fun answer => if_pos ha⟩

/-- Only the grammar itself gets an answer. -/
theorem eq_of_guarded_eq_ok {x : α} (h : g.guarded a b answer = .ok x) : b = g ∧ answer = .ok x := by
  rcases guarded_cases g a b with ⟨e, he⟩ | ⟨ha, rfl⟩
  · rw [he] at h
    cases h
  · rw [guarded_self ha] at h
    exact ⟨rfl, h⟩

/-- **The check is the guard**: it tells the grammars that the sets were made for. -/
theorem checkSets_guarded (hF : F.isFor a) (hW : W.isFor b) : g.checkSets F W = g.guarded a b (.ok ()) := by
  have hsymbols : F.symbols = a.symbols := of_decide_eq_true hF
  obtain ⟨hstart, hsymbols'⟩ := of_decide_eq_true hW
  simp only [checkSets, guarded, FirstSets.isFor, FollowSets.isFor, hsymbols, hsymbols', hstart,
    decide_eq_false_iff_not, ne_eq, not_and_or, or_comm]

/-- **An analysis that begins with the check** refuses sets or answers as it does with sets of the grammar. -/
theorem eq_guarded {analysis : Except GrammarError α} (hF : F.isFor a) (hW : W.isFor b)
    (hcheck : ∀ e, g.checkSets F W = .error e → analysis = .error e)
    (h : a.symbols = g.symbols → b = g → analysis = answer) : analysis = g.guarded a b answer := by
  rcases guarded_cases g a b with ⟨e, he⟩ | ⟨ha, rfl⟩
  · rw [he]
    exact hcheck e ((checkSets_guarded hF hW).trans (he _))
  · rw [guarded_self ha]
    exact h ha rfl

/-! ## Analyses -/

theorem extendFollow_of_checkSets {e : GrammarError} (h : g.checkSets F W = .error e) :
    g.extendFollow F W = .error e := by
  rw [extendFollow, h]
  rfl

theorem table_of_checkSets {e : GrammarError} (h : g.checkSets F W = .error e) : g.table F W = .error e := by
  rw [table, h]
  rfl

variable {own : FollowSets}

theorem isFor_of_follow (hown : g.follow g.first = .ok own) : own.isFor g := by
  obtain ⟨W, hW, hfor⟩ := exists_follow g
  exact Except.ok.inj (hW.symm.trans hown) ▸ hfor

/-- FOLLOW sets are made behind the guard. -/
theorem follow_guarded (hown : g.follow g.first = .ok own) (a : Grammar) :
    g.follow a.first = g.guarded a g (.ok own) :=
  eq_guarded a.isFor_first g.isFor_seed (fun _ => extendFollow_of_checkSets)
    fun ha _ => first_congr ha ▸ hown

/-- FOLLOW sets are extended behind the guard. -/
theorem extendFollow_guarded (hW : b.follow b.first = .ok W) (a : Grammar) :
    g.extendFollow a.first W = g.guarded a b (.ok W) := by
  refine eq_guarded a.isFor_first (isFor_of_follow hW) (fun _ => extendFollow_of_checkSets) ?_
  rintro ha rfl
  rw [first_congr ha]
  exact extendFollow_self b.isFor_first b.isFor_seed hW

/-- Tables are filled behind the guard. -/
theorem table_guarded (hown : g.follow g.first = .ok own) (hW : b.follow b.first = .ok W) (a : Grammar) :
    g.table a.first W = g.guarded a b (g.table g.first own) := by
  refine eq_guarded a.isFor_first (isFor_of_follow hW) (fun _ => table_of_checkSets) ?_
  rintro ha rfl
  rw [first_congr ha, Except.ok.inj (hW.symm.trans hown)]

end Grammar

namespace Session

variable {s s' : Session}

/-! ## What comes about in a session -/

/-- Every set is what its grammar alone gives. -/
structure Own (s : Session) : Prop where
  /-- FIRST sets -/
  firsts : ∀ e ∈ s.firsts, e.2 = e.1.first
  /-- FOLLOW sets -/
  follows : ∀ e ∈ s.follows, e.1.follow e.1.first = .ok e.2

/-- **A call keeps sets own**: sets that it does not refuse are already those of the grammar. -/
theorem Call.own (h : Call s s') (hs : s.Own) : s'.Own := by
  cases h with
  | first g => exact ⟨List.forall_mem_cons.mpr ⟨rfl, hs.firsts⟩, hs.follows⟩
  | @follow g a F W hF heq =>
    refine ⟨hs.firsts, List.forall_mem_cons.mpr ⟨?_, hs.follows⟩⟩
    obtain rfl : F = a.first := hs.firsts _ hF
    obtain ⟨own, hown, -⟩ := g.exists_follow
    rw [Grammar.follow_guarded hown] at heq
    exact hown.trans (Grammar.eq_of_guarded_eq_ok heq).2
  | @extend g a b F W W' hF hW heq =>
    refine ⟨hs.firsts, List.forall_mem_cons.mpr ⟨?_, hs.follows⟩⟩
    obtain rfl : F = a.first := hs.firsts _ hF
    have hW : b.follow b.first = .ok W := hs.follows _ hW
    rw [Grammar.extendFollow_guarded hW] at heq
    obtain ⟨rfl, hsame⟩ := Grammar.eq_of_guarded_eq_ok heq
    exact hW.trans hsame

/-- **In any session every set is own.** -/
theorem Reached.own (h : s.Reached) : s.Own := by
  induction h with
  | nil => exact ⟨List.forall_mem_nil _, List.forall_mem_nil _⟩
  | call _ hcall ih => exact hcall.own ih

/-- **Mixing analyses is harmless.** Whatever grammars the sets of a session were computed for, an analysis of a grammar
refuses FIRST sets of other symbols, then FOLLOW sets of other symbols or of another start symbol, and otherwise answers
as with the grammar's own sets: with its own FOLLOW sets, with the FOLLOW sets as they are given, and with its own table
or the failure of it. -/
theorem Reached.analyses_guarded (h : s.Reached) (g : Grammar) :
    ∃ own, g.follow g.first = .ok own ∧
      (∀ a F, (a, F) ∈ s.firsts → g.follow F = g.guarded a g (.ok own)) ∧
      ∀ a F b W, (a, F) ∈ s.firsts → (b, W) ∈ s.follows →
        g.extendFollow F W = g.guarded a b (.ok W) ∧ g.table F W = g.guarded a b (g.table g.first own) := by
  obtain ⟨own, hown, -⟩ := g.exists_follow
  refine ⟨own, hown, fun a F hF => ?_, fun a F b W hF hW => ?_⟩
  · obtain rfl : F = a.first := h.own.firsts _ hF
    exact Grammar.follow_guarded hown a
  · obtain rfl : F = a.first := h.own.firsts _ hF
    have hW : b.follow b.first = .ok W := h.own.follows _ hW
    exact ⟨Grammar.extendFollow_guarded hW a, Grammar.table_guarded hown hW a⟩

/-- Lists, which may be empty. -/
def lists : Grammar := .ofRules [⟨"L", [["a", "L"], []]⟩]

/-- The same lists with one more production, which holds an index of no symbol, started from the terminal `a`. -/
def editedLists : Grammar :=
  ⟨[.epsilon, .terminal endMark, .nonTerminal ⟨2, "L", [[3, 2], [0], [2, 9]]⟩, .terminal "a"], some 3⟩

/-- The lists refuse FIRST sets of the edited ones, and take their own sets as they are; started from the terminal, they
refuse their FOLLOW sets from before. -/
theorem Reached.analyses_guarded_lists :
    lists.addProduction? 2 [2, 9] = some { editedLists with start := some 2 } ∧
      ∃ (s : Session) (F : FirstSets) (W : FollowSets),
        s.Reached ∧ (editedLists, F) ∈ s.firsts ∧ (lists, W) ∈ s.follows ∧
        lists.table F W = .error (.mismatchedSets .first) ∧ lists.extendFollow lists.first W = .ok W ∧
        { lists with start := some 3 }.extendFollow lists.first W = .error (.mismatchedSets .follow) := by
  obtain ⟨W, hW, -⟩ := lists.exists_follow
  have hreached : Reached ⟨[(lists, lists.first), (editedLists, editedLists.first)], [(lists, W)]⟩ :=
    .call (.call (.call .nil (.first editedLists)) (.first lists)) (.follow lists List.mem_cons_self hW)
  have hfirst : (lists, lists.first) ∈ [(lists, lists.first), (editedLists, editedLists.first)] := List.mem_cons_self
  have hedited : (editedLists, editedLists.first) ∈ [(lists, lists.first), (editedLists, editedLists.first)] :=
    List.mem_cons_of_mem _ List.mem_cons_self
  have hfollow : (lists, W) ∈ [(lists, W)] := List.mem_cons_self
  obtain ⟨own, -, -, hlists⟩ := Reached.analyses_guarded hreached lists
  obtain ⟨own', -, -, hstarted⟩ := Reached.analyses_guarded hreached { lists with start := some 3 }
  refine ⟨by decide, _, _, W, hreached, hedited, hfollow, ?_, ?_, ?_⟩
  · exact (hlists _ _ _ _ hedited hfollow).2.trans (if_pos (by decide))
  · exact (hlists _ _ _ _ hfirst hfollow).1.trans (if_neg (by decide))
  · exact (hstarted _ _ _ _ hfirst hfollow).1.trans (if_neg (by decide))

end Session

end PredictiveGrammar
