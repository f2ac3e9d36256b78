import Mathlib.Data.List.Forall2
import Mathlib.Data.List.Nodup
import PredictiveGrammar.Transform.Built

/-!
# The symbols of a well-formed grammar

In a well-formed grammar an index below the number of symbols is `ε`, a terminal or a non-terminal, and
exactly one of them (`Grammar.WellFormed.symbol_cases`). Asking for its name does not fail, so there the
name is a plain function of the index (`Grammar.label`), and since names are unique, the way back from
the name finds the index again (`Grammar.WellFormed.indexOf?_eq_some_iff`).
-/

namespace PredictiveGrammar

/-! ## Computations that give an answer -/

section Answers

variable {α β ε : Type}

/-- A computation in two steps gives an answer if both do. -/
theorem bind_eq_ok {x : Except ε α} {f : α → Except ε β} {b : β} :
    x >>= f = .ok b ↔ ∃ a, x = .ok a ∧ f a = .ok b := by
  cases x <;> simp [bind, Except.bind]

theorem map_eq_ok {x : Except ε α} {f : α → β} {b : β} :
    f <$> x = .ok b ↔ ∃ a, x = .ok a ∧ f a = b := by
  cases x <;> simp [Functor.map, Except.map]

theorem map_eq_error {x : Except ε α} {f : α → β} {e : ε} : f <$> x = .error e ↔ x = .error e := by
  cases x <;> simp [Functor.map, Except.map]

/-- A traversal in which no step fails. -/
theorem mapM_eq_ok {f : α → Except ε β} {k : α → β} {l : List α}
    (h : ∀ a ∈ l, f a = .ok (k a)) : l.mapM f = .ok (l.map k) := by
  induction l with
  | nil => rfl
  | cons a l ih =>
    rw [List.mapM_cons, h a List.mem_cons_self, ih fun b hb => h b (List.mem_cons_of_mem a hb)]
    rfl

/-- A test of all elements in which no step fails. -/
theorem allM_eq_ok {f : α → Except ε Bool} {k : α → Bool} {l : List α}
    (h : ∀ a ∈ l, f a = .ok (k a)) : l.allM f = .ok (l.all k) := by
  induction l with
  | nil => rfl
  | cons a l ih =>
    have hrest := ih fun b hb => h b (List.mem_cons_of_mem a hb)
    rw [List.allM, h a List.mem_cons_self, List.all_cons]
    cases k a with
    | true => exact hrest
    | false => rfl

/-- **A traversal that gives answers** gives one for each element, in order. -/
theorem forall₂_of_mapM_eq_ok {f : α → Except ε β} {l : List α} {answers : List β} (h : l.mapM f = .ok answers) :
    List.Forall₂ (fun a answer => a ∈ l ∧ f a = .ok answer) l answers := by
  induction l generalizing answers with
  | nil =>
    obtain rfl := Except.ok.inj h
    exact .nil
  | cons a l ih =>
    rw [List.mapM_cons] at h
    obtain ⟨first, ha, h⟩ := bind_eq_ok.mp h
    obtain ⟨rest, hl, h⟩ := bind_eq_ok.mp h
    obtain rfl := Except.ok.inj h
    exact .cons ⟨List.mem_cons_self, ha⟩ ((ih hl).imp fun _ _ => And.imp_left (List.mem_cons_of_mem a))

/-- There are as many answers as elements, and each is that for some element. -/
theorem exists_of_mapM_eq_ok {f : α → Except ε β} {l : List α} {answers : List β} (h : l.mapM f = .ok answers) :
    answers.length = l.length ∧ ∀ answer ∈ answers, ∃ a ∈ l, f a = .ok answer := by
  have hall := forall₂_of_mapM_eq_ok h
  refine ⟨hall.length_eq.symm, fun answer hanswer => ?_⟩
  obtain ⟨i, hi, rfl⟩ := List.getElem_of_mem hanswer
  exact ⟨_, hall.get (hall.length_eq ▸ hi) hi⟩

/-- No step of it fails. -/
theorem exists_ok_of_mapM_eq_ok {f : α → Except ε β} {l : List α} {answers : List β} (h : l.mapM f = .ok answers) :
    ∀ a ∈ l, ∃ b, f a = .ok b := by
  have hall := forall₂_of_mapM_eq_ok h
  intro a ha
  obtain ⟨i, hi, rfl⟩ := List.getElem_of_mem ha
  exact ⟨_, (hall.get hi (hall.length_eq ▸ hi)).2⟩

/-- A fold in which no step fails follows one that cannot fail. -/
theorem foldlM_follows {γ : Type} {R : β → γ → Prop} {f : β → α → Except ε β} {k : γ → α → γ} {l : List α}
    (hstep : ∀ b c, ∀ a ∈ l, R b c → ∃ b', f b a = .ok b' ∧ R b' (k c a)) {b : β} {c : γ} (h : R b c) :
    ∃ b', l.foldlM f b = .ok b' ∧ R b' (l.foldl k c) := by
  induction l generalizing b c with
  | nil => exact ⟨b, rfl, h⟩
  | cons a l ih =>
    obtain ⟨b', hb, hR⟩ := hstep b c a List.mem_cons_self h
    obtain ⟨last, hlast, hR⟩ := ih (fun b c a ha => hstep b c a (List.mem_cons_of_mem _ ha)) hR
    refine ⟨last, ?_, hR⟩
    rw [List.foldlM_cons, hb]
    exact hlast

/-- A fold in which no step fails, where each step keeps what the next one needs. -/
theorem foldlM_eq_ok {P : β → Prop} {f : β → α → Except ε β} {k : β → α → β} {l : List α}
    (hstep : ∀ b, ∀ a ∈ l, P b → f b a = .ok (k b a) ∧ P (k b a)) {b : β} (h : P b) :
    l.foldlM f b = .ok (l.foldl k b) ∧ P (l.foldl k b) := by
  obtain ⟨b', hb, rfl, hP⟩ := foldlM_follows (R := fun b c => b = c ∧ P c) (k := k)
    (fun b c a ha hR => ⟨k b a, (hstep b a ha (hR.1 ▸ hR.2)).1, by rw [hR.1], (hstep c a ha hR.2).2⟩) ⟨rfl, h⟩
  exact ⟨hb, hP⟩

end Answers

namespace Grammar

variable {g : Grammar}

/-- A grammar is its symbols and its start symbol. -/
theorem eq_of_symbols_start {a : Grammar} (hsymbols : a.symbols = g.symbols) (hstart : a.start = g.start) : a = g := by
  obtain ⟨symbols, start⟩ := a
  obtain rfl : symbols = g.symbols := hsymbols
  obtain rfl : start = g.start := hstart
  rfl

/-! ## Names of indices -/

/-- The name of the symbol at an index; an index without a symbol has the empty name. -/
def label (g : Grammar) (i : Nat) : String := g.names[i]?.getD ""

theorem length_names (g : Grammar) : g.names.length = g.symbols.length := List.length_map _

theorem getElem?_names {i : Nat} {symbol : Symbol} (h : g.symbols[i]? = some symbol) :
    g.names[i]? = some symbol.name := by
  rw [names, List.getElem?_map, h]
  rfl

/-- The label of an index is the name of the symbol there. -/
theorem label_of_getElem? {i : Nat} {symbol : Symbol} (h : g.symbols[i]? = some symbol) :
    g.label i = symbol.name := by
  rw [label, getElem?_names h]
  rfl

/-- In range, asking for a name does not fail. -/
theorem nameOf_eq {i : Nat} (h : i < g.symbols.length) : g.nameOf i = .ok (g.label i) := by
  have hi : g.symbols[i]? = some g.symbols[i] := List.getElem?_eq_getElem h
  rw [nameOf, hi, label_of_getElem? hi]

/-- Out of range it does. -/
theorem nameOf_eq_ok_iff {i : Nat} {name : String} :
    g.nameOf i = .ok name ↔ i < g.symbols.length ∧ g.label i = name := by
  by_cases h : i < g.symbols.length
  · rw [nameOf_eq h, Except.ok.injEq, and_iff_right h]
  · rw [nameOf, List.getElem?_eq_none (Nat.le_of_not_lt h)]
    simp [h]

/-- Naming indices of symbols does not fail. -/
theorem namesOf_eq {l : List Nat} (h : ∀ i ∈ l, i < g.symbols.length) :
    g.namesOf l = .ok (l.map g.label) :=
  mapM_eq_ok fun i hi => nameOf_eq (h i hi)

theorem label_mem_names {i : Nat} (h : i < g.symbols.length) : g.label i ∈ g.names := by
  rw [← length_names] at h
  rw [label, List.getElem?_eq_getElem h]
  exact List.getElem_mem h

/-! ## Kinds of symbols -/

/-- Whether there is a terminal at an index. -/
def isTerminal (g : Grammar) (i : Nat) : Bool := (g.symbols[i]?.bind Symbol.terminal?).isSome

/-- A non-terminal is found where it stands. -/
theorem nonTerminalAt?_eq_some_iff {i : Nat} {nt : NonTerminal} :
    g.nonTerminalAt? i = some nt ↔ g.symbols[i]? = some (.nonTerminal nt) := by
  rw [nonTerminalAt?]
  rcases g.symbols[i]? with - | symbol
  · simp
  · cases symbol <;> simp [Symbol.nonTerminal?]

theorem isNonTerminal_iff {i : Nat} :
    g.isNonTerminal i ↔ ∃ nt, g.symbols[i]? = some (.nonTerminal nt) := by
  rw [isNonTerminal, Option.isSome_iff_exists]
  exact exists_congr fun _ => nonTerminalAt?_eq_some_iff

theorem isTerminal_iff {i : Nat} :
    g.isTerminal i ↔ ∃ name, g.symbols[i]? = some (.terminal name) := by
  rw [isTerminal]
  rcases g.symbols[i]? with - | symbol
  · simp
  · cases symbol <;> simp [Symbol.terminal?]

theorem lt_of_getElem? {i : Nat} {symbol : Symbol} (h : g.symbols[i]? = some symbol) :
    i < g.symbols.length :=
  (List.getElem?_eq_some_iff.mp h).1

theorem lt_of_isNonTerminal {i : Nat} (h : g.isNonTerminal i) : i < g.symbols.length := by
  obtain ⟨nt, hnt⟩ := isNonTerminal_iff.mp h
  exact lt_of_getElem? hnt

theorem lt_of_isTerminal {i : Nat} (h : g.isTerminal i) : i < g.symbols.length := by
  obtain ⟨name, hname⟩ := isTerminal_iff.mp h
  exact lt_of_getElem? hname

/-- Terminals are not non-terminals. -/
theorem not_isNonTerminal_of_isTerminal {i : Nat} (h : g.isTerminal i) : ¬ g.isNonTerminal i := by
  intro hn
  obtain ⟨name, hname⟩ := isTerminal_iff.mp h
  obtain ⟨nt, hnt⟩ := isNonTerminal_iff.mp hn
  rw [hname] at hnt
  simp at hnt

/-- The non-terminals are those among the symbols. -/
theorem mem_nonTerminals {nt : NonTerminal} :
    nt ∈ g.nonTerminals ↔ ∃ i : Nat, g.symbols[i]? = some (.nonTerminal nt) := by
  rw [nonTerminals, List.mem_filterMap]
  refine ⟨?_, ?_⟩
  · rintro ⟨symbol, hs, hnt⟩
    obtain ⟨i, hi⟩ := List.mem_iff_getElem?.mp hs
    cases symbol with
    | nonTerminal other =>
      obtain rfl : other = nt := Option.some.inj hnt
      exact ⟨i, hi⟩
    | epsilon => cases hnt
    | terminal name => cases hnt
  · rintro ⟨i, hi⟩
    exact ⟨.nonTerminal nt, List.mem_of_getElem? hi, rfl⟩

theorem mem_terminals {i : Nat} : i ∈ g.terminals.map (·.1) ↔ g.isTerminal i := by
  rw [isTerminal_iff, List.mem_map]
  refine ⟨?_, ?_⟩
  · rintro ⟨⟨k, name⟩, hmem, rfl⟩
    obtain ⟨⟨symbol, j⟩, hsymbol, hname⟩ := List.mem_filterMap.mp hmem
    obtain ⟨name', hterminal, heq⟩ := Option.map_eq_some_iff.mp hname
    obtain ⟨rfl, rfl⟩ := Prod.mk.inj heq
    cases symbol with
    | terminal other =>
      obtain rfl := Option.some.inj hterminal
      exact ⟨other, List.mem_zipIdx_iff_getElem?.mp hsymbol⟩
    | epsilon => cases hterminal
    | nonTerminal nt => cases hterminal
  · rintro ⟨name, hname⟩
    refine ⟨(i, name), List.mem_filterMap.mpr ⟨(.terminal name, i), ?_, rfl⟩, rfl⟩
    exact List.mem_zipIdx_iff_getElem?.mpr hname

/-- The names of the non-terminals stand in the order of all names. -/
theorem names_nonTerminals_sublist (g : Grammar) :
    (g.nonTerminals.map NonTerminal.name).Sublist g.names := by
  rw [nonTerminals, names]
  induction g.symbols with
  | nil => exact List.Sublist.slnil
  | cons symbol symbols ih =>
    cases symbol with
    | epsilon => exact ih.cons _
    | terminal name => exact ih.cons _
    | nonTerminal nt => exact ih.cons_cons _

/-! ## In well-formed grammars -/

namespace WellFormed

variable (hg : g.WellFormed)
include hg

theorem epsilon_lt : epsilonIndex < g.symbols.length := lt_of_getElem? hg.epsilon

theorem isTerminal_endMark : g.isTerminal endMarkIndex := isTerminal_iff.mpr ⟨_, hg.endMark⟩

theorem label_epsilon : g.label epsilonIndex = PredictiveGrammar.epsilon := label_of_getElem? hg.epsilon

theorem label_endMark : g.label endMarkIndex = PredictiveGrammar.endMark := label_of_getElem? hg.endMark

/-- The symbol `ε` is no non-terminal. -/
theorem not_isNonTerminal_epsilon : ¬ g.isNonTerminal epsilonIndex := by
  intro h
  obtain ⟨nt, hnt⟩ := isNonTerminal_iff.mp h
  rw [hg.epsilon] at hnt
  simp at hnt

/-- The symbol `ε` is no terminal either. -/
theorem not_isTerminal_epsilon : ¬ g.isTerminal epsilonIndex := by
  intro h
  obtain ⟨name, hname⟩ := isTerminal_iff.mp h
  rw [hg.epsilon] at hname
  simp at hname

theorem ne_epsilon_of_isTerminal {i : Nat} (h : g.isTerminal i) : i ≠ epsilonIndex :=
  fun h0 => hg.not_isTerminal_epsilon (h0 ▸ h)

theorem ne_epsilon_of_isNonTerminal {i : Nat} (h : g.isNonTerminal i) : i ≠ epsilonIndex :=
  fun h0 => hg.not_isNonTerminal_epsilon (h0 ▸ h)

/-- Only the symbol at index 0 is `ε`. -/
theorem eq_epsilonIndex {i : Nat} (h : g.symbols[i]? = some .epsilon) : i = epsilonIndex := by
  obtain ⟨nts, names, hblocks⟩ := hg.blocks
  match i with
  | 0 => rfl
  | 1 =>
    rw [hg.endMark] at h
    simp at h
  | i + 2 =>
    rw [Nat.add_comm, ← List.getElem?_drop, hblocks] at h
    have hmem := List.mem_of_getElem? h
    simp at hmem

/-- **Every symbol has one kind**: it is `ε`, a terminal or a non-terminal. -/
theorem symbol_cases {i : Nat} (hi : i < g.symbols.length) :
    i = epsilonIndex ∨ g.isTerminal i ∨ g.isNonTerminal i := by
  have hs : g.symbols[i]? = some g.symbols[i] := List.getElem?_eq_getElem hi
  rcases hsymbol : g.symbols[i] with - | name | nt
  · rw [hsymbol] at hs
    exact Or.inl (hg.eq_epsilonIndex hs)
  · rw [hsymbol] at hs
    exact Or.inr (Or.inl (isTerminal_iff.mpr ⟨name, hs⟩))
  · rw [hsymbol] at hs
    exact Or.inr (Or.inr (isNonTerminal_iff.mpr ⟨nt, hs⟩))

/-- A non-terminal is the symbol at its own index. -/
theorem mem_nonTerminals_iff {nt : NonTerminal} :
    nt ∈ g.nonTerminals ↔ g.symbols[nt.index]? = some (.nonTerminal nt) := by
  rw [mem_nonTerminals]
  refine ⟨?_, ?_⟩
  · rintro ⟨i, hi⟩
    rw [hg.index i nt hi]
    exact hi
  · intro h
    exact ⟨nt.index, h⟩

/-- A non-terminal stands at its own index. -/
theorem isNonTerminal_index {nt : NonTerminal} (h : nt ∈ g.nonTerminals) : g.isNonTerminal nt.index :=
  isNonTerminal_iff.mpr ⟨nt, hg.mem_nonTerminals_iff.mp h⟩

theorem index_ne_epsilon {nt : NonTerminal} (h : nt ∈ g.nonTerminals) : nt.index ≠ epsilonIndex :=
  hg.ne_epsilon_of_isNonTerminal (hg.isNonTerminal_index h)

theorem index_lt {nt : NonTerminal} (h : nt ∈ g.nonTerminals) : nt.index < g.symbols.length :=
  lt_of_isNonTerminal (hg.isNonTerminal_index h)

theorem exists_nonTerminal {i : Nat} (h : g.isNonTerminal i) : ∃ nt ∈ g.nonTerminals, nt.index = i := by
  obtain ⟨nt, hnt⟩ := isNonTerminal_iff.mp h
  exact ⟨nt, mem_nonTerminals.mpr ⟨i, hnt⟩, hg.index i nt hnt⟩

/-- An index determines the non-terminal. -/
theorem nonTerminal_ext {nt nt' : NonTerminal} (h : nt ∈ g.nonTerminals) (h' : nt' ∈ g.nonTerminals)
    (hi : nt.index = nt'.index) : nt = nt' := by
  rw [hg.mem_nonTerminals_iff] at h h'
  rw [hi, h'] at h
  simpa using h.symm

theorem label_index {nt : NonTerminal} (h : nt ∈ g.nonTerminals) : g.label nt.index = nt.name :=
  label_of_getElem? (hg.mem_nonTerminals_iff.mp h)

/-- The index found for a name is the one that has the name. -/
theorem indexOf?_eq_some_iff {name : String} {i : Nat} :
    g.indexOf? name = some i ↔ i < g.symbols.length ∧ g.label i = name := by
  rw [indexOf?, label, List.idxOf?_eq_some_iff, ← length_names]
  refine ⟨?_, ?_⟩
  · rintro ⟨hi, hname, -⟩
    rw [List.getElem?_eq_getElem hi]
    exact ⟨hi, hname⟩
  · rintro ⟨hi, hname⟩
    rw [List.getElem?_eq_getElem hi] at hname
    refine ⟨hi, hname, fun j hj heq => ?_⟩
    have hji : j = i := (List.Nodup.getElem_inj_iff hg.names).mp (heq.trans hname.symm)
    omega

/-- The search among the symbols finds the place of a name among the names. -/
theorem indexOf?_eq_some_iff_names {name : String} {i : Nat} :
    g.indexOf? name = some i ↔ g.names[i]? = some name := by
  rw [hg.indexOf?_eq_some_iff, label, ← length_names]
  refine ⟨?_, ?_⟩
  · rintro ⟨hi, hname⟩
    rw [List.getElem?_eq_getElem hi] at hname ⊢
    exact congrArg some hname
  · intro hname
    rw [hname]
    exact ⟨(List.getElem?_eq_some_iff.mp hname).1, rfl⟩

/-- Going to the name and back finds the index again. -/
theorem indexOf?_label {i : Nat} (h : i < g.symbols.length) : g.indexOf? (g.label i) = some i :=
  hg.indexOf?_eq_some_iff.mpr ⟨h, rfl⟩

/-- So names tell indices apart. -/
theorem label_inj {i j : Nat} (hi : i < g.symbols.length) (hj : j < g.symbols.length)
    (h : g.label i = g.label j) : i = j := by
  have hfound := hg.indexOf?_label hi
  rw [h, hg.indexOf?_label hj] at hfound
  exact (Option.some.inj hfound).symm

/-- Lists of indices with the same names are equal. -/
theorem map_label_inj {l m : List Nat} (hl : ∀ i ∈ l, i < g.symbols.length)
    (hm : ∀ i ∈ m, i < g.symbols.length) (h : l.map g.label = m.map g.label) : l = m := by
  have hback : ∀ {l : List Nat}, (∀ i ∈ l, i < g.symbols.length) →
      (l.map g.label).map g.indexOf? = l.map some := by
    intro l hl
    rw [List.map_map]
    exact List.map_congr_left fun i hi => hg.indexOf?_label (hl i hi)
  have hsome := congrArg (List.map g.indexOf?) h
  rw [hback hl, hback hm] at hsome
  exact List.map_injective_iff.mpr (fun _ _ => Option.some.inj) hsome

/-- Non-terminals have different names. -/
theorem nonTerminal_name_ext {nt nt' : NonTerminal} (h : nt ∈ g.nonTerminals) (h' : nt' ∈ g.nonTerminals)
    (hname : nt.name = nt'.name) : nt = nt' := by
  rw [← hg.label_index h, ← hg.label_index h'] at hname
  exact hg.nonTerminal_ext h h' (hg.label_inj (hg.index_lt h) (hg.index_lt h') hname)

theorem label_ne_epsilon {i : Nat} (hi : i < g.symbols.length) (h : i ≠ epsilonIndex) :
    g.label i ≠ PredictiveGrammar.epsilon := by
  intro heq
  rw [← hg.label_epsilon] at heq
  exact h (hg.label_inj hi hg.epsilon_lt heq)

/-- Productions stay in range. -/
theorem production_lt {nt : NonTerminal} (h : nt ∈ g.nonTerminals) {production : Production}
    (hp : production ∈ nt.productions) : ∀ i ∈ production, i < g.symbols.length :=
  (hg.productions nt h production hp).2

end WellFormed

end Grammar

end PredictiveGrammar
