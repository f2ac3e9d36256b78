import PredictiveGrammar.Proofs.EditedGrammars
import PredictiveGrammar.Proofs.Registration

/-!
# Registers and grammars

A register does what its grammar does: its table has the names of the grammar (`Register.Tabled`), so a look-up in it
finds what a search among the names finds, and a fresh name for one is fresh for the other. So the registers that come
from rules hold the built grammars and no others (`Register.Reached.grammar_built`, `Grammar.Built.exists_register`).
-/

namespace PredictiveGrammar

variable {used used' : List String} {name : String}

/-! ## Names in use -/

/-- The fresh name for a name depends on which names are used, not on their order. -/
theorem freshName_congr (h : ∀ x, x ∈ used ↔ x ∈ used') (name : String) :
    freshName used name = freshName used' name := by
  obtain ⟨count, heq, hnot, hbelow⟩ := exists_freshName_eq used name
  obtain ⟨count', heq', hnot', hbelow'⟩ := exists_freshName_eq used' name
  rw [heq, heq']
  rcases Nat.lt_trichotomy count count' with hlt | rfl | hlt
  · exact absurd ((h _).mpr (hbelow' count hlt)) hnot
  · rfl
  · exact absurd ((h _).mp (hbelow count' hlt)) hnot'

theorem mem_cons_congr (h : ∀ x, x ∈ used ↔ x ∈ used') (name x : String) :
    x ∈ name :: used ↔ x ∈ name :: used' := by
  rw [List.mem_cons, List.mem_cons, h]

/-- The elimination asks only which names are in use, and not in which order they stand. -/
theorem unrollRules_congr (h : ∀ x, x ∈ used ↔ x ∈ used') (rules : List Rule) :
    unrollRules used rules = unrollRules used' rules := by
  induction rules generalizing used used' with
  | nil => rfl
  | cons rule rules ih =>
    simp only [unrollRules, freshName_congr h, ih h, ih (mem_cons_congr h _)]

theorem factorGroups_congr (h : ∀ x, x ∈ used ↔ x ∈ used') (left : String) (ordinal : Nat)
    (groups : List (List (List String))) :
    factorGroups left used ordinal groups = factorGroups left used' ordinal groups := by
  induction groups generalizing used used' ordinal with
  | nil => rfl
  | cons group groups ih =>
    match group with
    | [right] => rw [factorGroups, factorGroups, ih h]
    | [] => simp only [factorGroups, freshName_congr h, ih (mem_cons_congr h _)]
    | first :: second :: rest => simp only [factorGroups, freshName_congr h, ih (mem_cons_congr h _)]

/-- Factoring asks only this as well. -/
theorem factorRules_congr (h : ∀ x, x ∈ used ↔ x ∈ used') (rules : List Rule) :
    factorRules used rules = factorRules used' rules := by
  induction rules generalizing used used' with
  | nil => rfl
  | cons rule rules ih =>
    have hmore : ∀ names x, x ∈ names ++ used ↔ x ∈ names ++ used' := by simp [h]
    simp only [factorRules, factorGroups_congr h, ih (hmore _)]

namespace Register

variable {r s : Register} {i : Nat}

/-! ## What the table says -/

/-- The table says where names stand. -/
def Tabled (r : Register) : Prop :=
  ∀ name i, r.table.lookup name = some i ↔ r.grammar.names[i]? = some name

/-- Building stores the place of every name. -/
theorem tabled_ofRules (rules : List Rule) : (ofRules rules).Tabled := by
  have hnames : (ofRules rules).grammar.names = numbered rules := by
    rw [grammar_ofRules, Grammar.names_ofRules]
  exact fun name i => hnames ▸ (holds_ofRules rules).table name i

/-- So looking a name up finds what searching for it finds. -/
theorem lookup_ofRules (rules : List Rule) (name : String) :
    (ofRules rules).table.lookup name = (Grammar.ofRules rules).indexOf? name := by
  have hwf := Grammar.wellFormed_ofRules rules
  refine Option.ext fun i => ?_
  rw [tabled_ofRules, grammar_ofRules, hwf.indexOf?_eq_some_iff_names]

namespace Tabled

variable (hr : r.Tabled)
include hr

/-- The table knows the names of the grammar. -/
theorem mem_keys : name ∈ r.table.keys ↔ name ∈ r.grammar.names := by
  rw [← AList.mem_keys, ← AList.lookup_isSome, Option.isSome_iff_exists, List.mem_iff_getElem?]
  exact exists_congr fun i => hr name i

/-- The table finds what a search among the names finds. -/
theorem lookup_eq (hg : r.grammar.WellFormed) (name : String) : r.table.lookup name = r.grammar.indexOf? name := by
  refine Option.ext fun i => ?_
  rw [hr name i, hg.indexOf?_eq_some_iff_names]

omit hr in
/-- Tables of one grammar say the same. -/
theorem lookup_congr (hr : r.Tabled) (hs : s.Tabled) (h : s.grammar = r.grammar) (name : String) :
    s.table.lookup name = r.table.lookup name := by
  refine Option.ext fun i => ?_
  rw [hr name i, hs name i, h]

/-! ## What the operations do -/

/-- **A start symbol is chosen as in the grammar**, with the same refusals. -/
theorem withStart_grammar (hg : r.grammar.WellFormed) (name : String) :
    grammar <$> r.withStart name = r.grammar.withStart name := by
  rw [withStart, Grammar.withStart, hr.lookup_eq hg]
  rcases r.grammar.indexOf? name with - | index
  · rfl
  · by_cases hindex : r.grammar.isNonTerminal index
    · simp only [hindex, if_true]
      rfl
    · simp only [hindex]
      rfl

omit hr in
/-- A register is rebuilt as its grammar is, as long as the transformation does the same with both lists of names. -/
theorem rebuilt_grammar {transform : List String → List Rule → List Rule}
    (htransform : ∀ rules, transform r.table.keys rules = transform r.grammar.names rules) :
    grammar <$> r.rebuilt transform = r.grammar.rebuilt transform := by
  rw [rebuilt, Grammar.rebuilt]
  rcases r.grammar.rules with e | rules
  · rfl
  rcases r.grammar.startName? with e | start
  · rfl
  have hsymbols : (ofRules (transform r.table.keys rules)).symbols =
      (Grammar.ofRules (transform r.grammar.names rules)).symbols := by
    rw [← htransform, ← grammar_ofRules]
    rfl
  have hstart : (start.bind fun name => (ofRules (transform r.table.keys rules)).table.lookup name) =
      start.bind (Grammar.ofRules (transform r.grammar.names rules)).indexOf? := by
    rw [← htransform]
    exact congrArg start.bind (funext (lookup_ofRules _))
  exact congrArg Except.ok (Grammar.eq_of_symbols_start hsymbols hstart)

/-- **A register is transformed as its grammar is.** -/
theorem apply_grammar (step : Transformation) : grammar <$> r.apply step = step.apply r.grammar := by
  cases step with
  | eliminateLeftRecursion => exact rebuilt_grammar (unrollRules_congr fun _ => hr.mem_keys)
  | factorLeft =>
    rw [apply, Transformation.apply, Grammar.leftFactored]
    cases r.grammar.nonTerminals.find? (·.productions.any List.isEmpty) with
    | none => exact rebuilt_grammar (factorRules_congr fun _ => hr.mem_keys)
    | some nt => rfl

/-! ## The table of the answer -/

omit hr in
/-- A rebuilt register has a new table, which is right even if the old one was not. -/
theorem of_rebuilt {transform : List String → List Rule → List Rule} (heq : r.rebuilt transform = .ok s) :
    s.Tabled := by
  obtain ⟨rules, -, heq⟩ := bind_eq_ok.mp heq
  obtain ⟨start, -, heq⟩ := bind_eq_ok.mp heq
  obtain rfl := Except.ok.inj heq
  exact tabled_ofRules _

theorem withStart (heq : r.withStart name = .ok s) : s.Tabled := by
  rw [Register.withStart] at heq
  split at heq
  · split at heq
    · obtain rfl := Except.ok.inj heq
      exact hr
    · cases heq
  · cases heq

omit hr in
/-- So has one that was transformed. -/
theorem of_apply {step : Transformation} (heq : r.apply step = .ok s) : s.Tabled := by
  cases step with
  | eliminateLeftRecursion => exact of_rebuilt heq
  | factorLeft =>
    rw [Register.apply] at heq
    split at heq
    · cases heq
    · exact of_rebuilt heq

/-- **What gives the grammar back** gives the table back as well. -/
theorem apply_fixed {step : Transformation} (h : step.apply r.grammar = .ok r.grammar) :
    ∃ s, r.apply step = .ok s ∧ s.grammar = r.grammar ∧ ∀ name, s.table.lookup name = r.table.lookup name := by
  rw [← hr.apply_grammar] at h
  obtain ⟨s, heq, hgrammar⟩ := map_eq_ok.mp h
  exact ⟨s, heq, hgrammar, hr.lookup_congr (.of_apply heq) hgrammar⟩

end Tabled

/-! ## Everything that is reached -/

/-- **Registers hold built grammars**, and their tables say where names stand. -/
theorem Reached.grammar_built (h : r.Reached) : r.grammar.Built ∧ r.Tabled := by
  induction h with
  | empty => exact ⟨.empty, tabled_ofRules []⟩
  | ofRules rules => exact ⟨grammar_ofRules rules ▸ .ofRules rules, tabled_ofRules rules⟩
  | @withStart r s name _ heq ih =>
    obtain ⟨hbuilt, htabled⟩ := ih
    have hgrammar : r.grammar.withStart name = .ok s.grammar :=
      (htabled.withStart_grammar hbuilt.wellFormed name).symm.trans (map_eq_ok.mpr ⟨s, heq, rfl⟩)
    exact ⟨hbuilt.withStart hgrammar, htabled.withStart heq⟩
  | @transform r s step _ heq ih =>
    obtain ⟨hbuilt, htabled⟩ := ih
    have hgrammar : step.apply r.grammar = .ok s.grammar :=
      (htabled.apply_grammar step).symm.trans (map_eq_ok.mpr ⟨s, heq, rfl⟩)
    exact ⟨hbuilt.transform hgrammar, .of_apply heq⟩

end Register

namespace Grammar

variable {g : Grammar}

/-- **Every built grammar is held by a register.** -/
theorem Built.exists_register (hg : g.Built) : ∃ r : Register, r.Reached ∧ r.grammar = g := by
  induction hg with
  | empty => exact ⟨.empty, .empty, rfl⟩
  | ofRules rules => exact ⟨.ofRules rules, .ofRules rules, Register.grammar_ofRules rules⟩
  | @withStart g h name _ heq ih =>
    obtain ⟨r, hr, rfl⟩ := ih
    obtain ⟨hbuilt, htabled⟩ := hr.grammar_built
    rw [← htabled.withStart_grammar hbuilt.wellFormed] at heq
    obtain ⟨s, hs, rfl⟩ := map_eq_ok.mp heq
    exact ⟨s, hr.withStart hs, rfl⟩
  | @transform g h step _ heq ih =>
    obtain ⟨r, hr, rfl⟩ := ih
    rw [← hr.grammar_built.2.apply_grammar] at heq
    obtain ⟨s, hs, rfl⟩ := map_eq_ok.mp heq
    exact ⟨s, hr.transform hs, rfl⟩

/-- The names of all symbols with their indices. -/
theorem mem_symbolTable {name : String} {i : Nat} :
    (name, i) ∈ g.symbolTable ↔ ∃ symbol, g.symbols[i]? = some symbol ∧ symbol.name = name := by
  rw [symbolTable, List.mem_mergeSort, List.mem_zipIdx_iff_getElem?, names, List.getElem?_map,
    Option.map_eq_some_iff]

theorem nonTerminals_ne_nil {i : Nat} (h : g.isNonTerminal i) : g.nonTerminals ≠ [] := by
  obtain ⟨nt, hnt⟩ := isNonTerminal_iff.mp h
  exact List.ne_nil_of_mem (mem_nonTerminals.mpr ⟨i, hnt⟩)

/-- **The order of a built grammar.** The symbol `ε` comes first and the end mark second, then the non-terminals, which
know their indices, then the other terminals. Names are unique, and the table of names has the index of each symbol and
nothing else. Productions have symbols of the grammar, at least one, and there is a start symbol, a non-terminal,
exactly if there is a non-terminal. A register holds the grammar, and in every one that does the stored table says the
same. -/
theorem Built.arena (hg : g.Built) :
    g.symbols[epsilonIndex]? = some .epsilon ∧
      g.symbols[endMarkIndex]? = some (.terminal PredictiveGrammar.endMark) ∧
      (∃ (nts : List NonTerminal) (terminals : List String),
        g.symbols.drop 2 = nts.map Symbol.nonTerminal ++ terminals.map Symbol.terminal) ∧
      (∀ (i : Nat) (nt : NonTerminal), g.symbols[i]? = some (.nonTerminal nt) → nt.index = i) ∧
      g.names.Nodup ∧
      (∀ name i, (name, i) ∈ g.symbolTable ↔ ∃ symbol, g.symbols[i]? = some symbol ∧ symbol.name = name) ∧
      (∀ nt ∈ g.nonTerminals, ∀ production ∈ nt.productions,
        production ≠ [] ∧ ∀ i ∈ production, i < g.symbols.length) ∧
      (∀ i, g.start = some i → g.isNonTerminal i) ∧ (g.start.isSome ↔ g.nonTerminals ≠ []) ∧
      (∃ r : Register, r.Reached ∧ r.grammar = g) ∧
      ∀ r : Register, r.Reached → r.grammar = g →
        ∀ name i, r.table.lookup name = some i ↔ (name, i) ∈ g.symbolTable := by
  have hwf := hg.wellFormed
  refine ⟨hwf.epsilon, hwf.endMark, hwf.blocks, hwf.index, hwf.names, fun _ _ => mem_symbolTable, hwf.productions,
    hwf.start, ⟨fun hsome => ?_, hwf.started⟩, hg.exists_register, ?_⟩
  · obtain ⟨i, hi⟩ := Option.isSome_iff_exists.mp hsome
    exact nonTerminals_ne_nil (hwf.start i hi)
  · rintro r hr rfl name i
    rw [hr.grammar_built.2, mem_symbolTable, names, List.getElem?_map, Option.map_eq_some_iff]

/-- Rules with a repeated left side, a reserved one and an alternative without symbols. -/
def mixedRules : List Rule :=
  [⟨"S", [["b", "A"], []]⟩, ⟨"ε", [["q"]]⟩, ⟨"A", [["A", "$"], ["a"]]⟩, ⟨"S", [["S"]]⟩]

/-- The grammar of these rules, started from `A` and with left recursion eliminated. -/
def mixed : Grammar :=
  (ofRules [⟨"S", [["b", "A", "S'"], ["ε", "S'"]]⟩, ⟨"S'", [["ε", "S'"], ["ε"]]⟩, ⟨"A", [["a", "A'"]]⟩,
    ⟨"A'", [["$", "A'"], ["ε"]]⟩]).startedFrom (some "A")

theorem built_mixed : mixed.Built :=
  have hstarted : (ofRules mixedRules).withStart "A" = .ok ((ofRules mixedRules).startedFrom (some "A")) := by decide
  have hunrolled : Transformation.eliminateLeftRecursion.apply ((ofRules mixedRules).startedFrom (some "A")) =
      .ok mixed := by decide
  .transform (.withStart (.ofRules mixedRules) hstarted) hunrolled

/-- The register of `mixed` has stored the index of the fresh `A'`, and the start symbol is found again. -/
theorem Built.arena_mixed :
    mixed.Built ∧ ∃ r : Register, r.Reached ∧ r.grammar = mixed ∧ r.table.lookup "A'" = some 5 ∧
      r.table.lookup "q" = none ∧ r.start = some 4 ∧ mixed.isNonTerminal 4 := by
  obtain ⟨-, -, -, -, -, hnames, -, hstart, -, ⟨r, hr, hgrammar⟩, htable⟩ := Built.arena built_mixed
  have hq : r.table.lookup "q" = none := by
    refine Option.eq_none_iff_forall_ne_some.mpr fun i hi => ?_
    obtain ⟨symbol, hsymbol, hname⟩ := (hnames _ _).mp ((htable r hr hgrammar _ _).mp hi)
    have habsent : ∀ symbol ∈ mixed.symbols, symbol.name ≠ "q" := by decide
    exact habsent symbol (List.mem_of_getElem? hsymbol) hname
  have hfresh : r.table.lookup "A'" = some 5 := (htable r hr hgrammar _ _).mpr ((hnames _ _).mpr ⟨_, rfl, by decide⟩)
  refine ⟨built_mixed, r, hr, hgrammar, hfresh, hq, ?_, ?_⟩
  · exact congrArg Grammar.start hgrammar
  · exact hstart 4 (by decide)

end Grammar

end PredictiveGrammar
