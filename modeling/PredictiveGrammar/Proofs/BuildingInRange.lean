import PredictiveGrammar.Checked.Grammars
import PredictiveGrammar.Proofs.Groups
import PredictiveGrammar.Proofs.StoredTables

/-!
# Building and transforming stay in range

Nothing that builds or transforms a grammar goes to a list out of range. Entering symbols only makes the list of
symbols longer, so a left side that was entered is still there when its productions come (`Checked.ofRules_eq`).
Alternatives that are grouped have a first symbol, and the places at which a group is compared lie in its shortest
member (`Checked.sharedLength_eq`). So the checked steps do what the others do (`Checked.apply_eq`).
-/

namespace PredictiveGrammar

variable {r : Register} {left : Nat} {right : List String} {rule : Rule} {rules : List Rule}
  {group : List (List String)} {groups : List (List (List String))} {place : Nat} {symbol : String}

/-! ## Common starts, place by place -/

/-- A symbol in front of all alternatives is in front of their common start. -/
theorem sharedStart_map_cons (hne : group ≠ []) (symbol : String) :
    sharedStart (group.map (symbol :: ·)) = symbol :: sharedStart group := by
  obtain ⟨first, others, rfl⟩ := List.exists_cons_of_ne_nil hne
  simp only [sharedStart, List.map_cons, List.foldl_map]
  induction others generalizing first with
  | nil => rfl
  | cons right others ih => simpa [commonStart] using ih (commonStart first right) (by simp)

/-- Behind a place at which all members agree, the common start goes on. -/
theorem sharedStart_drop (hne : group ≠ []) (h : ∀ right ∈ group, right[place]? = some symbol) :
    sharedStart (group.map (·.drop place)) = symbol :: sharedStart (group.map (·.drop (place + 1))) := by
  have hcons : group.map (·.drop place) = (group.map (·.drop (place + 1))).map (symbol :: ·) := by
    rw [List.map_map]
    refine List.map_congr_left fun right hright => ?_
    obtain ⟨hlt, rfl⟩ := List.getElem?_eq_some_iff.mp (h right hright)
    exact List.drop_eq_getElem_cons hlt
  rw [hcons, sharedStart_map_cons (by simpa using hne)]

/-- Where the common start goes on, all members agree. -/
theorem getElem?_of_sharedStart_drop {rest : List String}
    (h : sharedStart (group.map (·.drop place)) = symbol :: rest) : ∀ right ∈ group, right[place]? = some symbol := by
  intro right hright
  have hbegins := sharedStart_isPrefix (List.mem_map_of_mem (f := (·.drop place)) hright)
  rw [h] at hbegins
  obtain ⟨tail, htail⟩ := hbegins
  rw [← Nat.add_zero place, ← List.getElem?_drop, ← htail]
  rfl

/-- **The common start from a place on** goes on as long as all members have the symbol of the first one there. -/
theorem length_sharedStart_drop {first : List String} (hfirst : first ∈ group) (hsymbol : first[place]? = some symbol) :
    (sharedStart (group.map (·.drop place))).length =
      if group.all fun right => right[place]? == some symbol then
        (sharedStart (group.map (·.drop (place + 1)))).length + 1
      else 0 := by
  split
  · next hall =>
    have hagree : ∀ right ∈ group, right[place]? = some symbol := by simpa using hall
    rw [sharedStart_drop (List.ne_nil_of_mem hfirst) hagree, List.length_cons]
  · next hall =>
    rcases hshared : sharedStart (group.map (·.drop place)) with - | ⟨start, rest⟩
    · rw [hshared, List.length_nil]
    · -- then all members have that symbol, the first one too
      have hagree := getElem?_of_sharedStart_drop hshared
      obtain rfl : symbol = start := Option.some.inj (hsymbol.symm.trans (hagree first hfirst))
      exact absurd (by simpa using hagree) hall

namespace Register

/-! ## Symbols are only added -/

/-- Entering names loses no symbol, so that indices stay in range. -/
theorem length_findAll_le (create : Nat → String → Symbol) (r : Register) (names : List String) :
    r.symbols.length ≤ (r.findAll create names).2.symbols.length := by
  induction names generalizing r with
  | nil => exact Nat.le_refl _
  | cons name names ih =>
    have hfind : r.symbols.length ≤ (r.find create name).2.symbols.length := by
      rw [find]
      split <;> simp [enter]
    exact Nat.le_trans hfind (ih (r.find create name).2)

theorem length_addRight_le (left : Nat) (r : Register) (right : List String) :
    r.symbols.length ≤ (r.addRight left right).symbols.length := by
  simpa [addRight] using length_findAll_le newTerminal r right

theorem length_addRule_le (r : Register) (entry : Nat × Rule) :
    r.symbols.length ≤ (r.addRule entry).symbols.length :=
  List.foldlRecOn (motive := fun s => r.symbols.length ≤ s.symbols.length) entry.2.rights (addRight entry.1)
    (Nat.le_refl _) fun s hs right _ => Nat.le_trans hs (length_addRight_le entry.1 s right)

/-- Left sides get indices of symbols. -/
theorem left_lt_of_findAll (rules : List Rule) :
    ∀ left ∈ (empty.findAll newNonTerminal (rules.map Rule.left)).1,
      left < (empty.findAll newNonTerminal (rules.map Rule.left)).2.symbols.length := by
  obtain ⟨hlefts, hdeclared⟩ :=
    findAll_spec newNonTerminal (P := fun known r => r.Holds known.length known [])
      (fun _ _ name h => h.find_newNonTerminal name) holds_empty (rules.map Rule.left)
  intro left hleft
  rw [hlefts, List.mem_map] at hleft
  obtain ⟨name, hname, rfl⟩ := hleft
  rw [hdeclared.length_symbols]
  exact List.idxOf_lt_length_of_mem (mem_foldl_number.mpr (Or.inr hname))

/-- A start symbol is chosen, or the name is refused. -/
theorem withStart_cases (r : Register) (name : String) :
    r.withStart name = .error (.undeclaredStart name) ∨ ∃ s, r.withStart name = .ok s := by
  rw [withStart]
  split
  · split
    · exact Or.inr ⟨_, rfl⟩
    · exact Or.inl rfl
  · exact Or.inl rfl

end Register

namespace Checked

/-! ## Building -/

/-- Adding an alternative to a symbol that is there. -/
theorem addRight_eq (h : left < r.symbols.length) (right : List String) :
    addRight left r right = .ok (r.addRight left right) := by
  have hlt := Nat.lt_of_lt_of_le h (Register.length_findAll_le Register.newTerminal r right)
  have hread := read_eq (List.getElem?_eq_getElem hlt)
  simp only [addRight, hread, write_eq hlt]
  simp [Register.addRight, List.modify_eq_set_getElem?, List.getElem?_eq_getElem hlt]

/-- Adding the alternatives of a rule stays in range if its left side does. -/
theorem addRule_eq {entry : Nat × Rule} (h : entry.1 < r.symbols.length) :
    addRule r entry = .ok (r.addRule entry) :=
  (foldlM_eq_ok (P := fun r => entry.1 < r.symbols.length) (fun s right _ hs =>
    ⟨addRight_eq hs right, Nat.lt_of_lt_of_le hs (Register.length_addRight_le entry.1 s right)⟩) h).1

/-- **Building stays in range**: every left side has its symbol before the first production comes. -/
theorem ofRules_eq (rules : List Rule) : ofRules rules = .ok (Register.ofRules rules) := by
  have hleft := Register.left_lt_of_findAll rules
  rw [ofRules, Register.ofRules]
  generalize Register.empty.findAll Register.newNonTerminal (rules.map Rule.left) = entered at hleft ⊢
  obtain ⟨lefts, r⟩ := entered
  have hadded := foldlM_eq_ok (P := fun s : Register => r.symbols.length ≤ s.symbols.length) (f := addRule)
    (k := Register.addRule) (l := lefts.zip rules) (b := r) (fun s entry hentry hs => by
      have hlt := hleft entry.1 (List.of_mem_zip hentry).1
      exact ⟨addRule_eq (Nat.lt_of_lt_of_le hlt hs), Nat.le_trans hs (Register.length_addRule_le s entry)⟩)
    (Nat.le_refl _)
  simp only [hadded.1]
  rfl

/-- **A name leads to a symbol that is there.** -/
theorem nonTerminalNamed?_eq (hr : r.Reached) (name : String) :
    nonTerminalNamed? r name = .ok (r.grammar.nonTerminalNamed? name) := by
  obtain ⟨hbuilt, htabled⟩ := hr.grammar_built
  have hg := hbuilt.wellFormed
  rw [nonTerminalNamed?, Grammar.nonTerminalNamed?, htabled.lookup_eq hg]
  cases hindex : r.grammar.indexOf? name with
  | none => rfl
  | some index =>
    have hsymbol := List.getElem?_eq_getElem (hg.indexOf?_eq_some_iff.mp hindex).1
    change Symbol.nonTerminal? <$> read r.grammar.symbols index = _
    rw [read_eq hsymbol, Option.bind_some, Grammar.nonTerminalAt?, hsymbol]
    rfl

/-! ## Eliminating left recursion -/

/-- Taking loops apart stays in range. -/
theorem loops_eq (rule : Rule) : loops rule = .ok rule.loops := by
  refine mapM_eq_ok fun right hright => ?_
  obtain ⟨rest, rfl⟩ := List.head?_eq_some_iff.mp (of_decide_eq_true (List.mem_filter.mp hright).2)
  rw [onward_eq (by simp)]
  rfl

/-- **The elimination stays in range.** -/
theorem unrollRules_eq (used : List String) (rules : List Rule) :
    unrollRules used rules = .ok (PredictiveGrammar.unrollRules used rules) := by
  induction rules generalizing used with
  | nil => rfl
  | cons rule rules ih =>
    rw [unrollRules, loops_eq, ok_bind, PredictiveGrammar.unrollRules]
    split <;> simp only [ih] <;> rfl

/-! ## Left factoring -/

/-- Alternatives with a first symbol are grouped by it. -/
theorem groupByHead_eq {rights : List (List String)} (h : ∀ right ∈ rights, right ≠ []) :
    groupByHead rights = .ok (PredictiveGrammar.groupByHead rights) := by
  refine (foldlM_eq_ok (P := fun _ => True) (fun groups right hright _ => ⟨?_, trivial⟩) trivial).1
  obtain ⟨symbol, rest, rfl⟩ := List.exists_cons_of_ne_nil (h right hright)
  rfl

/-- A place that every member has is read in all of them. -/
theorem agree_eq (h : ∀ right ∈ group, place < right.length) {first : List String} (hfirst : group[0]? = some first) :
    agree group place = .ok (group.all fun right => right[place]? == first[place]?) := by
  have hfirstLt := h first (List.mem_of_getElem? hfirst)
  refine allM_eq_ok fun right hright => ?_
  rw [read_eq hfirst, List.getElem?_eq_getElem (h right hright), List.getElem?_eq_getElem hfirstLt]
  simp [read, h right hright, hfirstLt]

/-- **Comparing place by place** counts the symbols of the common start from a place on, if the shortest member ends at
the last place. -/
theorem countShared_eq (hne : group ≠ []) {count : Nat} (hle : ∀ right ∈ group, place + count ≤ right.length)
    (hshortest : ∃ right ∈ group, right.length = place + count) :
    countShared group place count = .ok (sharedStart (group.map (·.drop place))).length := by
  induction count generalizing place with
  -- the shortest alternative ends here
  | zero =>
    obtain ⟨right, hright, hlength⟩ := hshortest
    have hend : right.drop place = [] := List.drop_of_length_le (Nat.le_of_eq hlength)
    have hbegins := sharedStart_isPrefix (List.mem_map_of_mem (f := (·.drop place)) hright)
    rw [hend, List.prefix_nil] at hbegins
    rw [hbegins]
    rfl
  -- otherwise all of them have a symbol here, which is compared with that of the first one
  | succ count ih =>
    have hlt : ∀ right ∈ group, place < right.length := fun right hright => by have := hle right hright; omega
    have hrest : countShared group (place + 1) count = .ok (sharedStart (group.map (·.drop (place + 1)))).length :=
      ih (by simpa [Nat.add_assoc, Nat.add_comm 1] using hle) (by simpa [Nat.add_assoc, Nat.add_comm 1] using hshortest)
    have hfirst : group[0]? = some (group.head hne) := by rw [← List.head?_eq_getElem?, List.head?_eq_some_head hne]
    have hmem := List.mem_of_getElem? hfirst
    obtain ⟨symbol, hsymbol⟩ : ∃ symbol, (group.head hne)[place]? = some symbol :=
      ⟨_, List.getElem?_eq_getElem (hlt _ hmem)⟩
    rw [countShared, agree_eq hlt hfirst, hsymbol, ok_bind, length_sharedStart_drop hmem hsymbol, hrest]
    split <;> rfl

/-- Comparing alternatives symbol by symbol stays in range, since it stops at the shortest. -/
theorem sharedLength_eq (hne : group ≠ []) : sharedLength group = .ok (sharedStart group).length := by
  have hlengths : group.map List.length ≠ [] := by simpa using hne
  obtain ⟨shortest, hmin⟩ := Option.isSome_iff_exists.mp (List.isSome_min?_iff.mpr hlengths)
  obtain ⟨hmem, hle⟩ := List.min?_eq_some_iff.mp hmin
  have hcount : countShared group 0 shortest = .ok (sharedStart (group.map (·.drop 0))).length :=
    countShared_eq hne (by simpa using hle) (by simpa using hmem)
  rw [sharedLength, hmin]
  simpa using hcount

/-- **Factoring the groups of a left side stays in range.** -/
theorem factorGroups_eq (left : String) (used : List String) (ordinal : Nat) (hne : ∀ group ∈ groups, group ≠ []) :
    factorGroups left used ordinal groups = .ok (PredictiveGrammar.factorGroups left used ordinal groups) := by
  induction groups generalizing used ordinal with
  | nil => rfl
  | cons group groups ih =>
    obtain ⟨hgroup, hgroups⟩ := List.forall_mem_cons.mp hne
    match group with
    | [right] =>
      simp [factorGroups, PredictiveGrammar.factorGroups, ih _ _ hgroups, read]
    | first :: second :: others =>
      -- the group is named so that its common start is not unfolded
      generalize hfactored : first :: second :: others = factored at hgroup ⊢
      have hlong : factored.length ≠ 1 := by simp [← hfactored]
      have hfirst : factored[0]? = some first := by simp [← hfactored]
      have hbegins := sharedStart_isPrefix (List.mem_of_getElem? hfirst)
      have hstart : upTo first (sharedStart factored).length = .ok (sharedStart factored) := by
        rw [upTo_eq hbegins.length_le, ← List.prefix_iff_eq_take.mp hbegins]
      have hrests : factored.mapM (fun right =>
          if right.length = (sharedStart factored).length then pure [epsilon]
          else onward right (sharedStart factored).length) = .ok (factored.map (remainder (sharedStart factored))) := by
        refine mapM_eq_ok fun right hright => ?_
        rw [remainder, onward_eq (sharedStart_isPrefix hright).length_le]
        split <;> rfl
      rw [factorGroups, if_neg hlong, sharedLength_eq hgroup]
      simp [read_eq hfirst, hstart, hrests, ih _ _ hgroups]
      subst hfactored
      rfl

/-- **Factoring stays in range.** -/
theorem factorRules_eq (used : List String) (h : ∀ rule ∈ rules, ∀ right ∈ rule.rights, right ≠ []) :
    factorRules used rules = .ok (PredictiveGrammar.factorRules used rules) := by
  induction rules generalizing used with
  | nil => rfl
  | cons rule rules ih =>
    obtain ⟨hrule, hrules⟩ := List.forall_mem_cons.mp h
    have hne : ∀ group ∈ (PredictiveGrammar.groupByHead rule.rights).map (·.2), group ≠ [] :=
      fun _ => ne_nil_of_mem_groups
    have hgroups := factorGroups_eq rule.left used 1 hne
    simp only [factorRules, groupByHead_eq hrule, hgroups, ih _ hrules, ok_bind]
    rfl

/-! ## Changes -/

theorem rebuilt_eq (hg : r.grammar.WellFormed) {transform : List String → List Rule → List Rule}
    {checked : List String → List Rule → Checked (List Rule)}
    (h : checked r.table.keys r.grammar.namedRules = .ok (transform r.table.keys r.grammar.namedRules)) :
    ∃ s, r.rebuilt transform = .ok s ∧ rebuilt r checked = .ok s := by
  rw [rebuilt, Register.rebuilt, hg.rules_eq, hg.startName?_eq]
  simp [h, ofRules_eq]

/-- **Transforming stays in range.** -/
theorem apply_eq (hg : r.grammar.WellFormed) (step : Transformation) :
    ∃ s, r.apply step = .ok s ∧ apply step r = .ok s := by
  cases step with
  | eliminateLeftRecursion => exact rebuilt_eq hg (unrollRules_eq _ _)
  | factorLeft =>
    rw [Register.apply, hg.find?_isEmpty]
    exact rebuilt_eq hg (factorRules_eq _ hg.tidy.inhabited)

/-- **One change** is made, or refused because it asks for a start symbol that is none. -/
theorem change_cases (hr : r.Reached) (c : Change) :
    (∃ name, c = .start name ∧ change r c = .error (.refused (.undeclaredStart name)) ∧
        r.grammar.change c = .error (.undeclaredStart name)) ∨
      ∃ s, s.Reached ∧ change r c = .ok s ∧ r.grammar.change c = .ok s.grammar := by
  obtain ⟨hbuilt, htabled⟩ := hr.grammar_built
  have hg := hbuilt.wellFormed
  cases c with
  | start name =>
    rw [change, Grammar.change, ← htabled.withStart_grammar hg]
    rcases r.withStart_cases name with hrefused | ⟨s, hs⟩
    · rw [hrefused]
      exact Or.inl ⟨name, rfl, rfl, rfl⟩
    · rw [hs]
      exact Or.inr ⟨s, hr.withStart hs, rfl, rfl⟩
  | transform step =>
    obtain ⟨s, hs, hchecked⟩ := apply_eq hg step
    refine Or.inr ⟨s, hr.transform hs, hchecked, ?_⟩
    rw [Grammar.change, ← htabled.apply_grammar, hs]
    rfl

/-- **All changes** are made, or one of them is refused. -/
theorem changes_cases (hr : r.Reached) (changes : List Change) :
    (∃ name, .start name ∈ changes ∧ changes.foldlM change r = .error (.refused (.undeclaredStart name)) ∧
        changes.foldlM Grammar.change r.grammar = .error (.undeclaredStart name)) ∨
      ∃ s, s.Reached ∧ changes.foldlM change r = .ok s ∧ changes.foldlM Grammar.change r.grammar = .ok s.grammar := by
  induction changes generalizing r with
  | nil => exact Or.inr ⟨r, hr, rfl, rfl⟩
  | cons c changes ih =>
    simp only [List.foldlM_cons]
    rcases change_cases hr c with ⟨name, rfl, hchecked, hplain⟩ | ⟨s, hs, hchecked, hplain⟩
    · rw [hchecked, hplain]
      exact Or.inl ⟨name, List.mem_cons_self, rfl, rfl⟩
    · rw [hchecked, hplain, ok_bind, ok_bind]
      exact (ih hs).imp_left fun ⟨name, hname, hrest⟩ => ⟨name, List.mem_cons_of_mem _ hname, hrest⟩

end Checked

end PredictiveGrammar
