import PredictiveGrammar.Proofs.Arena
import PredictiveGrammar.Proofs.Numbering

/-!
# What building gives

The symbols of a built grammar in order (`Grammar.symbols_ofRules`), the alternatives that its productions
stand for (`Grammar.map_label_encode`), and that it is well formed whatever the rules are
(`Grammar.wellFormed_ofRules`).
-/

namespace PredictiveGrammar

/-! ## Symbols -/

/-- The non-terminals that building gives to some rules. -/
def builtNonTerminals (rules : List Rule) : List NonTerminal :=
  ((leftNames rules).zipIdx reserved.length).map fun (name, index) =>
    ⟨index, name, productionsFor rules (numbered rules) name⟩

/-- The non-terminals are the left sides that are not reserved, in order of declaration. -/
theorem names_builtNonTerminals (rules : List Rule) :
    (builtNonTerminals rules).map NonTerminal.name = leftNames rules := by
  rw [builtNonTerminals, List.map_map]
  exact List.zipIdx_map_fst _ _

section symbolFor

variable {rules : List Rule} {known : List String} {count index : Nat} {name : String}

/-- Behind the two reserved symbols stand the left sides, each with its productions. -/
theorem symbolFor_left (hlow : 2 ≤ index) (hhigh : index < count) :
    symbolFor rules known count name index =
      .nonTerminal ⟨index, name, productionsFor rules known name⟩ := by
  have h0 : index ≠ epsilonIndex := Nat.ne_of_gt (Nat.lt_of_lt_of_le Nat.zero_lt_two hlow)
  rw [symbolFor, if_neg h0, if_pos ⟨hlow, hhigh⟩]

/-- Behind the left sides stand the terminals. -/
theorem symbolFor_other (hlow : 2 ≤ index) (hhigh : count ≤ index) :
    symbolFor rules known count name index = .terminal name := by
  have h0 : index ≠ epsilonIndex := Nat.ne_of_gt (Nat.lt_of_lt_of_le Nat.zero_lt_two hlow)
  rw [symbolFor, if_neg h0, if_neg fun h => Nat.not_lt.mpr hhigh h.2]

end symbolFor

theorem length_declared (rules : List Rule) :
    (declared rules).length = 2 + (leftNames rules).length := by
  rw [declared_eq, List.length_append]
  rfl

namespace Grammar

variable {rules : List Rule}

/-- The symbol at an index is made of the name that was numbered with it. -/
theorem getElem?_symbols_ofRules (rules : List Rule) (i : Nat) :
    (ofRules rules).symbols[i]? = (numbered rules)[i]?.map fun name =>
      symbolFor rules (numbered rules) (declared rules).length name i := by
  rw [ofRules, List.getElem?_map, List.getElem?_zipIdx]
  rcases (numbered rules)[i]? with - | name
  · rfl
  · simp

/-- **The symbols in order**: `ε`, the end mark, the left sides, the other names. -/
theorem symbols_ofRules (rules : List Rule) :
    (ofRules rules).symbols = [Symbol.epsilon, Symbol.terminal PredictiveGrammar.endMark] ++
      (builtNonTerminals rules).map Symbol.nonTerminal ++ (otherNames rules).map Symbol.terminal := by
  have hlength := length_declared rules
  change (numbered rules).zipIdx.map (fun e =>
    symbolFor rules (numbered rules) (declared rules).length e.1 e.2) = _
  rw [numbered_eq rules, List.zipIdx_append, List.zipIdx_append, List.map_append, List.map_append,
    ← numbered_eq rules]
  refine congrArg₂ (· ++ ·) (congrArg₂ (· ++ ·) ?_ ?_) ?_
  · simp [reserved, symbolFor]
  · rw [builtNonTerminals, List.map_map, Nat.zero_add]
    refine List.map_congr_left fun e he => ?_
    have hhigh := List.snd_lt_add_of_mem_zipIdx he
    exact symbolFor_left (List.le_snd_of_mem_zipIdx he) (hlength ▸ hhigh)
  · have hmap : (otherNames rules).map Symbol.terminal =
        ((otherNames rules).zipIdx (declared rules).length).map (fun e => Symbol.terminal e.1) := by
      rw [← List.zipIdx_map_fst (declared rules).length (otherNames rules), List.map_map]
      simp [Function.comp_def]
    rw [hmap, ← declared_eq, Nat.zero_add]
    refine List.map_congr_left fun e he => ?_
    have hlow := List.le_snd_of_mem_zipIdx he
    exact symbolFor_other (by omega) hlow

/-- The non-terminals of the built grammar. -/
theorem nonTerminals_ofRules (rules : List Rule) :
    (ofRules rules).nonTerminals = builtNonTerminals rules := by
  have hnone : Symbol.nonTerminal? ∘ Symbol.terminal = fun _ => none := rfl
  have hsome : Symbol.nonTerminal? ∘ Symbol.nonTerminal = some := rfl
  rw [nonTerminals, symbols_ofRules, List.filterMap_append, List.filterMap_append, List.filterMap_map,
    List.filterMap_map, hnone, hsome, List.filterMap_some]
  simp [Symbol.nonTerminal?]

/-- Names stand where the numbering put them. -/
theorem names_ofRules (rules : List Rule) : (ofRules rules).names = numbered rules := by
  rw [names, symbols_ofRules, numbered_eq, List.map_append, List.map_append, List.map_map, List.map_map]
  refine congrArg₂ (· ++ ·) (congrArg₂ (· ++ ·) rfl ?_) ?_
  · exact names_builtNonTerminals rules
  · exact List.map_id _

theorem length_symbols_ofRules (rules : List Rule) :
    (ofRules rules).symbols.length = (numbered rules).length := by
  rw [← length_names, names_ofRules]

/-- The start symbol is the first non-terminal. -/
theorem start_ofRules (rules : List Rule) :
    (ofRules rules).start = match leftNames rules with
      | [] => none
      | _ :: _ => some 2 := by
  have hlength := length_declared rules
  change (if 2 < (declared rules).length then some 2 else none) = _
  rcases hleft : leftNames rules with - | ⟨name, names⟩
  · rw [hleft, List.length_nil] at hlength
    exact if_neg (by omega)
  · rw [hleft, List.length_cons] at hlength
    exact if_pos (by omega)

/-- Every left side that is not reserved is a non-terminal. -/
theorem exists_index_ofRules {name : String} (h : name ∈ leftNames rules) :
    ∃ i, (ofRules rules).indexOf? name = some i ∧ (ofRules rules).isNonTerminal i := by
  rw [← names_builtNonTerminals, ← nonTerminals_ofRules] at h
  obtain ⟨nt, hnt, rfl⟩ := List.mem_map.mp h
  obtain ⟨i, hi⟩ := mem_nonTerminals.mp hnt
  have hname : (ofRules rules).names[i]? = some nt.name := by
    rw [names, List.getElem?_map, hi]
    rfl
  refine ⟨i, ?_, isNonTerminal_iff.mpr ⟨nt, hi⟩⟩
  obtain ⟨hlt, hget⟩ := List.getElem?_eq_some_iff.mp hname
  rw [indexOf?, List.idxOf?_eq_some_iff]
  refine ⟨hlt, hget, fun j hj heq => ?_⟩
  have hnodup : (ofRules rules).names.Nodup := names_ofRules rules ▸ nodup_numbered rules
  have hji : j = i := (List.Nodup.getElem_inj_iff hnodup).mp (heq.trans hget.symm)
  omega

end Grammar

/-! ## Productions -/

/-- An alternative as it is read back: one without symbols stands for the empty word. -/
def spelled (right : List String) : List String := if right.isEmpty then [epsilon] else right

theorem spelled_nil : spelled [] = [epsilon] := rfl

theorem spelled_of_ne_nil {right : List String} (h : right ≠ []) : spelled right = right := by
  simp [spelled, h]

/-- No alternative is read back without symbols; an empty one is read back as `ε`. -/
theorem spelled_ne_nil (right : List String) : spelled right ≠ [] := by
  cases right with
  | nil => exact List.cons_ne_nil epsilon []
  | cons name rest => exact List.cons_ne_nil name rest

/-- Where another symbol than `ε` is spelled, nothing was added. -/
theorem eq_of_spelled_eq_append {right before rest : List String} {name : String} (hne : name ≠ epsilon)
    (h : spelled right = before ++ name :: rest) : right = before ++ name :: rest := by
  cases right with
  | nil =>
    have hmem : name ∈ spelled [] := h ▸ List.mem_append_right _ List.mem_cons_self
    exact absurd (List.mem_singleton.mp hmem) hne
  | cons => exact h

/-- Productions of a left side come from the alternatives of its rules, encoded. -/
theorem mem_productionsFor {rules : List Rule} {known : List String} {left : String}
    {production : Production} :
    production ∈ productionsFor rules known left ↔
      ∃ rule ∈ rules, rule.left = left ∧ ∃ right ∈ rule.rights, encode known right = production := by
  simp [productionsFor, List.mem_flatMap, and_assoc]

/-- Even an empty alternative is encoded by a symbol, which is `ε`. -/
theorem encode_ne_nil (known right : List String) : encode known right ≠ [] := by
  rw [encode]
  split
  · simp
  · next h => simpa using h

/-- Known names are encoded by indices in range. -/
theorem encode_lt {known right : List String} (h0 : 0 < known.length) (h : ∀ x ∈ right, x ∈ known) :
    ∀ i ∈ encode known right, i < known.length := by
  intro i hi
  rw [encode] at hi
  split at hi
  · rw [List.mem_singleton] at hi
    rw [hi]
    exact h0
  · obtain ⟨x, hx, rfl⟩ := List.mem_map.mp hi
    exact List.idxOf_lt_length_of_mem (h x hx)

namespace Grammar

variable {rules : List Rule}

/-- The symbol numbered for a name has this name. -/
theorem label_ofRules {name : String} (h : name ∈ numbered rules) :
    (ofRules rules).label ((numbered rules).idxOf name) = name := by
  rw [label, names_ofRules, List.getElem?_idxOf h]
  rfl

theorem numbered_length_pos (rules : List Rule) : 0 < (numbered rules).length := by
  rw [numbered_eq, List.append_assoc, List.length_append]
  exact Nat.lt_add_right _ (by decide)

/-- Encoding an alternative and naming its symbols again spells it. -/
theorem map_label_encode {right : List String} (h : ∀ x ∈ right, x ∈ numbered rules) :
    (encode (numbered rules) right).map (ofRules rules).label = spelled right := by
  rw [encode, spelled]
  split
  · have h0 : (numbered rules)[epsilonIndex]? = some PredictiveGrammar.epsilon := by
      rw [numbered_eq]
      rfl
    rw [List.map_singleton, label, names_ofRules, h0]
    rfl
  · rw [List.map_map]
    exact (List.map_congr_left fun x hx => label_ofRules (h x hx)).trans (List.map_id right)

/-- All names on right sides are numbered. -/
theorem mem_numbered_of_mem_right {rule : Rule} {right : List String} (hrule : rule ∈ rules)
    (hright : right ∈ rule.rights) : ∀ x ∈ right, x ∈ numbered rules :=
  fun _ hx => mem_numbered.mpr (Or.inr ⟨rule, hrule, right, hright, hx⟩)

/-- **Building gives well-formed grammars**, whatever the rules are. -/
theorem wellFormed_ofRules (rules : List Rule) : (ofRules rules).WellFormed where
  epsilon := by rw [symbols_ofRules]; rfl
  endMark := by rw [symbols_ofRules]; rfl
  blocks := ⟨builtNonTerminals rules, otherNames rules, by rw [symbols_ofRules]; rfl⟩
  index := by
    intro i nt h
    rw [getElem?_symbols_ofRules, Option.map_eq_some_iff] at h
    obtain ⟨name, -, h⟩ := h
    -- only the symbols behind the reserved ones and in front of the terminals are non-terminals
    rw [symbolFor] at h
    split at h
    · simp at h
    · split at h
      · rw [Symbol.nonTerminal.injEq] at h
        rw [← h]
      · simp at h
  names := by
    rw [names_ofRules]
    exact nodup_numbered rules
  productions := by
    intro nt hnt production hp
    rw [nonTerminals_ofRules] at hnt
    obtain ⟨⟨name, index⟩, -, rfl⟩ := List.mem_map.mp hnt
    obtain ⟨rule, hrule, -, right, hright, rfl⟩ := mem_productionsFor.mp hp
    rw [length_symbols_ofRules]
    -- an empty alternative became `ε`, and all names on right sides are numbered
    exact ⟨encode_ne_nil _ _,
      encode_lt (numbered_length_pos rules) (mem_numbered_of_mem_right hrule hright)⟩
  start := by
    intro i hi
    rw [start_ofRules] at hi
    split at hi
    · cases hi
    · next name names hleft =>
      obtain rfl := Option.some.inj hi
      rw [isNonTerminal_iff, symbols_ofRules, builtNonTerminals, hleft]
      exact ⟨_, rfl⟩
  started := by
    intro hne
    rw [nonTerminals_ofRules] at hne
    rw [start_ofRules]
    split
    · next hleft => exact absurd (by rw [builtNonTerminals, hleft]; rfl) hne
    · rfl

end Grammar

end PredictiveGrammar
