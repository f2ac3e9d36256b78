import PredictiveGrammar.Proofs.BuiltGrammars
import PredictiveGrammar.Transform.Register

/-!
# The stored table says where names stand

Building enters names one at a time and goes by what the table says at that moment. After any part of it the symbols
are those of the names entered so far with the productions added so far, and the table says where these names stand
(`Register.Holds`). A name keeps its index while others are entered, so a production means the same when it is added
and at the end. When all is done, the register holds the grammar of the rules (`Register.grammar_ofRules`), and the
same goes for everything that is made from it (`Register.Reached.tabled`).
-/

namespace PredictiveGrammar

variable {known known' right names : List String} {rights : List (List String)} {name left : String}
  {done rules : List Rule} {count i : Nat}

/-! ## Names keep their indices -/

theorem getElem?_append_singleton_eq_some {α : Type} {l : List α} {a b : α} {i : Nat} :
    (l ++ [a])[i]? = some b ↔ l[i]? = some b ∨ i = l.length ∧ a = b := by
  rcases Nat.lt_trichotomy i l.length with hlt | rfl | hlt
  · simp [List.getElem?_append_left hlt, Nat.ne_of_lt hlt]
  · simp
  · have hout : (l ++ [a])[i]? = none := by simp; omega
    simp [hout, Nat.le_of_lt hlt, Nat.ne_of_gt hlt]

/-- An alternative of known names means the same when more names are known. -/
theorem encode_stable (h : known <+: known') (hright : ∀ name ∈ right, name ∈ known) :
    encode known' right = encode known right := by
  rw [encode, encode]
  split
  · rfl
  · exact List.map_congr_left fun name hname => (h.idxOf_eq_of_mem (hright name hname)).symm

/-- Productions of rules whose names are known stay the same when more names are known. -/
theorem productionsFor_stable (h : known <+: known')
    (hdone : ∀ rule ∈ done, ∀ right ∈ rule.rights, ∀ name ∈ right, name ∈ known) (left : String) :
    productionsFor done known' left = productionsFor done known left := by
  refine List.flatMap_congr fun rule hrule => List.map_congr_left fun right hright => ?_
  exact encode_stable h (hdone rule (List.mem_of_mem_filter hrule) right hright)

theorem symbolFor_stable (h : known <+: known')
    (hdone : ∀ rule ∈ done, ∀ right ∈ rule.rights, ∀ name ∈ right, name ∈ known) (name : String) (i : Nat) :
    symbolFor done known' count name i = symbolFor done known count name i := by
  rw [symbolFor, symbolFor, productionsFor_stable h hdone]

/-- One more rule adds its alternatives behind those of its left side. -/
theorem productionsFor_concat (done : List Rule) (rule : Rule) (known : List String) (name : String) :
    productionsFor (done ++ [rule]) known name =
      productionsFor done known name ++ if rule.left = name then rule.rights.map (encode known) else [] := by
  rw [productionsFor, List.filter_append, List.flatMap_append, ← productionsFor]
  split <;> simp [*]

namespace Register

/-! ## What a register holds -/

/-- A new name is stored where its symbol stands. -/
theorem lookup_enter {r : Register} {symbol : Symbol} (known : List String)
    (h : ∀ name i, r.table.lookup name = some i ↔ known[i]? = some name)
    (hlength : r.symbols.length = known.length) (hname : symbol.name ∉ known) (name : String) (i : Nat) :
    (r.enter symbol).table.lookup name = some i ↔ (known ++ [symbol.name])[i]? = some name := by
  rw [getElem?_append_singleton_eq_some, Register.enter]
  by_cases heq : name = symbol.name
  · subst heq
    have hold : known[i]? ≠ some symbol.name := fun hi => hname (List.mem_of_getElem? hi)
    rw [AList.lookup_insert, hlength, Option.some.injEq, eq_comm]
    simp [hold]
  · rw [AList.lookup_insert_ne heq, h]
    simp [Ne.symm heq]

/-- The register when the names `known` are entered, those below `count` as reserved names and left sides, and the rules
`done` are added. -/
structure Holds (r : Register) (count : Nat) (known : List String) (done : List Rule) : Prop where
  /-- the symbols are those of the names -/
  symbols : r.symbols = known.zipIdx.map fun e => symbolFor done known count e.1 e.2
  /-- the table says where names stand -/
  table : ∀ name i, r.table.lookup name = some i ↔ known[i]? = some name
  /-- the reserved names were entered first -/
  reserved : reserved <+: known
  /-- the left sides are entered -/
  count_le : count ≤ known.length
  /-- the names on right sides are entered -/
  mentioned : ∀ rule ∈ done, ∀ right ∈ rule.rights, ∀ name ∈ right, name ∈ known

namespace Holds

variable {r : Register} (h : r.Holds count known done)
include h

theorem length_symbols : r.symbols.length = known.length := by
  rw [h.symbols, List.length_map, List.length_zipIdx]

theorem two_le_length : 2 ≤ known.length := h.reserved.length_le

theorem getElem?_symbols (i : Nat) :
    r.symbols[i]? = known[i]?.map fun name => symbolFor done known count name i := by
  rw [h.symbols, List.getElem?_map, List.getElem?_zipIdx]
  cases known[i]? <;> simp

/-- A name has one index, since the table has one for it. -/
theorem nodup : known.Nodup := by
  refine List.nodup_iff_getElem?_ne_getElem?.mpr fun i j hij hj heq => ?_
  have hname : known[j]? = some known[j] := List.getElem?_eq_getElem hj
  have hlookup := (h.table _ j).mpr hname
  rw [(h.table _ i).mpr (heq.trans hname), Option.some.injEq] at hlookup
  omega

theorem idxOf_eq (hi : known[i]? = some name) : known.idxOf name = i := by
  obtain ⟨hlt, rfl⟩ := List.getElem?_eq_some_iff.mp hi
  exact h.nodup.idxOf_getElem i hlt

/-! ## Entering names -/

/-- A known name is found. -/
theorem find_of_mem {create : Nat → String → Symbol} (hname : name ∈ known) :
    r.find create name = (known.idxOf name, r) := by
  have hlookup := (h.table name _).mpr (List.getElem?_idxOf hname)
  rw [find, hlookup]

/-- An unknown name is entered behind all others. -/
theorem find_of_notMem {create : Nat → String → Symbol} (hname : name ∉ known) :
    r.find create name = (known.length, r.enter (create known.length name)) := by
  have hlookup : r.table.lookup name = none := by
    refine Option.eq_none_iff_forall_ne_some.mpr fun i hi => hname ?_
    exact List.mem_of_getElem? ((h.table name i).mp hi)
  rw [find, hlookup, h.length_symbols]

/-- **A new name goes behind the others**, and its symbol is entered as the one that the name has there. -/
theorem enter {count' : Nat} {symbol : Symbol} (hname : symbol.name ∉ known) (hcount : count' ≤ known.length + 1)
    (hold : ∀ name i, known[i]? = some name →
      symbolFor done known count name i = symbolFor done known count' name i)
    (hlast : symbol = symbolFor done known count' symbol.name known.length) :
    (r.enter symbol).Holds count' (known ++ [symbol.name]) done where
  symbols := by
    have hprefix := List.prefix_append known [symbol.name]
    change r.symbols ++ [symbol] = _
    rw [h.symbols, List.zipIdx_append, List.map_append]
    refine congrArg₂ (· ++ ·) (List.map_congr_left fun e he => ?_) ?_
    · rw [symbolFor_stable hprefix h.mentioned]
      exact hold e.1 e.2 (List.mem_zipIdx_iff_getElem?.mp he)
    · rw [List.zipIdx_singleton, List.map_singleton, symbolFor_stable hprefix h.mentioned, Nat.zero_add, ← hlast]
  table := lookup_enter known h.table h.length_symbols hname
  reserved := h.reserved.trans (List.prefix_append _ _)
  count_le := by
    rw [List.length_append]
    exact hcount
  mentioned := by
    intro rule hrule right hright name hname
    exact List.mem_append_left _ (h.mentioned rule hrule right hright name hname)

/-- Looking up a name on a right side. A new name is a terminal. -/
theorem find_newTerminal (name : String) :
    (r.find newTerminal name).1 = (number known name).idxOf name ∧
      (r.find newTerminal name).2.Holds count (number known name) done := by
  by_cases hname : name ∈ known
  · rw [h.find_of_mem hname, number, if_pos hname]
    exact ⟨rfl, h⟩
  · have hlast : newTerminal known.length name = symbolFor done known count name known.length :=
      (symbolFor_other h.two_le_length h.count_le).symm
    rw [h.find_of_notMem hname, number, if_neg hname, List.idxOf_append_of_notMem hname]
    exact ⟨by simp, h.enter hname (Nat.le_succ_of_le h.count_le) (fun _ _ _ => rfl) hlast⟩

omit h in
/-- Looking up a left side, while nothing else is entered. A new name is a non-terminal. -/
theorem find_newNonTerminal (h : r.Holds known.length known []) (name : String) :
    (r.find newNonTerminal name).1 = (number known name).idxOf name ∧
      (r.find newNonTerminal name).2.Holds (number known name).length (number known name) [] := by
  by_cases hname : name ∈ known
  · rw [h.find_of_mem hname, number, if_pos hname]
    exact ⟨rfl, h⟩
  · have hlast : newNonTerminal known.length name =
        symbolFor [] known (known.length + 1) name known.length := by
      rw [symbolFor_left h.two_le_length (Nat.lt_succ_self _)]
      rfl
    have hold : ∀ name i, known[i]? = some name →
        symbolFor [] known known.length name i = symbolFor [] known (known.length + 1) name i := by
      intro name i hi
      have hlt := (List.getElem?_eq_some_iff.mp hi).1
      have hiff : endMarkIndex < i ∧ i < known.length ↔ endMarkIndex < i ∧ i < known.length + 1 := by omega
      simp only [symbolFor, hiff]
    rw [h.find_of_notMem hname, number, if_neg hname, List.idxOf_append_of_notMem hname, List.length_append]
    exact ⟨by simp, h.enter hname (Nat.le_refl _) hold hlast⟩

end Holds

/-- **Looking up some names in turn** gives the indices that they have in the end. -/
theorem findAll_spec (create : Nat → String → Symbol) {P : List String → Register → Prop}
    (hfind : ∀ known r name, P known r →
      (r.find create name).1 = (number known name).idxOf name ∧ P (number known name) (r.find create name).2)
    {r : Register} (h : P known r) (names : List String) :
    (r.findAll create names).1 = names.map (names.foldl number known).idxOf ∧
      P (names.foldl number known) (r.findAll create names).2 := by
  induction names generalizing known r with
  | nil => exact ⟨rfl, h⟩
  | cons name names ih =>
    obtain ⟨hindex, hP⟩ := hfind known r name h
    obtain ⟨hindices, hPs⟩ := ih hP
    have hname : name ∈ number known name := mem_number.mpr (Or.inr rfl)
    have hkept := (prefix_foldl_number (l := names)).idxOf_eq_of_mem hname
    refine ⟨?_, hPs⟩
    rw [findAll, List.map_cons, List.foldl_cons, ← hkept, ← hindex, ← hindices]

/-! ## Adding productions -/

namespace Holds

variable {r : Register}

/-- A rule without alternatives adds nothing. -/
theorem concat_nil (h : r.Holds count known done) (left : String) :
    r.Holds count known (done ++ [⟨left, []⟩]) where
  symbols := by
    rw [h.symbols]
    refine List.map_congr_left fun e _ => ?_
    simp [symbolFor, productionsFor_concat]
  table := h.table
  reserved := h.reserved
  count_le := h.count_le
  mentioned := by
    refine List.forall_mem_append.mpr ⟨h.mentioned, List.forall_mem_singleton.mpr ?_⟩
    exact List.forall_mem_nil _

/-- The productions of a left side with one more alternative. -/
theorem productionsFor_more (done : List Rule) (left : String) (rights : List (List String))
    (right known : List String) (name : String) :
    productionsFor (done ++ [⟨left, rights ++ [right]⟩]) known name =
      productionsFor (done ++ [⟨left, rights⟩]) known name ++ if left = name then [encode known right] else [] := by
  rw [productionsFor_concat, productionsFor_concat, List.append_assoc]
  split <;> simp

/-- The symbol of a left side gets one more production, the others stay. -/
theorem withProduction (h : r.Holds count known (done ++ [⟨left, rights⟩])) (hleft : left ∈ known)
    (hright : ∀ name ∈ right, name ∈ known) :
    Holds { r with symbols := r.symbols.modify (known.idxOf left) (.withProduction (encode known right)) }
      count known (done ++ [⟨left, rights ++ [right]⟩]) where
  symbols := by
    refine List.ext_getElem? fun i => ?_
    rw [List.getElem?_modify, h.getElem?_symbols, List.getElem?_map, List.getElem?_zipIdx]
    cases hi : known[i]? with
    | none => rfl
    | some name =>
      have hmore := productionsFor_more done left rights right known name
      -- only the symbol at the left side gets the production
      by_cases heq : left = name
      · subst heq
        rw [if_pos rfl] at hmore
        rw [h.idxOf_eq hi]
        simp only [symbolFor, hmore, Option.map_some, Option.map_eq_map, if_true, Nat.zero_add]
        split
        · rfl
        · split <;> rfl
      · rw [if_neg heq, List.append_nil] at hmore
        have hne : known.idxOf left ≠ i := by
          rintro rfl
          rw [List.getElem?_idxOf hleft] at hi
          exact heq (Option.some.inj hi)
        simp [symbolFor, hmore, hne]
  table := h.table
  reserved := h.reserved
  count_le := h.count_le
  mentioned := by
    obtain ⟨hdone, hrights⟩ := List.forall_mem_append.mp h.mentioned
    refine List.forall_mem_append.mpr ⟨hdone, List.forall_mem_singleton.mpr ?_⟩
    refine List.forall_mem_append.mpr ⟨?_, List.forall_mem_singleton.mpr hright⟩
    exact hrights _ List.mem_cons_self

/-- **Adding an alternative** enters its names and adds its production. -/
theorem addRight (h : r.Holds count known (done ++ [⟨left, rights⟩])) (hleft : left ∈ known)
    (right : List String) :
    (r.addRight (known.idxOf left) right).Holds count (right.foldl number known)
      (done ++ [⟨left, rights ++ [right]⟩]) := by
  obtain ⟨hindices, hfound⟩ :=
    findAll_spec newTerminal (P := fun known r => r.Holds count known (done ++ [⟨left, rights⟩]))
      (fun _ _ name h => h.find_newTerminal name) h right
  have hmem : ∀ name ∈ right, name ∈ right.foldl number known := fun name hname =>
    mem_foldl_number.mpr (Or.inr hname)
  have hleft' : left ∈ right.foldl number known := mem_foldl_number.mpr (Or.inl hleft)
  have hkept := (prefix_foldl_number (l := right)).idxOf_eq_of_mem hleft
  have hproduction : (if (r.findAll newTerminal right).1.isEmpty then [epsilonIndex]
      else (r.findAll newTerminal right).1) = encode (right.foldl number known) right := by
    rw [hindices, encode, List.isEmpty_map]
  have hdone := hfound.withProduction hleft' hmem
  rw [← hkept, ← hproduction] at hdone
  exact hdone

/-- **Adding a rule** enters the names on its right side and adds its productions. -/
theorem addRule (h : r.Holds count known done) (rule : Rule) (hleft : rule.left ∈ known) :
    (r.addRule (known.idxOf rule.left, rule)).Holds count (rule.rights.flatten.foldl number known)
      (done ++ [rule]) := by
  suffices hrights : ∀ (rights : List (List String)) (added : List (List String)) (known : List String)
      (r : Register), rule.left ∈ known → r.Holds count known (done ++ [⟨rule.left, added⟩]) →
      (rights.foldl (Register.addRight (known.idxOf rule.left)) r).Holds count (rights.flatten.foldl number known)
        (done ++ [⟨rule.left, added ++ rights⟩]) from
    hrights rule.rights [] known r hleft (h.concat_nil rule.left)
  intro rights
  induction rights with
  | nil =>
    intro added known r _ h
    rw [List.append_nil]
    exact h
  | cons right rights ih =>
    intro added known r hleft h
    have hnext := ih (added ++ [right]) _ _ (mem_foldl_number.mpr (Or.inl hleft)) (h.addRight hleft right)
    rw [← prefix_foldl_number.idxOf_eq_of_mem hleft, List.append_assoc] at hnext
    rw [List.flatten_cons, List.foldl_append]
    exact hnext

/-- **Adding rules** in turn enters the names on their right sides and adds their productions. -/
theorem foldl_addRule (h : r.Holds count known done) (rules : List Rule)
    (hleft : ∀ rule ∈ rules, rule.left ∈ known) :
    ((rules.map fun rule => (known.idxOf rule.left, rule)).foldl Register.addRule r).Holds count
      ((rules.flatMap fun rule => rule.rights.flatten).foldl number known) (done ++ rules) := by
  induction rules generalizing known done r with
  | nil =>
    rw [List.append_nil]
    exact h
  | cons rule rules ih =>
    obtain ⟨hrule, hleft⟩ := List.forall_mem_cons.mp hleft
    have hnext := ih (h.addRule rule hrule) fun other hother => mem_foldl_number.mpr (Or.inl (hleft other hother))
    have hkept : (rules.map fun other => ((rule.rights.flatten.foldl number known).idxOf other.left, other)) =
        rules.map fun other => (known.idxOf other.left, other) :=
      List.map_congr_left fun other hother => by rw [prefix_foldl_number.idxOf_eq_of_mem (hleft other hother)]
    rw [hkept, List.append_assoc] at hnext
    rw [List.flatMap_cons, List.foldl_append]
    exact hnext

end Holds

/-! ## Building -/

/-- The register without rules holds the reserved symbols. -/
theorem holds_empty : empty.Holds reserved.length reserved [] where
  symbols := by decide
  table := by
    refine lookup_enter [PredictiveGrammar.epsilon] ?_ rfl (by decide)
    refine lookup_enter [] (fun name i => ?_) rfl List.not_mem_nil
    simp
  reserved := List.prefix_refl _
  count_le := Nat.le_refl _
  mentioned := List.forall_mem_nil _

/-- **Building a register** enters all names and adds all rules. -/
theorem holds_ofRules (rules : List Rule) :
    (ofRules rules).Holds (declared rules).length (numbered rules) rules := by
  obtain ⟨hlefts, hdeclared⟩ :=
    findAll_spec newNonTerminal (P := fun known r => r.Holds known.length known [])
      (fun _ _ name h => h.find_newNonTerminal name) holds_empty (rules.map Rule.left)
  have hleft : ∀ rule ∈ rules, rule.left ∈ declared rules := fun rule hrule =>
    mem_declared.mpr (Or.inr (List.mem_map_of_mem hrule))
  have hdeclared : (empty.findAll newNonTerminal (rules.map Rule.left)).2.Holds (declared rules).length
      (declared rules) [] := hdeclared
  have hadded := hdeclared.foldl_addRule rules hleft
  rw [List.nil_append] at hadded
  have hzip : (empty.findAll newNonTerminal (rules.map Rule.left)).1.zip rules =
      rules.map fun rule => ((declared rules).idxOf rule.left, rule) := by
    rw [hlefts, List.map_map, List.map_prod_right_eq_zip]
    rfl
  rw [← hzip] at hadded
  exact ⟨hadded.symbols, hadded.table, hadded.reserved, hadded.count_le, hadded.mentioned⟩

/-- **The register of some rules holds their grammar.** -/
theorem grammar_ofRules (rules : List Rule) : (ofRules rules).grammar = Grammar.ofRules rules := by
  have hsymbols : (ofRules rules).symbols = (Grammar.ofRules rules).symbols := (holds_ofRules rules).symbols
  refine Grammar.eq_of_symbols_start hsymbols ?_
  have hstart : (ofRules rules).start = (ofRules rules).grammar.nonTerminals.head?.map NonTerminal.index := rfl
  have hnts : (ofRules rules).grammar.nonTerminals = (Grammar.ofRules rules).nonTerminals :=
    congrArg (List.filterMap Symbol.nonTerminal?) hsymbols
  rw [grammar, hstart, hnts, Grammar.nonTerminals_ofRules, Grammar.start_ofRules, builtNonTerminals]
  cases leftNames rules <;> rfl

end Register

end PredictiveGrammar
