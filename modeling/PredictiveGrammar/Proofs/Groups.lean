import Mathlib.Data.List.Induction
import PredictiveGrammar.Proofs.Factoring
import PredictiveGrammar.Proofs.Numbering

/-!
# Groups of alternatives

The groups of a rule, said without the way they are collected: there is one group for each symbol that an
alternative starts with, in the order in which these symbols first appear (`heads`), and it holds the alternatives
that start with the symbol, in their order (`groupByHead_eq`). So what stands in the place of a factored rule
starts with the same symbols, once each (`Factored.map_head?`).
-/

namespace PredictiveGrammar

/-- The symbols that alternatives start with, each where it first appears. -/
def heads (rights : List (List String)) : List String := (rights.filterMap List.head?).foldl number []

variable {rights : List (List String)} {right : List String} {symbol : String}

theorem nodup_heads (rights : List (List String)) : (heads rights).Nodup :=
  nodup_foldl_number List.nodup_nil

/-- The heads are the symbols that some alternative starts with. -/
theorem mem_heads : symbol ∈ heads rights ↔ ∃ right ∈ rights, right.head? = some symbol := by
  simp [heads, mem_foldl_number]

theorem heads_append_cons (rights : List (List String)) (symbol : String) (rest : List String) :
    heads (rights ++ [symbol :: rest]) = number (heads rights) symbol := by
  simp [heads]

/-! ## Collecting groups -/

/-- One more alternative goes to the end of the group of its symbol. -/
theorem addToGroup_map {keys : List String} (hkeys : keys.Nodup) {f : String → List (List String)}
    (hnew : symbol ∉ keys → f symbol = []) :
    addToGroup symbol right (keys.map fun key => (key, f key)) =
      (number keys symbol).map fun key => (key, if key = symbol then f key ++ [right] else f key) := by
  induction keys with
  | nil => simp [addToGroup, number, hnew]
  | cons key keys ih =>
    obtain ⟨hkey, hkeys⟩ := List.nodup_cons.mp hkeys
    rw [List.map_cons, addToGroup]
    by_cases heq : key = symbol
    · subst heq
      have hrest : ∀ other ∈ keys, other ≠ key := fun other hother h => hkey (h ▸ hother)
      have hsame : keys.map (fun other => (other, f other)) =
          keys.map fun other => (other, if other = key then f other ++ [right] else f other) :=
        List.map_congr_left fun other hother => by rw [if_neg (hrest other hother)]
      simp [number, hsame]
    · have hiff : symbol ∈ key :: keys ↔ symbol ∈ keys := by simp [Ne.symm heq]
      have hnumber : number (key :: keys) symbol = key :: number keys symbol := by
        simp only [number, hiff]
        split <;> rfl
      rw [if_neg heq, ih hkeys fun h => hnew (mt hiff.mp h), hnumber, List.map_cons, if_neg heq]

/-- **The groups of a rule**: for each symbol in the order of first appearance, the alternatives that start
with it. -/
theorem groupByHead_eq (rights : List (List String)) :
    groupByHead rights =
      (heads rights).map fun symbol => (symbol, rights.filter (·.head? = some symbol)) := by
  induction rights using List.reverseRecOn with
  | nil => rfl
  | append_singleton rights right ih =>
    rw [groupByHead, List.foldl_append, ← groupByHead, ih]
    cases right with
    | nil => simp [heads, List.filterMap_cons]
    | cons symbol rest =>
      have hnew : symbol ∉ heads rights → rights.filter (·.head? = some symbol) = [] := by
        intro h
        rw [List.filter_eq_nil_iff]
        intro right hright heq
        exact h (mem_heads.mpr ⟨right, hright, of_decide_eq_true heq⟩)
      rw [List.foldl_cons, List.foldl_nil, heads_append_cons]
      refine (addToGroup_map (nodup_heads rights) hnew).trans (List.map_congr_left fun key _ => ?_)
      by_cases heq : key = symbol
      · simp [heq]
      · simp [heq, Ne.symm heq]

/-- The groups of a rule hold the alternatives that start with one symbol each. -/
theorem groups_eq (rights : List (List String)) :
    (groupByHead rights).map (·.2) = (heads rights).map fun symbol => rights.filter (·.head? = some symbol) := by
  rw [groupByHead_eq, List.map_map]
  rfl

/-- Alternatives that start with different symbols are groups of one. -/
theorem groups_of_nodup (hne : ∀ right ∈ rights, right ≠ []) (h : (rights.map List.head?).Nodup) :
    (groupByHead rights).map (·.2) = rights.map fun right => [right] := by
  have hfirst : ∀ right ∈ rights, ∃ symbol, right.head? = some symbol := by
    intro right hright
    obtain ⟨symbol, rest, rfl⟩ := List.exists_cons_of_ne_nil (hne right hright)
    exact ⟨symbol, rfl⟩
  have hsome : (rights.filterMap List.head?).map some = rights.map List.head? := by
    rw [List.map_filterMap]
    refine (List.filterMap_congr fun right hright => ?_).trans (congrFun List.filterMap_eq_map' rights)
    obtain ⟨symbol, hsymbol⟩ := hfirst right hright
    rw [hsymbol]
    rfl
  have hnodup : (rights.filterMap List.head?).Nodup := List.Nodup.of_map some (hsome ▸ h)
  have hheads : heads rights = rights.filterMap List.head? := foldl_number_eq_append hnodup (by simp)
  rw [groups_eq, hheads, List.map_filterMap]
  refine (List.filterMap_congr fun right hright => ?_).trans (congrFun List.filterMap_eq_map' rights)
  obtain ⟨symbol, hsymbol⟩ := hfirst right hright
  rw [hsymbol, Option.map_some, ← hsymbol, filter_eq_singleton h hright]

/-! ## What the groups give way to -/

/-- Two alternatives with one first symbol have it in common. -/
theorem head?_commonStart {start : List String} (hstart : start.head? = some symbol)
    (hright : right.head? = some symbol) : (commonStart start right).head? = some symbol := by
  obtain ⟨rest, rfl⟩ := List.head?_eq_some_iff.mp hstart
  obtain ⟨rest', rfl⟩ := List.head?_eq_some_iff.mp hright
  simp [commonStart]

/-- Alternatives that start with one symbol share it. -/
theorem head?_sharedStart {group : List (List String)} (hne : group ≠ [])
    (h : ∀ right ∈ group, right.head? = some symbol) : (sharedStart group).head? = some symbol := by
  obtain ⟨first, group, rfl⟩ := List.exists_cons_of_ne_nil hne
  obtain ⟨hfirst, hgroup⟩ := List.forall_mem_cons.mp h
  exact List.foldlRecOn (motive := fun start => start.head? = some symbol) group commonStart hfirst
    fun start hstart right hright => head?_commonStart hstart (hgroup right hright)

/-- The alternatives that start with a symbol share it. -/
theorem head?_sharedStart_filter (h : symbol ∈ heads rights) :
    (sharedStart (rights.filter (·.head? = some symbol))).head? = some symbol := by
  obtain ⟨right, hright, hhead⟩ := mem_heads.mp h
  refine head?_sharedStart (List.ne_nil_of_mem (List.mem_filter.mpr ⟨hright, ?_⟩)) fun right hright => ?_
  · exact decide_eq_true hhead
  · exact of_decide_eq_true (List.mem_filter.mp hright).2

/-- The members of a group share a symbol. -/
theorem sharedStart_ne_nil {group : List (List String)} (h : group ∈ (groupByHead rights).map (·.2)) :
    sharedStart group ≠ [] := by
  rw [groups_eq] at h
  obtain ⟨symbol, hsymbol, rfl⟩ := List.mem_map.mp h
  exact List.ne_nil_of_mem (List.mem_of_head? (head?_sharedStart_filter hsymbol))

/-- Every group has an alternative, the one that opened it. -/
theorem ne_nil_of_mem_groups {group : List (List String)} (h : group ∈ (groupByHead rights).map (·.2)) :
    group ≠ [] := by
  rintro rfl
  exact sharedStart_ne_nil h rfl

/-- A group gives way to an alternative that starts as its members do. -/
theorem FactoredGroups.map_head? {groups : List (List (List String))} {fresh : List Rule}
    (h : FactoredGroups groups rights fresh) (hgroups : ∀ group ∈ groups, sharedStart group ≠ []) :
    rights.map List.head? = groups.map fun group => (sharedStart group).head? := by
  induction h with
  | nil => rfl
  | keep right _ ih =>
    rw [List.map_cons, List.map_cons, ih (List.forall_mem_cons.mp hgroups).2]
    rfl
  | @factor name group _ _ _ _ _ ih =>
    obtain ⟨hgroup, hgroups⟩ := List.forall_mem_cons.mp hgroups
    rw [List.map_cons, List.map_cons, ih hgroups, List.head?_append_of_ne_nil _ hgroup]

/-- **A factored rule starts with each symbol once**, in the order in which the symbols appeared. -/
theorem Factored.map_head? {rule entry : Rule} {fresh : List Rule} (h : Factored rule entry fresh) :
    entry.rights.map List.head? = (heads rule.rights).map some := by
  rw [FactoredGroups.map_head? h fun group => sharedStart_ne_nil, groups_eq, List.map_map]
  exact List.map_congr_left fun symbol => head?_sharedStart_filter

theorem Factored.nodup_heads {rule entry : Rule} {fresh : List Rule} (h : Factored rule entry fresh) :
    (entry.rights.map List.head?).Nodup := by
  rw [h.map_head?]
  exact (PredictiveGrammar.nodup_heads rule.rights).map fun _ _ => Option.some.inj

/-! ## Nothing to factor -/

/-- Groups of one alternative each stay as they are. -/
theorem factorGroups_singletons (left : String) (used : List String) (ordinal : Nat)
    (rights : List (List String)) :
    factorGroups left used ordinal (rights.map fun right => [right]) = (rights, []) := by
  induction rights with
  | nil => rfl
  | cons right rights ih => rw [List.map_cons, factorGroups, ih]

/-- **Rules whose alternatives start with different symbols are left as they are.** -/
theorem factorRules_eq_self {used : List String} {rules : List Rule}
    (hne : ∀ rule ∈ rules, ∀ right ∈ rule.rights, right ≠ [])
    (h : ∀ rule ∈ rules, (rule.rights.map List.head?).Nodup) : factorRules used rules = rules := by
  induction rules generalizing used with
  | nil => rfl
  | cons rule rules ih =>
    obtain ⟨hneRule, hne⟩ := List.forall_mem_cons.mp hne
    obtain ⟨hrule, h⟩ := List.forall_mem_cons.mp h
    rw [factorRules, groups_of_nodup hneRule hrule, factorGroups_singletons]
    exact congrArg (rule :: ·) (ih hne h)

end PredictiveGrammar
