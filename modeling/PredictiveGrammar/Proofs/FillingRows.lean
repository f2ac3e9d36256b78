import Mathlib.Data.List.Nodup
import PredictiveGrammar.Analysis.Table
import PredictiveGrammar.Proofs.SetSize

/-!
# What stands in a filled row

A row depends on the claims made to its cells, in order (`claims`). A cell holds the last claim to it, and
every claim to a cell that was claimed before is a clash with the one before it (`RowFill.foldl_claim`). So there
are no clashes exactly if no cell is claimed twice (`clashesAfter_eq_nil_iff`).
-/

namespace PredictiveGrammar

/-- The clashes of the claims made, where `earlier` holds those made before, the latest first. -/
def clashesAfter (earlier : List (Nat × Production)) : List (Nat × Production) → List Clash
  | [] => []
  | (terminal, production) :: made =>
    ((earlier.lookup terminal).map fun holder => ⟨terminal, holder, production⟩).toList ++
      clashesAfter ((terminal, production) :: earlier) made

variable {columns : List Nat} {earlier made : List (Nat × Production)} {clashes : List Clash}
  {terminal : Nat} {production : Production}

/-! ## Looking up -/

theorem lookup_map_self {β : Type} {f : Nat → β} (h : terminal ∈ columns) :
    (columns.map fun column => (column, f column)).lookup terminal = some (f terminal) := by
  induction columns with
  | nil => cases h
  | cons column columns ih =>
    rw [List.map_cons, SetFamily.lookup_cons_eq_ite]
    by_cases heq : terminal = column
    · rw [if_pos heq, heq]
    · rw [if_neg heq]
      exact ih ((List.mem_cons.mp h).resolve_left heq)

/-- A key that stands once is found with what stands beside it. -/
theorem lookup_reverse_of_nodup (hnodup : (made.map (·.1)).Nodup)
    (h : (terminal, production) ∈ made) : made.reverse.lookup terminal = some production := by
  rw [List.lookup_eq_some_iff]
  obtain ⟨before, after, rfl⟩ := List.append_of_mem h
  refine ⟨after.reverse, before.reverse, by simp, fun c hc => ?_⟩
  rw [List.map_append, List.map_cons, List.nodup_append, List.nodup_cons] at hnodup
  rw [List.mem_reverse] at hc
  rw [bne_iff_ne]
  rintro rfl
  exact hnodup.2.1.1 (List.mem_map.mpr ⟨c, hc, rfl⟩)

theorem mem_of_lookup_reverse (h : made.reverse.lookup terminal = some production) :
    (terminal, production) ∈ made := by
  obtain ⟨l, m, heq, -⟩ := List.lookup_eq_some_iff.mp h
  rw [← List.mem_reverse, heq]
  exact List.mem_append_right _ List.mem_cons_self

/-! ## Claims -/

namespace RowFill

/-- The row whose cells hold the latest of the `earlier` claims. -/
def holding (columns : List Nat) (earlier : List (Nat × Production)) (clashes : List Clash) : RowFill :=
  ⟨columns.map fun column => (column, earlier.lookup column), clashes⟩

theorem blank_eq (columns : List Nat) : blank columns = holding columns [] [] := rfl

/-- One claim to a cell. -/
theorem claim_holding (h : terminal ∈ columns) :
    claim production (holding columns earlier clashes) terminal =
      holding columns ((terminal, production) :: earlier) (clashes ++
        ((earlier.lookup terminal).map fun holder => ⟨terminal, holder, production⟩).toList) := by
  have hlookup : (holding columns earlier clashes).cells.lookup terminal = some (earlier.lookup terminal) :=
    lookup_map_self h
  rw [claim, hlookup]
  refine (RowFill.mk.injEq ..).mpr ⟨?_, ?_⟩
  · rw [holding, List.map_map]
    refine List.map_congr_left fun column _ => ?_
    rw [Function.comp_apply, SetFamily.lookup_cons_eq_ite]
  · rcases earlier.lookup terminal with - | holder
    · exact (List.append_nil clashes).symm
    · rfl

/-- **A row after its claims**: the cells hold the last claims, and the clashes are recorded in order. -/
theorem foldl_claim (h : ∀ c ∈ made, c.1 ∈ columns) :
    made.foldl (fun row c => claim c.2 row c.1) (holding columns earlier clashes) =
      holding columns (made.reverse ++ earlier) (clashes ++ clashesAfter earlier made) := by
  induction made generalizing earlier clashes with
  | nil => rw [clashesAfter, List.append_nil]; rfl
  | cons c made ih =>
    obtain ⟨terminal, production⟩ := c
    rw [List.foldl_cons, claim_holding (h _ List.mem_cons_self),
      ih fun c hc => h c (List.mem_cons_of_mem _ hc), clashesAfter, List.reverse_cons,
      List.append_assoc, List.append_assoc]
    rfl

end RowFill

/-- Without clashes, no cell is claimed twice and none that was claimed before. -/
theorem clashesAfter_eq_nil_iff :
    clashesAfter earlier made = [] ↔
      (made.map (·.1)).Nodup ∧ ∀ c ∈ made, earlier.lookup c.1 = none := by
  induction made generalizing earlier with
  | nil => simp [clashesAfter]
  | cons c made ih =>
    obtain ⟨terminal, production⟩ := c
    rw [clashesAfter, List.append_eq_nil_iff, ih, Option.toList_eq_nil_iff, Option.map_eq_none_iff,
      List.map_cons, List.nodup_cons, List.forall_mem_cons]
    have hlookup : (∀ c ∈ made, ((terminal, production) :: earlier).lookup c.1 = none) ↔
        terminal ∉ made.map (·.1) ∧ ∀ c ∈ made, earlier.lookup c.1 = none := by
      rw [List.mem_map, not_exists, ← forall_and]
      refine forall_congr' fun c => ?_
      rw [SetFamily.lookup_cons_eq_ite]
      by_cases heq : c.1 = terminal
      · simp only [heq, if_true, and_true, reduceCtorEq, imp_false]
        exact ⟨fun hnot => ⟨hnot, fun hc => absurd hc hnot⟩, And.left⟩
      · simp [heq]
    rw [hlookup]
    exact ⟨fun ⟨hfirst, hnodup, hnot, hrest⟩ => ⟨⟨hnot, hnodup⟩, hfirst, hrest⟩,
      fun ⟨⟨hnot, hnodup⟩, hfirst, hrest⟩ => ⟨hfirst, hnodup, hnot, hrest⟩⟩

/-! ## Rows of a grammar -/

variable {g : Grammar} {F : FirstSets} {W : FollowSets} {nt : NonTerminal}

/-- The claims to the cells of a row: every production claims the terminals it is to be used for. -/
def claims (F : FirstSets) (W : FollowSets) (nt : NonTerminal) : List (Nat × Production) :=
  nt.productions.flatMap fun production =>
    (predict F W nt.index production).toList.map fun terminal => (terminal, production)

/-- A production claims the cells of the terminals that it is to be used for. -/
theorem mem_claims :
    (terminal, production) ∈ claims F W nt ↔
      production ∈ nt.productions ∧ terminal ∈ predict F W nt.index production := by
  simp only [claims, List.mem_flatMap, List.mem_map, Prod.mk.injEq, SymbolSet.mem_toList]
  refine ⟨?_, ?_⟩
  · rintro ⟨_, hp, _, hterminal, rfl, rfl⟩
    exact ⟨hp, hterminal⟩
  · rintro ⟨hp, hterminal⟩
    exact ⟨production, hp, terminal, hterminal, rfl, rfl⟩

/-- **A filled row** holds the last claim to each cell. -/
theorem Grammar.fillRow_eq (h : ∀ c ∈ claims F W nt, c.1 ∈ g.columns) :
    g.fillRow F W nt = .holding g.columns (claims F W nt).reverse (clashesAfter [] (claims F W nt)) := by
  have hflat : g.fillRow F W nt =
      (claims F W nt).foldl (fun row c => row.claim c.2 c.1) (.holding g.columns [] []) := by
    rw [Grammar.fillRow, claims, List.foldl_flatMap, RowFill.blank_eq]
    simp only [List.foldl_map]
    rfl
  rw [hflat, RowFill.foldl_claim h, List.append_nil, List.nil_append]

/-- A row has no clashes if no two of its productions, by place, claim one cell. -/
theorem clashesAfter_claims_eq_nil_iff :
    clashesAfter [] (claims F W nt) = [] ↔
      nt.productions.Pairwise fun p p' => ∀ a ∈ predict F W nt.index p, a ∉ predict F W nt.index p' := by
  have hmap : (claims F W nt).map (·.1) =
      nt.productions.flatMap fun production => (predict F W nt.index production).toList := by
    rw [claims, List.map_flatMap]
    simp only [List.map_map, Function.comp_def, List.map_id']
  have hnone : ∀ c ∈ claims F W nt, ([] : List (Nat × Production)).lookup c.1 = none := fun _ _ => rfl
  rw [clashesAfter_eq_nil_iff, and_iff_left hnone, hmap, List.nodup_flatMap,
    and_iff_right fun production _ => SymbolSet.nodup_toList (predict F W nt.index production)]
  rfl

/-- Two places in the list of productions that claim one cell make a clash. -/
theorem eq_of_mem_predict (h : clashesAfter [] (claims F W nt) = []) {k k' : Nat} {p p' : Production}
    (hk : nt.productions[k]? = some p) (hk' : nt.productions[k']? = some p')
    (hp : terminal ∈ predict F W nt.index p) (hp' : terminal ∈ predict F W nt.index p') : k = k' := by
  have hdisjoint := clashesAfter_claims_eq_nil_iff.mp h
  obtain ⟨hlt, rfl⟩ := List.getElem?_eq_some_iff.mp hk
  obtain ⟨hlt', rfl⟩ := List.getElem?_eq_some_iff.mp hk'
  rw [List.pairwise_iff_getElem] at hdisjoint
  rcases Nat.lt_trichotomy k k' with hkk | hkk | hkk
  · exact absurd hp' (hdisjoint k k' hlt hlt' hkk terminal hp)
  · exact hkk
  · exact absurd hp (hdisjoint k' k hlt' hlt hkk terminal hp')

/-- Without clashes the cell of a claim holds it. -/
theorem lookup_claims (h : clashesAfter [] (claims F W nt) = []) (hp : production ∈ nt.productions)
    (hterminal : terminal ∈ predict F W nt.index production) :
    (claims F W nt).reverse.lookup terminal = some production :=
  lookup_reverse_of_nodup (clashesAfter_eq_nil_iff.mp h).1 (mem_claims.mpr ⟨hp, hterminal⟩)

end PredictiveGrammar
