import PredictiveGrammar.Analysis.First
import PredictiveGrammar.Proofs.SetSize

/-!
# FIRST of sequences

How FIRST of a sequence depends on the sets of its symbols: it holds what the first symbol can begin with
and, if that symbol derives the empty word, FIRST of the rest (`FirstSets.mem_ofSequence_cons`). So it splits
along concatenations (`FirstSets.mem_ofSequence_append`) and grows with the sets
(`FirstSets.Below.ofSequence_subset`).
-/

namespace PredictiveGrammar

namespace FirstSets

variable {F F' : FirstSets} {a i : Nat} {s t : List Nat}

/-- FIRST of the symbol at an index, empty if there are no sets for it. -/
def getD (F : FirstSets) (i : Nat) : SymbolSet := (F.get? i).getD ∅

/-- Within range there is a set. -/
theorem get?_eq_some (h : i < F.sets.length) : F.get? i = some (F.getD i) := by
  rw [getD, get?, List.getElem?_eq_getElem h]
  rfl

/-- A symbol is nullable if `ε` is in its set. -/
theorem nullable_iff : F.nullable i ↔ epsilonIndex ∈ F.getD i := by
  rw [nullable, getD]
  rcases F.get? i with - | set
  · simp
  · simp

/-- What a symbol starts with is its set without `ε`. -/
theorem mem_heads (h : i < F.sets.length) : a ∈ F.heads i ↔ a ∈ F.getD i ∧ a ≠ epsilonIndex := by
  rw [heads, get?_eq_some h]
  exact SymbolSet.mem_erase

/-! ## Along a sequence -/

@[simp] theorem mem_ofSequence_nil : a ∈ F.ofSequence [] ↔ a = epsilonIndex := SymbolSet.mem_singleton

/-- **FIRST of a form** has what the first symbol starts with, and what the rest has if the first symbol can vanish. -/
theorem mem_ofSequence_cons :
    a ∈ F.ofSequence (i :: t) ↔ a ∈ F.heads i ∨ epsilonIndex ∈ F.getD i ∧ a ∈ F.ofSequence t := by
  rw [ofSequence]
  by_cases hnull : F.nullable i
  · rw [if_pos hnull, SymbolSet.mem_union, and_iff_right (nullable_iff.mp hnull)]
  · rw [if_neg hnull]
    simp [mt nullable_iff.mpr hnull]

/-- FIRST of one symbol is its set, with or without `ε`. -/
theorem mem_ofSequence_singleton (h : i < F.sets.length) : a ∈ F.ofSequence [i] ↔ a ∈ F.getD i := by
  rw [mem_ofSequence_cons, mem_heads h, mem_ofSequence_nil]
  by_cases ha : a = epsilonIndex
  · simp [ha]
  · simp [ha]

/-- **FIRST of a concatenation**: FIRST of the first part and, if that can vanish, of the second. -/
theorem mem_ofSequence_append (hs : ∀ i ∈ s, i < F.sets.length) :
    a ∈ F.ofSequence (s ++ t) ↔
      a ∈ F.ofSequence s ∧ a ≠ epsilonIndex ∨ epsilonIndex ∈ F.ofSequence s ∧ a ∈ F.ofSequence t := by
  induction s with
  | nil => simp
  | cons i s ih =>
    have hi := hs i List.mem_cons_self
    rw [List.cons_append, mem_ofSequence_cons, mem_ofSequence_cons, mem_ofSequence_cons,
      ih fun j hj => hs j (List.mem_cons_of_mem i hj), mem_heads hi, mem_heads hi]
    by_cases hnull : epsilonIndex ∈ F.getD i
    · by_cases ha : a = epsilonIndex
      · simp [hnull, ha]
      · simp [hnull, ha, or_assoc]
    · simp [hnull]

/-- A sequence vanishes if all its symbols do. -/
theorem epsilon_mem_ofSequence (hs : ∀ i ∈ s, i < F.sets.length) :
    epsilonIndex ∈ F.ofSequence s ↔ ∀ i ∈ s, epsilonIndex ∈ F.getD i := by
  induction s with
  | nil => simp
  | cons i s ih =>
    have hi := hs i List.mem_cons_self
    rw [mem_ofSequence_cons, mem_heads hi, ih fun j hj => hs j (List.mem_cons_of_mem i hj)]
    simp

/-- A member of FIRST of a sequence comes from one of its symbols. -/
theorem exists_of_mem_ofSequence (hs : ∀ i ∈ s, i < F.sets.length) (h : a ∈ F.ofSequence s)
    (ha : a ≠ epsilonIndex) : ∃ i ∈ s, a ∈ F.getD i := by
  induction s with
  | nil => exact absurd (mem_ofSequence_nil.mp h) ha
  | cons i s ih =>
    rcases mem_ofSequence_cons.mp h with h | ⟨-, h⟩
    · exact ⟨i, List.mem_cons_self, ((mem_heads (hs i List.mem_cons_self)).mp h).1⟩
    · obtain ⟨j, hj, hmem⟩ := ih (fun j hj => hs j (List.mem_cons_of_mem i hj)) h
      exact ⟨j, List.mem_cons_of_mem i hj, hmem⟩

/-- FIRST of alternatives has what FIRST of one of them has. -/
theorem mem_ofProductions {productions : List Production} :
    a ∈ F.ofProductions productions ↔ ∃ production ∈ productions, a ∈ F.ofSequence production := by
  rw [ofProductions, SymbolSet.mem_foldl_union]
  simp

/-! ## Growing sets -/

/-- Each set is included in the one for the same symbol. -/
structure Below (F F' : FirstSets) : Prop where
  /-- the sets are for the same indices -/
  length : F.sets.length = F'.sets.length
  /-- each set is included -/
  subset : ∀ i, F.getD i ⊆ F'.getD i

theorem Below.refl (F : FirstSets) : F.Below F := ⟨rfl, fun i => SymbolSet.Subset.refl (F.getD i)⟩

theorem Below.trans {F'' : FirstSets} (h : F.Below F') (h' : F'.Below F'') : F.Below F'' :=
  ⟨h.length.trans h'.length, fun i =>
    SymbolSet.Subset.trans (h.subset i) (h'.subset i)⟩

/-- In larger sets a symbol starts with more. -/
theorem Below.heads_subset (h : F.Below F') (i : Nat) : F.heads i ⊆ F'.heads i := by
  intro a ha
  by_cases hi : i < F.sets.length
  · rw [mem_heads hi] at ha
    rw [mem_heads (h.length ▸ hi)]
    exact ⟨h.subset i a ha.1, ha.2⟩
  · have hnone : F.get? i = none := List.getElem?_eq_none (Nat.le_of_not_lt hi)
    have hnone' : F'.get? i = none := List.getElem?_eq_none (h.length ▸ Nat.le_of_not_lt hi)
    rw [heads, hnone] at ha
    rw [heads, hnone']
    exact ha

/-- FIRST of a sequence grows with the sets. -/
theorem Below.ofSequence_subset (h : F.Below F') (s : List Nat) : F.ofSequence s ⊆ F'.ofSequence s := by
  induction s with
  | nil => exact SymbolSet.Subset.refl _
  | cons i s ih =>
    intro a ha
    rcases mem_ofSequence_cons.mp ha with ha | ⟨hnull, ha⟩
    · exact mem_ofSequence_cons.mpr (Or.inl (h.heads_subset i a ha))
    · exact mem_ofSequence_cons.mpr (Or.inr ⟨h.subset i _ hnull, ih a ha⟩)

/-- In larger sets productions have more in FIRST. -/
theorem Below.ofProductions_subset (h : F.Below F') (productions : List Production) :
    F.ofProductions productions ⊆ F'.ofProductions productions := by
  intro a ha
  obtain ⟨production, hp, ha⟩ := mem_ofProductions.mp ha
  exact mem_ofProductions.mpr ⟨production, hp, h.ofSequence_subset production a ha⟩

end FirstSets

end PredictiveGrammar
