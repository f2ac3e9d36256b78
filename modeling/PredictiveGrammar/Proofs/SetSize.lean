import Mathlib.Data.List.Perm.Subperm
import PredictiveGrammar.Sets.SetFamily

/-!
# Inclusion and size of symbol sets

Both fixpoint computations compare sets by size only. What makes that enough is that the sets they
compare include each other: a set that includes another of at least its own size is the same set
(`SymbolSet.eq_of_subset_of_size_le`). The size of a set is bounded by any list that holds its members
(`SymbolSet.size_le_length`), which is what ends both computations.
-/

namespace PredictiveGrammar

namespace SymbolSet

variable {s t u : SymbolSet}

/-! ## Inclusion -/

theorem Subset.refl (s : SymbolSet) : s ⊆ s := fun _ ha => ha

theorem Subset.trans (hst : s ⊆ t) (htu : t ⊆ u) : s ⊆ u := fun a ha => htu a (hst a ha)

/-- A union over a list, accumulated from the left. -/
theorem mem_foldl_union {α : Type} {f : α → SymbolSet} {l : List α} {a : Nat} :
    a ∈ l.foldl (fun set x => set ∪ f x) s ↔ a ∈ s ∨ ∃ x ∈ l, a ∈ f x := by
  induction l generalizing s with
  | nil => simp
  | cons y l ih => simp only [List.foldl_cons, ih, mem_union, List.exists_mem_cons_iff, or_assoc]

/-! ## Size -/

theorem nodup_toList (s : SymbolSet) : s.toList.Nodup := s.ascending.imp Nat.ne_of_lt

/-- A list that holds all members of a set is at least as long as the set is large. -/
theorem size_le_length {l : List Nat} (h : ∀ a ∈ s, a ∈ l) : s.size ≤ l.length :=
  (List.subperm_of_subset s.nodup_toList h).length_le

/-- A larger set has at least as many members. -/
theorem size_le_of_subset (h : s ⊆ t) : s.size ≤ t.size := size_le_length h

/-- **Sizes suffice**: a set included in another that is not larger is that other set. -/
theorem eq_of_subset_of_size_le (h : s ⊆ t) (hsize : t.size ≤ s.size) : s = t := by
  have hperm : s.toList.Perm t.toList :=
    (List.subperm_of_subset s.nodup_toList h).perm_of_length_le hsize
  ext a
  exact hperm.mem_iff

/-- A larger set has a member that the other does not have. -/
theorem exists_mem_of_size_lt (h : s.size < t.size) : ∃ a ∈ t, a ∉ s := by
  by_contra hnone
  push Not at hnone
  exact Nat.not_le.mpr h (size_le_of_subset hnone)

/-- A larger set of another size has more members. -/
theorem size_lt_of_subset (h : s ⊆ t) (hne : s.size ≠ t.size) : s.size < t.size :=
  Nat.lt_of_le_of_ne (size_le_of_subset h) hne

end SymbolSet

namespace SetFamily

variable {F : SetFamily}

/-- Adding under a key changes the set of this key only. -/
theorem mem_getD_add {i k a : Nat} {s : SymbolSet} :
    a ∈ (F.add k s).getD i ↔ a ∈ F.getD i ∨ i = k ∧ a ∈ s := by
  rw [getD_add]
  by_cases hik : i = k
  · simp [hik]
  · simp [hik]

theorem getD_subset_add (i k : Nat) (s : SymbolSet) : F.getD i ⊆ (F.add k s).getD i :=
  fun _ ha => mem_getD_add.mpr (Or.inl ha)

/-! ## Adding for each element of a list -/

section foldl

variable {α : Type} {key : α → Nat} {set : α → SymbolSet} {l : List α} {k a : Nat}

/-- Many additions, one after the other, collect what is added under a key. -/
theorem mem_getD_foldl_add :
    a ∈ (l.foldl (fun F x => F.add (key x) (set x)) F).getD k ↔
      a ∈ F.getD k ∨ ∃ x ∈ l, key x = k ∧ a ∈ set x := by
  induction l generalizing F with
  | nil => simp
  | cons y l ih =>
    rw [List.foldl_cons, ih, mem_getD_add, List.exists_mem_cons_iff, or_assoc, eq_comm]

/-- They enter every key that something is added under, even if it is the empty set. -/
theorem mem_keys_foldl_add :
    k ∈ (l.foldl (fun F x => F.add (key x) (set x)) F).keys ↔ k ∈ F.keys ∨ ∃ x ∈ l, key x = k := by
  induction l generalizing F with
  | nil => simp
  | cons y l ih =>
    rw [List.foldl_cons, ih, mem_keys_add, List.exists_mem_cons_iff, or_assoc, or_left_comm, eq_comm]

end foldl

@[simp] theorem not_mem_getD_empty (a k : Nat) : a ∉ (∅ : SetFamily).getD k :=
  SymbolSet.not_mem_empty a

/-- A key that is not there has no members. -/
theorem getD_eq_empty {k : Nat} (h : k ∉ F.keys) : F.getD k = ∅ := by
  rw [mem_keys_iff, Option.isSome_iff_ne_none, ne_eq, not_not] at h
  rw [getD, h, Option.getD_none]

theorem get?_eq_some_getD {k : Nat} (h : k ∈ F.keys) : F.get? k = some (F.getD k) := by
  obtain ⟨s, hs⟩ := Option.isSome_iff_exists.mp (mem_keys_iff.mp h)
  rw [getD, hs, Option.getD_some]

/-- No key has two entries, since keys ascend. -/
theorem nodup_keys (F : SetFamily) : F.keys.Nodup :=
  List.Pairwise.map _ (fun _ _ h => Nat.ne_of_lt h) F.ascending

/-- The union holds the members of every set. -/
theorem getD_subset_union (F : SetFamily) (k : Nat) : F.getD k ⊆ F.union := by
  intro a ha
  by_cases hk : k ∈ F.keys
  · have hlookup : F.entries.lookup k = some (F.getD k) := get?_eq_some_getD hk
    obtain ⟨l₁, l₂, hl, -⟩ := List.lookup_eq_some_iff.mp hlookup
    refine SymbolSet.mem_foldl_union.mpr (Or.inr ⟨(k, F.getD k), ?_, ha⟩)
    rw [hl]
    exact List.mem_append_right _ List.mem_cons_self
  · rw [getD_eq_empty hk] at ha
    exact absurd ha (SymbolSet.not_mem_empty a)

end SetFamily

end PredictiveGrammar
