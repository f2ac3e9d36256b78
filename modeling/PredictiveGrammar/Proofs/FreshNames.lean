import Mathlib.Data.List.Nodup
import Mathlib.Data.List.Perm.Subperm
import PredictiveGrammar.Grammar.FreshName

/-!
# Fresh names are fresh

The candidates for a fresh name are the wanted name with no, one, two, … apostrophes (`withMarks`). They have
different lengths, so a list of used names cannot hold more of them than it has members, and the search
ends at the first one that is not used (`exists_freshName_eq`).
-/

namespace PredictiveGrammar

/-- A name with a number of apostrophes behind it. -/
def withMarks (name : String) : Nat → String
  | 0 => name
  | count + 1 => withMarks (name ++ "'") count

theorem length_withMarks (name : String) (count : Nat) :
    (withMarks name count).length = name.length + count := by
  induction count generalizing name with
  | zero => rfl
  | succ count ih =>
    have hmark : "'".length = 1 := rfl
    rw [withMarks, ih, String.length_append, hmark]
    omega

/-- Different numbers of apostrophes make different names. -/
theorem withMarks_injective {name : String} {i j : Nat} (h : withMarks name i = withMarks name j) :
    i = j := by
  have hlength := congrArg String.length h
  rw [length_withMarks, length_withMarks] at hlength
  omega

/-- A list that holds the first candidates has more members than the number of the last of them. -/
theorem lt_length_of_withMarks_mem {used : List String} {name : String} {count : Nat}
    (h : ∀ i ≤ count, withMarks name i ∈ used) : count < used.length := by
  have hnodup : ((List.range (count + 1)).map (withMarks name)).Nodup :=
    List.Nodup.map (fun _ _ heq => withMarks_injective heq) List.nodup_range
  have hsubset : (List.range (count + 1)).map (withMarks name) ⊆ used := by
    intro candidate hc
    obtain ⟨i, hi, rfl⟩ := List.mem_map.mp hc
    exact h i (Nat.le_of_lt_succ (List.mem_range.mp hi))
  have hle := (List.subperm_of_subset hnodup hsubset).length_le
  rw [List.length_map, List.length_range] at hle
  omega

/-- The search stops at the first candidate that is not used, or after all its steps. -/
theorem exists_addMarks_eq (used : List String) (steps : Nat) (name : String) :
    ∃ count ≤ steps, addMarks used steps name = withMarks name count ∧
      (∀ i < count, withMarks name i ∈ used) ∧
      (count = steps ∨ withMarks name count ∉ used) := by
  induction steps generalizing name with
  | zero => exact ⟨0, Nat.le_refl 0, rfl, fun i hi => absurd hi (Nat.not_lt_zero i), Or.inl rfl⟩
  | succ steps ih =>
    by_cases hused : name ∈ used
    · obtain ⟨count, hle, heq, hbelow, hend⟩ := ih (name ++ "'")
      refine ⟨count + 1, Nat.succ_le_succ hle, ?_, ?_, hend.imp_left (congrArg Nat.succ)⟩
      · rw [addMarks, if_pos hused, heq]
        rfl
      · intro i hi
        cases i with
        | zero => exact hused
        | succ i => exact hbelow i (Nat.lt_of_succ_lt_succ hi)
    · refine ⟨0, Nat.zero_le _, ?_, fun i hi => absurd hi (Nat.not_lt_zero i), Or.inr hused⟩
      rw [addMarks, if_neg hused]
      rfl

/-- **The first unused candidate is taken**, so a fresh name has as few apostrophes as possible. -/
theorem exists_freshName_eq (used : List String) (name : String) :
    ∃ count, freshName used name = withMarks name count ∧ withMarks name count ∉ used ∧
      ∀ i < count, withMarks name i ∈ used := by
  obtain ⟨count, -, heq, hbelow, hend⟩ := exists_addMarks_eq used used.length name
  refine ⟨count, heq, ?_, hbelow⟩
  rcases hend with hend | hend
  -- all steps were used up, so one more used candidate would be too many
  · intro hmem
    have hall : ∀ i ≤ count, withMarks name i ∈ used := by
      intro i hi
      rcases Nat.lt_or_eq_of_le hi with hi | rfl
      · exact hbelow i hi
      · exact hmem
    have hlt := lt_length_of_withMarks_mem hall
    omega
  · exact hend

/-- **Fresh names are not in use**, because one of the candidates is not and the search goes through all of them. -/
theorem freshName_notMem (used : List String) (name : String) : freshName used name ∉ used := by
  obtain ⟨count, heq, hnot, -⟩ := exists_freshName_eq used name
  exact heq ▸ hnot

end PredictiveGrammar
