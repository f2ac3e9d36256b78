import Mathlib.Data.List.Nodup
import PredictiveGrammar.Grammar.Rules

/-!
# The order of names

Building a grammar numbers names in three blocks: the reserved names, the left sides (`leftNames`), and what
else occurs on right sides (`otherNames`). Each block lists its names where they first appear, and no name
stands twice (`nodup_numbered`).
-/

namespace PredictiveGrammar

variable {known l : List String} {name x : String} {rules : List Rule}

/-! ## One block -/

/-- Numbering a name makes it known and forgets none. -/
theorem mem_number : x ∈ number known name ↔ x ∈ known ∨ x = name := by
  rw [number]
  split
  · next h =>
    refine ⟨?_, ?_⟩
    · exact Or.inl
    · rintro (hx | rfl)
      · exact hx
      · exact h
  · simp

theorem mem_foldl_number : x ∈ l.foldl number known ↔ x ∈ known ∨ x ∈ l := by
  induction l generalizing known with
  | nil => simp
  | cons y l ih => rw [List.foldl_cons, ih, mem_number, List.mem_cons, or_assoc]

/-- No name is numbered twice. -/
theorem nodup_number (h : known.Nodup) : (number known name).Nodup := by
  rw [number]
  split
  · exact h
  · next hname => exact h.append (List.nodup_singleton name) (by simpa using hname)

theorem nodup_foldl_number (h : known.Nodup) : (l.foldl number known).Nodup := by
  induction l generalizing known with
  | nil => exact h
  | cons y l ih => exact ih (nodup_number h)

/-- Numbering more names keeps the numbers of the known ones. -/
theorem prefix_foldl_number : known <+: l.foldl number known := by
  induction l generalizing known with
  | nil => exact List.prefix_refl known
  | cons y l ih =>
    refine List.IsPrefix.trans ?_ ih
    rw [number]
    split
    · exact List.prefix_refl known
    · exact List.prefix_append known [y]

/-- Names that are all new go behind the known ones as they are. -/
theorem foldl_number_eq_append (hl : l.Nodup) (h : ∀ y ∈ l, y ∉ known) :
    l.foldl number known = known ++ l := by
  induction l generalizing known with
  | nil => simp
  | cons y l ih =>
    obtain ⟨hy, hl'⟩ := List.nodup_cons.mp hl
    have hnew : number known y = known ++ [y] := if_neg (h y List.mem_cons_self)
    rw [List.foldl_cons, hnew, ih hl']
    · simp
    · intro z hz hmem
      rcases List.mem_append.mp hmem with hk | hk
      · exact h z (List.mem_cons_of_mem y hz) hk
      · rw [List.mem_singleton] at hk
        exact hy (hk ▸ hz)

/-- **Numbering keeps first occurrences** of names that are not known yet. -/
theorem foldl_number_eq (known l : List String) :
    l.foldl number known = known ++ (l.filter (· ∉ known)).eraseDups := by
  induction l generalizing known with
  | nil => simp
  | cons y l ih =>
    rw [List.foldl_cons, ih, number]
    split
    · next hy => rw [List.filter_cons_of_neg (by simpa using hy)]
    · next hy =>
      have hlater : l.filter (· ∉ known ++ [y]) = (l.filter (· ∉ known)).filter fun z => !z == y := by
        rw [List.filter_filter]
        refine List.filter_congr fun z _ => ?_
        rw [Bool.eq_iff_iff]
        simp [and_comm]
      rw [List.filter_cons_of_pos (by simpa using hy), List.eraseDups_cons, hlater, List.append_assoc,
        List.singleton_append]

/-! ## The three blocks -/

/-- The left sides that are not reserved, each where it first appears. -/
def leftNames (rules : List Rule) : List String := (declared rules).drop reserved.length

/-- The names on right sides that are neither reserved nor left sides, each where it first appears. -/
def otherNames (rules : List Rule) : List String := (numbered rules).drop (declared rules).length

/-- First come the reserved names, and then the left sides. -/
theorem declared_eq (rules : List Rule) : declared rules = reserved ++ leftNames rules := by
  have hprefix : reserved <+: declared rules := prefix_foldl_number
  obtain ⟨l, hl⟩ := hprefix
  rw [leftNames, ← hl, List.drop_left]

/-- Behind them come the names that stand on right sides only. -/
theorem numbered_eq (rules : List Rule) :
    numbered rules = reserved ++ leftNames rules ++ otherNames rules := by
  have hprefix : declared rules <+: numbered rules := prefix_foldl_number
  obtain ⟨l, hl⟩ := hprefix
  rw [← declared_eq, otherNames, ← hl, List.drop_left]

theorem nodup_declared (rules : List Rule) : (declared rules).Nodup := nodup_foldl_number (by decide)

/-- Every name has one number. -/
theorem nodup_numbered (rules : List Rule) : (numbered rules).Nodup :=
  nodup_foldl_number (nodup_declared rules)

theorem nodup_leftNames (rules : List Rule) : (leftNames rules).Nodup :=
  (nodup_declared rules).sublist (List.drop_sublist _ _)

/-- Declared names are the reserved ones and the left sides. -/
theorem mem_declared : x ∈ declared rules ↔ x ∈ reserved ∨ x ∈ rules.map Rule.left :=
  mem_foldl_number

/-- Numbered names are those and all on right sides. -/
theorem mem_numbered :
    x ∈ numbered rules ↔
      x ∈ declared rules ∨ ∃ rule ∈ rules, ∃ right ∈ rule.rights, x ∈ right := by
  rw [numbered, mem_foldl_number]
  simp only [List.mem_flatMap, List.mem_flatten]

/-- A reserved name is not a left side of its own. -/
theorem mem_leftNames : x ∈ leftNames rules ↔ x ∉ reserved ∧ x ∈ rules.map Rule.left := by
  have hnodup := nodup_declared rules
  have hmem : x ∈ declared rules ↔ x ∈ reserved ∨ x ∈ rules.map Rule.left := mem_declared
  rw [declared_eq] at hnodup hmem
  have hdisjoint := List.disjoint_of_nodup_append hnodup
  rw [List.mem_append] at hmem
  refine ⟨?_, ?_⟩
  · intro hx
    have hr : x ∉ reserved := fun hr => hdisjoint hr hx
    exact ⟨hr, (hmem.mp (Or.inr hx)).resolve_left hr⟩
  · rintro ⟨hr, hx⟩
    exact (hmem.mpr (Or.inr hx)).resolve_left hr

/-- Distinct left sides, none of them reserved, are numbered in the order of the rules. -/
theorem leftNames_eq (hnodup : (rules.map Rule.left).Nodup)
    (hreserved : ∀ rule ∈ rules, rule.left ∉ reserved) : leftNames rules = rules.map Rule.left := by
  have hnew : ∀ y ∈ rules.map Rule.left, y ∉ reserved := by
    intro y hy
    obtain ⟨rule, hrule, rfl⟩ := List.mem_map.mp hy
    exact hreserved rule hrule
  rw [leftNames, declared, foldl_number_eq_append hnodup hnew, List.drop_left]

end PredictiveGrammar
