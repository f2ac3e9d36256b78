import PredictiveGrammar.Sets.SymbolSet

/-!
# Families of symbol sets

A `SetFamily` gives symbol sets to finitely many symbol indices. FOLLOW is such a family, keyed by the
non-terminals, and so are the edges along which FOLLOW sets flow. The entries stand in ascending order
of their keys, so a family is determined by what it answers (`SetFamily.ext`).
-/

namespace PredictiveGrammar

/-- Symbol sets keyed by symbol indices. -/
structure SetFamily where
  /-- each key with its set, smallest key first -/
  entries : List (Nat × SymbolSet)
  /-- every key has one entry, in its place -/
  ascending : entries.Pairwise (·.1 < ·.1)
deriving DecidableEq

namespace SetFamily

/-! ## Adding to one entry of an ascending list -/

/-- Adds `s` to the set under `k`, with a new entry in its place if there is none. -/
def merge (k : Nat) (s : SymbolSet) : List (Nat × SymbolSet) → List (Nat × SymbolSet)
  | [] => [(k, s)]
  | (j, t) :: l =>
    if k < j then (k, s) :: (j, t) :: l
    else if k = j then (j, t ∪ s) :: l
    else (j, t) :: merge k s l

/-- The keys after merging are the old ones and the one merged into. -/
theorem mem_keys_merge {i k : Nat} {s : SymbolSet} {l : List (Nat × SymbolSet)} :
    i ∈ (merge k s l).map (·.1) ↔ i = k ∨ i ∈ l.map (·.1) := by
  induction l with
  | nil => simp [merge]
  | cons e l ih =>
    obtain ⟨j, t⟩ := e
    by_cases hlt : k < j
    · simp [merge, hlt]
    · by_cases heq : k = j
      · simp [merge, heq]
      · simp only [merge, hlt, heq, if_false, List.map_cons, List.mem_cons, ih]
        exact or_left_comm

/-- Merging keeps the keys ascending. -/
theorem pairwise_merge {k : Nat} {s : SymbolSet} {l : List (Nat × SymbolSet)}
    (h : l.Pairwise (·.1 < ·.1)) : (merge k s l).Pairwise (·.1 < ·.1) := by
  induction l with
  | nil => simp [merge]
  | cons e l ih =>
    obtain ⟨j, t⟩ := e
    obtain ⟨hj, hl⟩ := List.pairwise_cons.mp h
    by_cases hlt : k < j
    -- the key goes in front
    · simp only [merge, hlt, if_true]
      refine List.pairwise_cons.mpr ⟨fun e he => ?_, h⟩
      rcases List.mem_cons.mp he with rfl | he
      · exact hlt
      · exact Nat.lt_trans hlt (hj e he)
    · by_cases heq : k = j
      -- the key is there
      · subst heq
        simp only [merge, Nat.lt_irrefl, if_false, if_true]
        exact List.pairwise_cons.mpr ⟨hj, hl⟩
      -- the key goes behind
      · simp only [merge, hlt, heq, if_false]
        refine List.pairwise_cons.mpr ⟨fun e he => ?_, ih hl⟩
        rcases mem_keys_merge.mp (List.mem_map_of_mem he) with hk | hk
        · rw [hk]
          change j < k
          omega
        · obtain ⟨e', he', hee⟩ := List.mem_map.mp hk
          rw [← hee]
          exact hj e' he'

/-- Looking up with a decided test of keys. -/
theorem lookup_cons_eq_ite {β : Type} {i j : Nat} {t : β} {l : List (Nat × β)} :
    ((j, t) :: l).lookup i = if i = j then some t else l.lookup i := by
  by_cases h : i = j
  · simp [h]
  · have hb : (i == j) = false := by simpa using h
    simp [List.lookup_cons, hb, h]

/-- Before its first key an ascending list has no entry. -/
theorem lookup_eq_none_of_lt {k n : Nat} {l : List (Nat × SymbolSet)} (hk : ∀ e ∈ l, k < e.1)
    (hnk : n ≤ k) : l.lookup n = none := by
  rw [List.lookup_eq_none_iff]
  intro e he
  have := hk e he
  simp only [bne_iff_ne, ne_eq]
  omega

/-- Looking up after merging finds the merged set, or what was there before. -/
theorem lookup_merge {i k : Nat} {s : SymbolSet} {l : List (Nat × SymbolSet)}
    (h : l.Pairwise (·.1 < ·.1)) :
    (merge k s l).lookup i = if i = k then some ((l.lookup k).getD ∅ ∪ s) else l.lookup i := by
  have hs : (∅ : SymbolSet) ∪ s = s := SymbolSet.ext fun a => by simp
  induction l with
  | nil => by_cases hik : i = k <;> simp [merge, lookup_cons_eq_ite, hik, hs]
  | cons e l ih =>
    obtain ⟨j, t⟩ := e
    obtain ⟨hj, hl⟩ := List.pairwise_cons.mp h
    by_cases hlt : k < j
    -- the key belongs in front of the first entry, and is nowhere behind it
    · have hkl : l.lookup k = none := lookup_eq_none_of_lt hj (Nat.le_of_lt hlt)
      have hkj : k ≠ j := by omega
      by_cases hik : i = k
      · simp [merge, hlt, hik, lookup_cons_eq_ite, hkl, hkj, hs]
      · simp [merge, hlt, hik, lookup_cons_eq_ite]
    · by_cases heq : k = j
      -- it is the key of the first entry
      · subst heq
        by_cases hik : i = k <;> simp [merge, lookup_cons_eq_ite, hik]
      -- it belongs behind the first entry
      · by_cases hij : i = j
        · subst hij
          have hik : ¬ i = k := fun hik => heq hik.symm
          simp [merge, hlt, heq, hik]
        · simp [merge, hlt, heq, lookup_cons_eq_ite, hij, ih hl]

/-! ## The families -/

instance : EmptyCollection SetFamily := ⟨⟨[], List.Pairwise.nil⟩⟩

instance : Inhabited SetFamily := ⟨∅⟩

/-- The set under a key, if the key is there. -/
def get? (F : SetFamily) (k : Nat) : Option SymbolSet := F.entries.lookup k

/-- The set under a key, empty if the key is not there. -/
def getD (F : SetFamily) (k : Nat) : SymbolSet := (F.get? k).getD ∅

/-- The keys, smallest first. -/
def keys (F : SetFamily) : List Nat := F.entries.map (·.1)

/-- Adds the members of `s` under `k`; the key is there afterwards even if `s` is empty. -/
def add (F : SetFamily) (k : Nat) (s : SymbolSet) : SetFamily :=
  ⟨merge k s F.entries, pairwise_merge F.ascending⟩

/-- The union of all the sets. -/
def union (F : SetFamily) : SymbolSet := F.entries.foldl (fun s e => s ∪ e.2) ∅

@[simp] theorem get?_empty (k : Nat) : (∅ : SetFamily).get? k = none := rfl

theorem get?_add {F : SetFamily} {i k : Nat} {s : SymbolSet} :
    (F.add k s).get? i = if i = k then some (F.getD k ∪ s) else F.get? i :=
  lookup_merge F.ascending

theorem getD_add {F : SetFamily} {i k : Nat} {s : SymbolSet} :
    (F.add k s).getD i = if i = k then F.getD k ∪ s else F.getD i := by
  unfold getD
  rw [get?_add]
  by_cases h : i = k <;> simp [h, getD]

@[simp] theorem mem_keys_add {F : SetFamily} {i k : Nat} {s : SymbolSet} :
    i ∈ (F.add k s).keys ↔ i = k ∨ i ∈ F.keys :=
  mem_keys_merge

theorem mem_keys_iff {F : SetFamily} {k : Nat} : k ∈ F.keys ↔ (F.get? k).isSome := by
  unfold keys get?
  rw [List.lookup_isSome_iff]
  simp only [List.mem_map, beq_iff_eq]
  exact ⟨fun ⟨e, he, hk⟩ => ⟨e, he, hk.symm⟩, fun ⟨e, he, hk⟩ => ⟨e, he, hk.symm⟩⟩

/-- Families with the same sets are equal, because keys ascend. -/
@[ext] theorem ext {F G : SetFamily} (h : ∀ k, F.get? k = G.get? k) : F = G := by
  obtain ⟨l, hl⟩ := F
  obtain ⟨m, hm⟩ := G
  -- by induction on the first list, since the smallest key of one list is that of the other
  have heq : l = m := by
    induction l generalizing m with
    | nil =>
      cases m with
      | nil => rfl
      | cons e m =>
        obtain ⟨j, t⟩ := e
        exact absurd (h j) (by simp [get?])
    | cons d l ih =>
      cases m with
      | nil =>
        obtain ⟨i, s⟩ := d
        exact absurd (h i) (by simp [get?])
      | cons e m =>
        obtain ⟨i, s⟩ := d
        obtain ⟨j, t⟩ := e
        obtain ⟨hi, hl'⟩ := List.pairwise_cons.mp hl
        obtain ⟨hj, hm'⟩ := List.pairwise_cons.mp hm
        -- a smaller key on one side would be missing on the other
        have hhead : i = j := by
          rcases Nat.lt_trichotomy i j with hlt | heq | hlt
          · have hij := h i
            simp [get?, lookup_cons_eq_ite, Nat.ne_of_lt hlt,
              lookup_eq_none_of_lt hj (Nat.le_of_lt hlt)] at hij
          · exact heq
          · have hji := h j
            simp [get?, lookup_cons_eq_ite, Nat.ne_of_lt hlt,
              lookup_eq_none_of_lt hi (Nat.le_of_lt hlt)] at hji
        subst hhead
        have hst : s = t := by simpa [get?, lookup_cons_eq_ite] using h i
        subst hst
        refine congrArg ((i, s) :: ·) (ih hl' m hm' fun k => ?_)
        -- the key in front is in neither rest
        by_cases hk : k = i
        · subst hk
          exact (lookup_eq_none_of_lt hi (Nat.le_refl k)).trans
            (lookup_eq_none_of_lt hj (Nat.le_refl k)).symm
        · simpa [get?, lookup_cons_eq_ite, hk] using h k
  subst heq
  rfl

/-- Families with the same keys and the same members under each key are equal. -/
theorem ext_members {F G : SetFamily} (hkeys : ∀ k, k ∈ F.keys ↔ k ∈ G.keys)
    (hmem : ∀ k a, a ∈ F.getD k ↔ a ∈ G.getD k) : F = G := by
  ext1 k
  have hkey := hkeys k
  have hset : F.getD k = G.getD k := SymbolSet.ext (hmem k)
  rw [mem_keys_iff, mem_keys_iff] at hkey
  rw [getD, getD] at hset
  cases hF : F.get? k <;> cases hG : G.get? k <;> simp_all

end SetFamily

end PredictiveGrammar
