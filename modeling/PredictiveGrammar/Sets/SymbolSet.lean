/-!
# Finite sets of symbol indices

FIRST and FOLLOW are sets of symbols, and a symbol is known by its index. A `SymbolSet` lists its
members once each and in ascending order, so that two sets with the same members are the same value
(`SymbolSet.ext`) and walking through a set always meets its members in index order.
-/

namespace PredictiveGrammar

/-- A finite set of symbol indices. -/
structure SymbolSet where
  /-- the members, smallest first -/
  toList : List Nat
  /-- every member is listed once, in its place -/
  ascending : toList.Pairwise (· < ·)
deriving DecidableEq

namespace SymbolSet

/-! ## Placing an index in an ascending list -/

/-- Puts `a` in its place in an ascending list, unless it is already there. -/
def place (a : Nat) : List Nat → List Nat
  | [] => [a]
  | b :: l => if a < b then a :: b :: l else if a = b then b :: l else b :: place a l

/-- Placing keeps what is there. -/
@[simp] theorem mem_place {a b : Nat} {l : List Nat} : a ∈ place b l ↔ a = b ∨ a ∈ l := by
  induction l with
  | nil => simp [place]
  | cons c l ih =>
    by_cases hlt : b < c
    · simp [place, hlt]
    · by_cases heq : b = c
      · simp [place, heq]
      · simp only [place, hlt, heq, if_false, List.mem_cons, ih]
        exact or_left_comm

/-- Placing keeps a list ascending. -/
theorem pairwise_place {l : List Nat} (b : Nat) (h : l.Pairwise (· < ·)) :
    (place b l).Pairwise (· < ·) := by
  induction l with
  | nil => simp [place]
  | cons c l ih =>
    obtain ⟨hc, hl⟩ := List.pairwise_cons.mp h
    by_cases hlt : b < c
    · simp only [place, hlt, if_true]
      refine List.pairwise_cons.mpr ⟨fun a ha => ?_, h⟩
      rcases List.mem_cons.mp ha with rfl | ha
      · exact hlt
      · exact Nat.lt_trans hlt (hc a ha)
    · by_cases heq : b = c
      · simpa only [place, hlt, heq, if_false, if_true, Nat.lt_irrefl] using h
      · simp only [place, hlt, heq, if_false]
        refine List.pairwise_cons.mpr ⟨fun a ha => ?_, ih hl⟩
        rcases mem_place.mp ha with rfl | ha
        · omega
        · exact hc a ha

/-! ## The sets -/

instance : Membership Nat SymbolSet := ⟨fun s a => a ∈ s.toList⟩

instance (a : Nat) (s : SymbolSet) : Decidable (a ∈ s) :=
  inferInstanceAs (Decidable (a ∈ s.toList))

instance : HasSubset SymbolSet := ⟨fun s t => ∀ a, a ∈ s → a ∈ t⟩

@[simp] theorem mem_toList {a : Nat} {s : SymbolSet} : a ∈ s.toList ↔ a ∈ s := Iff.rfl

instance : EmptyCollection SymbolSet := ⟨⟨[], List.Pairwise.nil⟩⟩

instance : Inhabited SymbolSet := ⟨∅⟩

/-- Adds one index. -/
def insert (s : SymbolSet) (a : Nat) : SymbolSet :=
  ⟨place a s.toList, pairwise_place a s.ascending⟩

instance : Singleton Nat SymbolSet := ⟨fun a => insert ∅ a⟩

/-- The set of the indices of a list. -/
def ofList (l : List Nat) : SymbolSet := l.foldl insert ∅

/-- All members of either set. -/
def union (s t : SymbolSet) : SymbolSet := t.toList.foldl insert s

instance : Union SymbolSet := ⟨union⟩

/-- Leaves one index out. -/
def erase (s : SymbolSet) (a : Nat) : SymbolSet :=
  ⟨s.toList.filter (· != a), s.ascending.filter _⟩

/-- The number of members. -/
def size (s : SymbolSet) : Nat := s.toList.length

/-! ## Membership -/

/-- Sets with the same members are equal, because members are kept in ascending order. -/
@[ext] theorem ext {s t : SymbolSet} (h : ∀ a, a ∈ s ↔ a ∈ t) : s = t := by
  obtain ⟨l, hl⟩ := s
  obtain ⟨m, hm⟩ := t
  -- by induction on the first list, since the smallest member of one list is that of the other
  have heq : l = m := by
    induction l generalizing m with
    | nil =>
      cases m with
      | nil => rfl
      | cons b m => exact absurd ((h b).mpr List.mem_cons_self) (List.not_mem_nil)
    | cons a l ih =>
      cases m with
      | nil => exact absurd ((h a).mp List.mem_cons_self) (List.not_mem_nil)
      | cons b m =>
        obtain ⟨ha, hl'⟩ := List.pairwise_cons.mp hl
        obtain ⟨hb, hm'⟩ := List.pairwise_cons.mp hm
        have hab : a = b := by
          rcases List.mem_cons.mp ((h a).mp List.mem_cons_self) with hab | hab
          · exact hab
          · rcases List.mem_cons.mp ((h b).mpr List.mem_cons_self) with hba | hba
            · exact hba.symm
            · exact absurd (Nat.lt_trans (ha b hba) (hb a hab)) (Nat.lt_irrefl a)
        subst hab
        -- the member in front is in neither rest
        refine congrArg (a :: ·) (ih hl' m hm' fun c => ⟨fun hc => ?_, fun hc => ?_⟩)
        · rcases List.mem_cons.mp ((h c).mp (List.mem_cons_of_mem _ hc)) with rfl | hc'
          · exact absurd (ha c hc) (Nat.lt_irrefl c)
          · exact hc'
        · rcases List.mem_cons.mp ((h c).mpr (List.mem_cons_of_mem _ hc)) with rfl | hc'
          · exact absurd (hb c hc) (Nat.lt_irrefl c)
          · exact hc'
  subst heq
  rfl

@[simp] theorem not_mem_empty (a : Nat) : a ∉ (∅ : SymbolSet) := List.not_mem_nil

@[simp] theorem mem_insert {a b : Nat} {s : SymbolSet} : a ∈ s.insert b ↔ a = b ∨ a ∈ s :=
  mem_place

@[simp] theorem mem_singleton {a b : Nat} : a ∈ ({b} : SymbolSet) ↔ a = b :=
  mem_insert.trans (or_iff_left (not_mem_empty a))

/-- Inserting one element after the other adds all of them. -/
theorem mem_foldl_insert {a : Nat} {l : List Nat} {s : SymbolSet} :
    a ∈ l.foldl insert s ↔ a ∈ s ∨ a ∈ l := by
  induction l generalizing s with
  | nil => simp
  | cons b l ih =>
    simp only [List.foldl_cons, ih, mem_insert, List.mem_cons]
    exact or_assoc.trans or_left_comm

@[simp] theorem mem_ofList {a : Nat} {l : List Nat} : a ∈ ofList l ↔ a ∈ l :=
  mem_foldl_insert.trans (or_iff_right (not_mem_empty a))

@[simp] theorem mem_union {a : Nat} {s t : SymbolSet} : a ∈ s ∪ t ↔ a ∈ s ∨ a ∈ t :=
  mem_foldl_insert

@[simp] theorem mem_erase {a b : Nat} {s : SymbolSet} : a ∈ s.erase b ↔ a ∈ s ∧ a ≠ b := by
  change a ∈ s.toList.filter (· != b) ↔ _
  simp

end SymbolSet

end PredictiveGrammar
