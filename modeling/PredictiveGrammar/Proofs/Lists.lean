import Mathlib.Data.List.Nodup
import Mathlib.Data.List.Perm.Basic

/-!
# Lists

Facts about lists that several modules use and the library does not have. An element is in one part of a concatenation
(`append_eq_append_cons`), lists are taken apart and put together by keys (`filter_flatMap_of_key`,
`flatMap_filter_perm`), and the last element that counts is found (`getLast?_filter_eq_some_iff`).
-/

namespace PredictiveGrammar

/-! ## Concatenations -/

/-- An element of a concatenation is in the first part or in the second. -/
theorem append_eq_append_cons {α : Type} {l m before after : List α} {a : α}
    (h : l ++ m = before ++ a :: after) :
    (∃ n, l = before ++ a :: n ∧ after = n ++ m) ∨ ∃ n, m = n ++ a :: after ∧ before = l ++ n := by
  rcases List.append_eq_append_iff.mp h with ⟨n, hbefore, hm⟩ | ⟨n, hl, hafter⟩
  · exact Or.inr ⟨n, hm, hbefore⟩
  · cases n with
    | nil => exact Or.inr ⟨[], hafter.symm, by rw [hl, List.append_nil, List.append_nil]⟩
    | cons b n =>
      obtain ⟨rfl, hrest⟩ := List.cons.inj hafter
      exact Or.inl ⟨n, hl, hrest⟩

/-! ## Keys -/

/-- With different values on all elements, a value picks out its element. -/
theorem filter_eq_singleton {α β : Type} [DecidableEq β] {f : α → β} {l : List α} {a : α}
    (hnodup : (l.map f).Nodup) (h : a ∈ l) : l.filter (f · = f a) = [a] := by
  have hfilter : (l.filter (f · = f a)).Nodup := (hnodup.of_map _).filter _
  refine List.perm_singleton.mp ((List.perm_ext_iff_of_nodup hfilter (List.nodup_singleton a)).mpr ?_)
  intro other
  rw [List.mem_filter, decide_eq_true_eq, List.mem_singleton]
  refine ⟨?_, ?_⟩
  · rintro ⟨hother, heq⟩
    exact List.inj_on_of_nodup_map hnodup hother h heq
  · rintro rfl
    exact ⟨h, rfl⟩

/-- What stands behind one key, where the parts of a concatenation have keys. -/
theorem filter_flatMap_of_key {α β γ : Type} [DecidableEq γ] {l : List α} {f : α → List β} {key : α → γ} {k : β → γ}
    (h : ∀ a ∈ l, ∀ b ∈ f a, k b = key a) (c : γ) :
    (l.flatMap f).filter (k · = c) = (l.filter (key · = c)).flatMap f := by
  induction l with
  | nil => rfl
  | cons a l ih =>
    obtain ⟨ha, hl⟩ := List.forall_mem_cons.mp h
    rw [List.flatMap_cons, List.filter_append, ih hl]
    by_cases heq : key a = c
    · rw [List.filter_cons_of_pos (by simpa using heq), List.flatMap_cons]
      refine congrArg (· ++ _) (List.filter_eq_self.mpr fun b hb => ?_)
      simpa [ha b hb] using heq
    · rw [List.filter_cons_of_neg (by simpa using heq)]
      refine (congrArg (· ++ _) (List.filter_eq_nil_iff.mpr fun b hb => ?_)).trans (List.nil_append _)
      simpa [ha b hb] using heq

/-- Elements put together by their values are the elements in another order. -/
theorem flatMap_filter_perm {α β : Type} [DecidableEq β] {f : α → β} {keys : List β} (hkeys : keys.Nodup) {l : List α}
    (h : ∀ a ∈ l, f a ∈ keys) : (keys.flatMap fun key => l.filter (f · = key)).Perm l := by
  induction keys generalizing l with
  | nil =>
    obtain rfl := List.eq_nil_iff_forall_not_mem.mpr fun a ha => List.not_mem_nil (h a ha)
    exact .refl []
  | cons key keys ih =>
    obtain ⟨hkey, hkeys⟩ := List.nodup_cons.mp hkeys
    have hrest : ∀ a ∈ l.filter (fun a => !decide (f a = key)), f a ∈ keys := by
      intro a ha
      obtain ⟨hmem, hne⟩ := List.mem_filter.mp ha
      exact (List.mem_cons.mp (h a hmem)).resolve_left (by simpa using hne)
    have hlater : (keys.flatMap fun other => l.filter (f · = other)) =
        keys.flatMap fun other => (l.filter fun a => !decide (f a = key)).filter (f · = other) := by
      refine List.flatMap_congr fun other hother => ?_
      rw [List.filter_filter]
      refine List.filter_congr fun a _ => ?_
      by_cases heq : f a = other
      · have hne : f a ≠ key := fun h => hkey (h ▸ heq ▸ hother)
        simp [heq, heq ▸ hne]
      · simp [heq]
    rw [List.flatMap_cons, hlater]
    exact ((ih hkeys hrest).append_left _).trans (List.filter_append_perm _ l)

/-! ## Last elements -/

/-- The last element with a property is the one behind which no other has it. -/
theorem getLast?_filter_eq_some_iff {α : Type} {p : α → Bool} {l : List α} {a : α} :
    (l.filter p).getLast? = some a ↔
      ∃ i : Nat, l[i]? = some a ∧ p a ∧ ∀ (j : Nat) (b : α), i < j → l[j]? = some b → ¬ p b := by
  rw [List.getLast?_filter, List.find?_eq_some_iff_append]
  constructor
  · rintro ⟨ha, after, before, hl, hafter⟩
    obtain rfl := List.reverse_eq_append_iff.mp hl
    rw [List.reverse_cons, List.append_assoc, List.singleton_append]
    refine ⟨before.reverse.length, by simp, ha, fun j b hj hb => ?_⟩
    rw [List.append_cons, List.getElem?_append_right (by simp at hj ⊢; omega)] at hb
    simpa using hafter b (List.mem_reverse.mp (List.mem_of_getElem? hb))
  · rintro ⟨i, hi, ha, hlast⟩
    obtain ⟨hlt, rfl⟩ := List.getElem?_eq_some_iff.mp hi
    have hsplit : l.take i ++ l[i] :: l.drop (i + 1) = l := by
      rw [List.getElem_cons_drop hlt, List.take_append_drop]
    refine ⟨ha, (l.drop (i + 1)).reverse, (l.take i).reverse, ?_, fun b hb => ?_⟩
    · rw [List.append_cons, ← List.reverse_cons, ← List.reverse_append, hsplit]
    · obtain ⟨k, hk⟩ := List.mem_iff_getElem?.mp (List.mem_reverse.mp hb)
      rw [List.getElem?_drop] at hk
      simpa using hlast _ b (by omega) hk

/-- The last answer is that for the first element if no other element has one. -/
theorem getLast?_filterMap_cons {α β : Type} (f : α → Option β) (a : α) (l : List α) :
    ((a :: l).filterMap f).getLast? = (l.filterMap f).getLast?.or (f a) := by
  rw [List.filterMap_cons]
  cases f a with
  | none => exact Option.or_none.symm
  | some b =>
    rw [List.getLast?_cons]
    cases (l.filterMap f).getLast? <;> rfl

end PredictiveGrammar
