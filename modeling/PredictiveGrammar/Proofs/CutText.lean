import Mathlib.Data.List.Infix
import PredictiveGrammar.Text.Pieces

/-!
# Cutting text

What cutting finds in text that was put together, and what it says about any text. Joined words are found
again (`words_intercalate`), and so are the texts on both sides of an arrow (`splitArrows_arrow`) and a text
between blanks (`trim_append`). The other way round, a word has no blank, a side has no arrow, and whatever
is cut out of a text is a part of it.
-/

namespace PredictiveGrammar.Text

/-! ## Pieces of a list -/

section Pieces

variable {α : Type} {separator piece l : List α} {pieces : List (List α)} {p : α → Bool}

/-- What holds of all pieces and is kept when two texts are joined holds of the joined text. -/
theorem intercalate_induction {motive : List α → Prop} (hne : pieces ≠ [])
    (hpiece : ∀ piece ∈ pieces, motive piece)
    (hjoin : ∀ x y, motive x → motive y → motive (x ++ separator ++ y)) :
    motive (separator.intercalate pieces) := by
  induction pieces with
  | nil => exact absurd rfl hne
  | cons first rest ih =>
    have hfirst := hpiece first List.mem_cons_self
    cases rest with
    | nil =>
      rw [List.intercalate_singleton]
      exact hfirst
    | cons next rest =>
      rw [List.intercalate_cons_cons]
      apply hjoin _ _ hfirst
      exact ih (List.cons_ne_nil next rest) fun piece h => hpiece piece (List.mem_cons_of_mem first h)

/-- Cutting gives parts of the list, and no place to cut is left in them. -/
theorem infix_of_mem_splitOnP (h : piece ∈ l.splitOnP p) : piece <:+: l ∧ ∀ a ∈ piece, p a = false := by
  -- the induction goes along the list, behind the start of a piece
  suffices hgo : ∀ start : List α, (∀ a ∈ start, p a = false) → piece ∈ (start ++ l).splitOnP p →
      piece <:+: start ++ l ∧ ∀ a ∈ piece, p a = false from
    hgo [] (List.forall_mem_nil _) h
  clear h
  induction l with
  | nil =>
    intro start hstart h
    rw [List.append_nil] at h ⊢
    rw [List.splitOnP_eq_singleton hstart, List.mem_singleton] at h
    subst h
    exact ⟨List.infix_rfl, hstart⟩
  | cons a l ih =>
    intro start hstart h
    cases ha : p a with
    | true =>
      rw [List.splitOnP_append_cons_of_forall_mem hstart a ha] at h
      cases h with
      | head => exact ⟨(List.prefix_append piece _).isInfix, hstart⟩
      | tail _ h =>
        obtain ⟨hpart, hpiece⟩ := ih [] (List.forall_mem_nil _) h
        exact ⟨(List.infix_cons hpart).trans (List.suffix_append start _).isInfix, hpiece⟩
    | false =>
      rw [List.append_cons] at h ⊢
      refine ih (start ++ [a]) (fun b hb => ?_) h
      rcases List.mem_append.mp hb with hb | hb
      · exact hstart b hb
      · exact List.mem_singleton.mp hb ▸ ha

end Pieces

variable {cs lead body trail left right word : List Char} {c : Char}

/-! ## Words -/

/-- A text that is one word. -/
structure IsWord (cs : List Char) : Prop where
  /-- it is not empty -/
  ne_nil : cs ≠ []
  /-- it has no blank -/
  noBlank : ∀ c ∈ cs, isBlank c = false

theorem IsWord.notMem (h : IsWord cs) (hc : isBlank c = true) : c ∉ cs := by
  intro hmem
  rw [h.noBlank c hmem] at hc
  cases hc

/-- The words of a text are words and parts of it. -/
theorem isWord_of_mem_words (h : word ∈ words cs) : IsWord word ∧ word <:+: cs := by
  obtain ⟨hmem, hne⟩ := List.mem_filter.mp h
  obtain ⟨hpart, hblank⟩ := infix_of_mem_splitOnP hmem
  exact ⟨⟨by simpa using hne, hblank⟩, hpart⟩

/-- A blank ends the word in front of it. -/
theorem words_append_blank (x y : List Char) (hc : isBlank c = true) :
    words (x ++ c :: y) = words x ++ words y := by
  rw [words, List.splitOnP_append_cons x y hc, List.filter_append]
  rfl

/-- Blanks in front make no words. -/
theorem words_cons_blank (hc : isBlank c = true) : words (c :: cs) = words cs :=
  words_append_blank [] cs hc

theorem words_of_blank (h : ∀ c ∈ cs, isBlank c = true) : words cs = [] := by
  induction cs with
  | nil => rfl
  | cons c cs ih =>
    obtain ⟨hc, h⟩ := List.forall_mem_cons.mp h
    rw [words_cons_blank hc, ih h]

/-- Blanks around a text make no words. -/
theorem words_append_of_blank (hlead : ∀ c ∈ lead, isBlank c = true)
    (htrail : ∀ c ∈ trail, isBlank c = true) : words (lead ++ body ++ trail) = words body := by
  induction lead with
  | nil =>
    cases trail with
    | nil => simp
    | cons c trail =>
      obtain ⟨hc, htrail⟩ := List.forall_mem_cons.mp htrail
      rw [List.nil_append, words_append_blank body trail hc, words_of_blank htrail, List.append_nil]
  | cons c lead ih =>
    obtain ⟨hc, hlead⟩ := List.forall_mem_cons.mp hlead
    rw [List.cons_append, List.cons_append, words_cons_blank hc, ih hlead]

theorem IsWord.words_eq (h : IsWord word) : words word = [word] := by
  rw [words, List.splitOnP_eq_singleton h.noBlank]
  simp [h.ne_nil]

/-- **Words joined by spaces are found again.** -/
theorem words_intercalate {pieces : List (List Char)} (h : ∀ word ∈ pieces, IsWord word) :
    words ([' '].intercalate pieces) = pieces := by
  induction pieces with
  | nil => rfl
  | cons first rest ih =>
    have hfirst := (h first List.mem_cons_self).words_eq
    cases rest with
    | nil =>
      rw [List.intercalate_singleton]
      exact hfirst
    | cons next rest =>
      rw [List.intercalate_cons_cons, List.append_assoc, List.singleton_append,
        words_append_blank _ _ (by decide), hfirst,
        ih fun word hw => h word (List.mem_cons_of_mem first hw)]
      rfl

/-- A text with a character that is not blank has a word. -/
theorem words_ne_nil (hmem : c ∈ cs) (hc : isBlank c = false) : words cs ≠ [] := by
  induction cs with
  | nil => cases hmem
  | cons d cs ih =>
    cases hd : isBlank d with
    | true =>
      rw [words_cons_blank hd]
      cases hmem with
      | head => simp [hc] at hd
      | tail _ hmem => exact ih hmem
    | false =>
      obtain ⟨first, rest, heq⟩ := List.exists_cons_of_ne_nil (List.splitOnP_ne_nil isBlank cs)
      simp [words, List.splitOnP_cons_eq_if_modifyHead, hd, heq]

/-! ## Trimming -/

/-- A text without blanks at its ends. -/
structure Framed (cs : List Char) : Prop where
  /-- the first character is not blank -/
  first : ∃ c, cs.head? = some c ∧ isBlank c = false
  /-- the last character is not blank -/
  last : ∃ c, cs.getLast? = some c ∧ isBlank c = false

theorem Framed.ne_nil (h : Framed cs) : cs ≠ [] := by
  rintro rfl
  obtain ⟨c, hhead, -⟩ := h.first
  cases hhead

/-- A text that begins like a framed one and ends like another is framed, whatever is between. -/
theorem Framed.append (hleft : Framed left) (hright : Framed right) (middle : List Char) :
    Framed (left ++ middle ++ right) where
  first := by
    obtain ⟨c, hhead, hc⟩ := hleft.first
    exact ⟨c, by simp [hhead], hc⟩
  last := by
    obtain ⟨c, hlast, hc⟩ := hright.last
    exact ⟨c, by simp [hlast], hc⟩

theorem IsWord.framed (h : IsWord word) : Framed word where
  first := ⟨word.head h.ne_nil, List.head?_eq_some_head h.ne_nil, h.noBlank _ (List.head_mem h.ne_nil)⟩
  last := ⟨word.getLast h.ne_nil, List.getLast?_eq_some_getLast h.ne_nil,
    h.noBlank _ (List.getLast_mem h.ne_nil)⟩

/-- A text without blanks at its ends that holds only one word is that word. -/
theorem Framed.isWord (h : Framed cs) (hwords : (words cs).length = 1) : IsWord cs where
  ne_nil := h.ne_nil
  noBlank := by
    intro c hc
    by_contra hblank
    rw [Bool.not_eq_false] at hblank
    obtain ⟨x, y, rfl⟩ := List.append_of_mem hc
    obtain ⟨first, hhead, hfirst⟩ := h.first
    obtain ⟨last, hlast, hlastc⟩ := h.last
    -- the text does not start or end at the blank, so there is a word on each side of it
    have hx : words x ≠ [] := by
      cases hd : x.head? with
      | none =>
        have heq : c = first := by simpa [hd] using hhead
        simp [← heq, hblank] at hfirst
      | some d =>
        have heq : d = first := by simpa [hd] using hhead
        exact words_ne_nil (List.mem_of_head? hd) (heq ▸ hfirst)
    have hy : words y ≠ [] := by
      cases hd : y.getLast? with
      | none =>
        have heq : c = last := by simpa [List.getLast?_cons, hd] using hlast
        simp [← heq, hblank] at hlastc
      | some d =>
        have heq : d = last := by simpa [List.getLast?_cons, hd] using hlast
        exact words_ne_nil (List.mem_of_getLast? hd) (heq ▸ hlastc)
    rw [words_append_blank x y hblank, List.length_append] at hwords
    have := List.length_pos_iff.mpr hx
    have := List.length_pos_iff.mpr hy
    omega

/-- Dropping blanks in front leaves nothing or text that starts with another character. -/
theorem exists_head_dropWhile (h : cs.dropWhile isBlank ≠ []) :
    ∃ c, (cs.dropWhile isBlank).head? = some c ∧ isBlank c = false := by
  have hhead := List.head?_dropWhile_not isBlank cs
  rw [List.head?_eq_some_head h] at hhead
  exact ⟨_, List.head?_eq_some_head h, hhead⟩

/-- Dropping blanks in front does nothing to a text that starts with another character. -/
theorem dropWhile_isBlank (hhead : cs.head? = some c) (hc : isBlank c = false) :
    cs.dropWhile isBlank = cs := by
  obtain ⟨rest, rfl⟩ := List.head?_eq_some_iff.mp hhead
  exact List.dropWhile_cons_of_neg (by simp [hc])

/-- What is left after trimming stands in the text. -/
theorem trim_isInfix (cs : List Char) : trim cs <:+: cs := by
  have hback := List.dropWhile_suffix (l := (cs.dropWhile isBlank).reverse) isBlank
  rw [← List.reverse_prefix, List.reverse_reverse] at hback
  exact hback.isInfix.trans (List.dropWhile_suffix isBlank).isInfix

/-- What trimming leaves, if anything, has no blanks at its ends. -/
theorem framed_trim (h : trim cs ≠ []) : Framed (trim cs) := by
  rw [trim, ne_eq, List.reverse_eq_nil_iff] at h
  have hback := List.dropWhile_suffix (l := (cs.dropWhile isBlank).reverse) isBlank
  have hfront : cs.dropWhile isBlank ≠ [] := by
    intro hnil
    rw [hnil] at h
    exact h rfl
  obtain ⟨first, hhead, hfirst⟩ := exists_head_dropWhile hfront
  obtain ⟨last, hlast, hlastc⟩ := exists_head_dropWhile h
  refine ⟨⟨first, ?_, hfirst⟩, ⟨last, ?_, hlastc⟩⟩
  · rw [trim, List.head?_reverse]
    obtain ⟨dropped, heq⟩ := hback
    rw [← List.getLast?_append_of_ne_nil dropped h, heq, List.getLast?_reverse]
    exact hhead
  · rw [trim, List.getLast?_reverse]
    exact hlast

/-- **A text between blanks is found again.** -/
theorem trim_append (h : Framed body) (hlead : ∀ c ∈ lead, isBlank c = true)
    (htrail : ∀ c ∈ trail, isBlank c = true) : trim (lead ++ body ++ trail) = body := by
  obtain ⟨c, hhead, hc⟩ := h.first
  obtain ⟨d, hlast, hd⟩ := h.last
  have hreverse : ∀ c ∈ trail.reverse, isBlank c = true :=
    fun c hc => htrail c (List.mem_reverse.mp hc)
  have hfront : (body ++ trail).head? = some c := by simp [hhead]
  have hback : body.reverse.head? = some d := by simp [hlast]
  rw [trim, List.append_assoc, List.dropWhile_append_of_pos hlead, dropWhile_isBlank hfront hc,
    List.reverse_append, List.dropWhile_append_of_pos hreverse, dropWhile_isBlank hback hd,
    List.reverse_reverse]

/-- There is nothing to trim from a framed text. -/
theorem Framed.trim_eq (h : Framed cs) : trim cs = cs := by
  simpa using trim_append h (List.forall_mem_nil _) (List.forall_mem_nil _)

/-! ## Arrows -/

/-- Whether an arrow stands in a text. -/
abbrev HasArrow (cs : List Char) : Prop := ['-', '>'] <:+: cs

/-- An arrow begins at the first character or behind it. -/
theorem hasArrow_cons : HasArrow (c :: cs) ↔ c = '-' ∧ cs.head? = some '>' ∨ HasArrow cs := by
  have hhead : ['>'] <+: cs ↔ cs.head? = some '>' := by
    cases cs <;> simp [eq_comm]
  rw [HasArrow, List.infix_cons_iff, List.cons_prefix_cons, hhead, eq_comm]

/-- An arrow in two joined texts stands in one of them or where they meet. -/
theorem hasArrow_append (h : HasArrow (left ++ right)) :
    HasArrow left ∨ HasArrow right ∨ left.getLast? = some '-' ∧ right.head? = some '>' := by
  induction left with
  | nil => exact Or.inr (Or.inl h)
  | cons c left ih =>
    rcases hasArrow_cons.mp h with ⟨hc, hhead⟩ | h
    · cases left with
      | nil => exact Or.inr (Or.inr ⟨congrArg some hc, hhead⟩)
      | cons d left => exact Or.inl (hasArrow_cons.mpr (Or.inl ⟨hc, hhead⟩))
    · rcases ih h with h | h | ⟨hlast, hhead⟩
      · exact Or.inl (List.infix_cons h)
      · exact Or.inr (Or.inl h)
      · exact Or.inr (Or.inr ⟨by simp [List.getLast?_cons, hlast], hhead⟩)

theorem HasArrow.mem_right (h : HasArrow cs) : '>' ∈ cs := h.mem (by simp)

/-- Text without `>` behind a text adds no arrow. -/
theorem HasArrow.of_append (hright : '>' ∉ right) (h : HasArrow (left ++ right)) : HasArrow left := by
  rcases hasArrow_append h with h | h | ⟨-, h⟩
  · exact h
  · exact absurd h.mem_right hright
  · exact absurd (List.mem_of_head? h) hright

/-- Joining texts with a separator that shares no character with the arrow adds no arrow. -/
theorem not_hasArrow_intercalate {separator : List Char} {pieces : List (List Char)}
    (hne : pieces ≠ []) (hpieces : ∀ piece ∈ pieces, ¬HasArrow piece) (hseparator : separator ≠ [])
    (hminus : '-' ∉ separator) (hgreater : '>' ∉ separator) :
    ¬HasArrow (separator.intercalate pieces) := by
  refine intercalate_induction hne hpieces fun x y hx hy h => ?_
  rcases hasArrow_append h with h | h | ⟨h, -⟩
  · exact hx (h.of_append hgreater)
  · exact hy h
  · rw [List.getLast?_append_of_ne_nil _ hseparator] at h
    exact hminus (List.mem_of_getLast? h)

/-- A character that begins no arrow goes to the first piece. -/
theorem splitArrows_cons (h : ¬(c = '-' ∧ cs.head? = some '>')) :
    splitArrows (c :: cs) = (splitArrows cs).modifyHead (c :: ·) := by
  apply splitArrows.eq_3
  rintro rest rfl rfl
  exact h ⟨rfl, rfl⟩

/-- Text without an arrow goes in front of the first piece, unless an arrow comes about where it ends. -/
theorem splitArrows_append {rest : List Char} (hleft : ¬HasArrow left) (hrest : rest.head? ≠ some '>') :
    splitArrows (left ++ rest) = (splitArrows rest).modifyHead (left ++ ·) := by
  induction left with
  | nil => exact (congrFun List.modifyHead_id _).symm
  | cons c left ih =>
    have hnone : ¬(c = '-' ∧ (left ++ rest).head? = some '>') := by
      rintro ⟨hc, hhead⟩
      cases left with
      | nil => exact hrest hhead
      | cons d left => exact hleft (hasArrow_cons.mpr (Or.inl ⟨hc, hhead⟩))
    rw [List.cons_append, splitArrows_cons hnone, ih fun h => hleft (List.infix_cons h),
      List.modifyHead_modifyHead]
    rfl

/-- Without an arrow there is one piece. -/
theorem splitArrows_of_not_hasArrow (h : ¬HasArrow cs) : splitArrows cs = [cs] := by
  have hnil : ([] : List Char).head? ≠ some '>' := by simp
  simpa [splitArrows] using splitArrows_append h hnil

/-- **Text with one arrow is cut into its two sides.** -/
theorem splitArrows_arrow (hleft : ¬HasArrow left) (hright : ¬HasArrow right) :
    splitArrows (left ++ '-' :: '>' :: right) = [left, right] := by
  rw [splitArrows_append hleft (by simp), splitArrows, splitArrows_of_not_hasArrow hright]
  simp

/-- What was cut at arrows is joined by arrows. -/
theorem intercalate_splitArrows (cs : List Char) : ['-', '>'].intercalate (splitArrows cs) = cs := by
  fun_induction splitArrows cs with
  | case1 => rfl
  | case2 cs ih =>
    rw [List.intercalate_cons_of_ne_nil (splitArrows_ne_nil cs), ih]
    rfl
  | case3 c cs _ ih =>
    obtain ⟨first, rest, heq⟩ := List.exists_cons_of_ne_nil (splitArrows_ne_nil cs)
    rw [heq] at ih ⊢
    rw [List.modifyHead_cons, List.intercalate_cons_cons_left, ih]

/-- No arrow is left after cutting at arrows. -/
theorem not_hasArrow_of_mem_splitArrows {piece : List Char} (h : piece ∈ splitArrows cs) :
    ¬HasArrow piece := by
  fun_induction splitArrows cs generalizing piece with
  | case1 =>
    obtain rfl := List.mem_singleton.mp h
    decide
  | case2 cs ih =>
    cases h with
    | head => decide
    | tail _ h => exact ih h
  | case3 c cs hc ih =>
    have hjoined := intercalate_splitArrows cs
    obtain ⟨first, rest, heq⟩ := List.exists_cons_of_ne_nil (splitArrows_ne_nil cs)
    rw [heq] at h ih hjoined
    cases h with
    | head =>
      intro harrow
      rcases hasArrow_cons.mp harrow with ⟨rfl, hhead⟩ | harrow
      -- then the text has an arrow there
      · obtain ⟨tail, rfl⟩ := List.head?_eq_some_iff.mp hhead
        rw [List.intercalate_cons_cons_left] at hjoined
        exact hc _ rfl hjoined.symm
      · exact ih List.mem_cons_self harrow
    | tail _ h => exact ih (List.mem_cons_of_mem first h)

end PredictiveGrammar.Text
