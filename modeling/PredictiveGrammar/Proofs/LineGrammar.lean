import PredictiveGrammar.Proofs.Lists
import PredictiveGrammar.Proofs.ReadRules

/-!
# The grammar of lines

Which lines are rules, said by what they consist of and not by how they are cut: a rule line is a name, an arrow and
alternatives (`RuleLine`), and a continuation line is a bar and alternatives (`ContinuationLine`), with blanks where
words meet. Blanks around a line change nothing (`ruleLine_blank_iff`, `continuationLine_blank_iff`), and reading a
line finds what it consists of (`RuleText.readLine_trim_iff`).
-/

namespace PredictiveGrammar

open Text

/-! ## What lines consist of -/

/-- A text in which there is nothing to see. -/
def Blank (cs : List Char) : Prop := ∀ c ∈ cs, isBlank c = true

instance (cs : List Char) : Decidable (Blank cs) := decidable_of_iff (cs.all isBlank = true) List.all_eq_true

/-- A text that consists of names, with blanks between neighbours and maybe at its ends. -/
inductive Spaced : List Char → List String → Prop
  | blank {cs : List Char} : Blank cs → Spaced cs []
  | name {lead rest : List Char} {name : String} {names : List String} :
      Blank lead → IsWord name.toList → (∀ c ∈ rest.head?, isBlank c = true) → Spaced rest names →
      Spaced (lead ++ name.toList ++ rest) (name :: names)

/-- A text that consists of alternatives with bars between neighbours, each of one symbol or more. -/
inductive Alternatives : List Char → List (List String) → Prop
  | last {text : List Char} {right : List String} :
      '|' ∉ text → Spaced text right → right ≠ [] → Alternatives text [right]
  | more {text rest : List Char} {right : List String} {rights : List (List String)} :
      '|' ∉ text → Spaced text right → right ≠ [] → Alternatives rest rights →
      Alternatives (text ++ '|' :: rest) (right :: rights)

/-- A line with one arrow, a name that is not reserved in front of it, and alternatives behind it. -/
inductive RuleLine : List Char → Rule → Prop
  | intro {left right : List Char} {rule : Rule} :
      ¬HasArrow left → ¬HasArrow right → Spaced left [rule.left] → rule.left ∉ reserved →
      Alternatives right rule.rights → RuleLine (left ++ '-' :: '>' :: right) rule

/-- A line without an arrow that begins with a bar, maybe behind blanks, and has alternatives behind it. -/
inductive ContinuationLine : List Char → List (List String) → Prop
  | intro {lead text : List Char} {rights : List (List String)} :
      Blank lead → ¬HasArrow text → Alternatives text rights → ContinuationLine (lead ++ '|' :: text) rights

/-! ## Blanks around a text -/

section Blanks

variable {cs lead core trail left right text rest word : List Char} {c : Char} {names : List String}
  {rights : List (List String)} {rule : Rule}

theorem Blank.append (hlead : Blank lead) (htrail : Blank trail) : Blank (lead ++ trail) :=
  List.forall_mem_append.mpr ⟨hlead, htrail⟩

/-- A character that is not blank stands in no blanks. -/
theorem Blank.notMem (h : Blank cs) (hc : isBlank c = false) : c ∉ cs := by
  intro hmem
  rw [h c hmem] at hc
  cases hc

theorem not_blank_append_cons (left right : List Char) (hc : isBlank c = false) : ¬Blank (left ++ c :: right) :=
  fun h => h.notMem hc (List.mem_append_right left List.mem_cons_self)

/-- A character that is not blank stands where it stood before blanks were added. -/
theorem exists_of_blank_append (hlead : Blank lead) (htrail : Blank trail) (hc : isBlank c = false)
    (h : lead ++ core ++ trail = left ++ c :: right) :
    ∃ left' right', left = lead ++ left' ∧ right = right' ++ trail ∧ core = left' ++ c :: right' := by
  rcases append_eq_append_cons h with ⟨right', hcore, rfl⟩ | ⟨n, rfl, -⟩
  · rcases append_eq_append_cons hcore with ⟨n, rfl, -⟩ | ⟨left', rfl, rfl⟩
    · exact absurd hlead (not_blank_append_cons left n hc)
    · exact ⟨left', right', rfl, rfl, rfl⟩
  · exact absurd htrail (not_blank_append_cons n right hc)

/-! ### Trimming -/

/-- A text is what trimming leaves of it, between blanks. -/
theorem exists_append_trim (cs : List Char) :
    ∃ lead trail, Blank lead ∧ Blank trail ∧ cs = lead ++ trim cs ++ trail := by
  have hback := List.takeWhile_append_dropWhile (p := isBlank) (l := (cs.dropWhile isBlank).reverse)
  refine ⟨cs.takeWhile isBlank, ((cs.dropWhile isBlank).reverse.takeWhile isBlank).reverse, ?_, ?_, ?_⟩
  · exact List.all_eq_true.mp List.all_takeWhile
  · exact fun c hc => List.all_eq_true.mp List.all_takeWhile c (List.mem_reverse.mp hc)
  · rw [trim, List.append_assoc, ← List.reverse_append, hback, List.reverse_reverse, List.takeWhile_append_dropWhile]

/-- Nothing is left of blanks, and of nothing else. -/
theorem trim_eq_nil_iff : trim cs = [] ↔ Blank cs := by
  refine ⟨fun h => ?_, fun h => ?_⟩
  · obtain ⟨lead, trail, hlead, htrail, heq⟩ := exists_append_trim cs
    rw [heq, h, List.append_nil]
    exact hlead.append htrail
  · by_contra hne
    obtain ⟨c, hhead, hc⟩ := (framed_trim hne).first
    exact h.notMem hc ((trim_isInfix cs).mem (List.mem_of_head? hhead))

/-- Trimming removes blanks that were added. -/
theorem trim_blank_append (hlead : Blank lead) (htrail : Blank trail) : trim (lead ++ cs ++ trail) = trim cs := by
  by_cases hne : trim cs = []
  · rw [hne, trim_eq_nil_iff]
    exact (hlead.append (trim_eq_nil_iff.mp hne)).append htrail
  · obtain ⟨before, behind, hbefore, hbehind, heq⟩ := exists_append_trim cs
    have htext : lead ++ cs ++ trail = (lead ++ before) ++ trim cs ++ (behind ++ trail) := by
      conv_lhs => rw [heq]
      simp only [List.append_assoc]
    rw [htext, trim_append (framed_trim hne) (hlead.append hbefore) (hbehind.append htrail)]

/-- Blanks at the ends make no words. -/
theorem words_trim (cs : List Char) : words (trim cs) = words cs := by
  obtain ⟨lead, trail, hlead, htrail, heq⟩ := exists_append_trim cs
  conv_rhs => rw [heq]
  exact (words_append_of_blank hlead htrail).symm

/-- What does not depend on blanks around a text holds of what trimming leaves or not at all. -/
theorem trim_iff {motive : List Char → Prop}
    (h : ∀ lead core trail, Blank lead → Blank trail → (motive (lead ++ core ++ trail) ↔ motive core)) :
    motive (trim cs) ↔ motive cs := by
  obtain ⟨lead, trail, hlead, htrail, heq⟩ := exists_append_trim cs
  conv_rhs => rw [heq]
  exact (h lead (trim cs) trail hlead htrail).symm

/-! ### Arrows -/

/-- Blanks at the ends have no part in an arrow. -/
theorem hasArrow_blank_iff (hlead : Blank lead) (htrail : Blank trail) :
    HasArrow (lead ++ core ++ trail) ↔ HasArrow core := by
  refine ⟨fun h => ?_, fun h => h.trans ⟨lead, trail, rfl⟩⟩
  rcases hasArrow_append (h.of_append (htrail.notMem (by decide))) with h | h | ⟨h, -⟩
  · exact absurd h.mem_right (hlead.notMem (by decide))
  · exact h
  · exact absurd (List.mem_of_getLast? h) (hlead.notMem (by decide))

theorem hasArrow_append_iff (hlead : Blank lead) : HasArrow (lead ++ core) ↔ HasArrow core := by
  rw [← List.append_nil (lead ++ core), hasArrow_blank_iff hlead (List.forall_mem_nil _)]

/-- A bar behind blanks is no part of an arrow. -/
theorem not_hasArrow_bar (hlead : Blank lead) (h : ¬HasArrow text) : ¬HasArrow (lead ++ '|' :: text) := by
  rw [hasArrow_append_iff hlead, hasArrow_cons, not_or]
  exact ⟨by simp, h⟩

/-! ### Names -/

/-- The first word ends in front of the first blank. -/
theorem words_word_append (hword : IsWord word) (hrest : ∀ c ∈ rest.head?, isBlank c = true) :
    words (word ++ rest) = word :: words rest := by
  cases rest with
  | nil =>
    rw [List.append_nil, hword.words_eq]
    rfl
  | cons c rest =>
    have hc := hrest c rfl
    rw [words_append_blank _ _ hc, words_cons_blank hc, hword.words_eq]
    rfl

/-- The first word of a text has blanks in front of it, and a blank behind it unless it ends the text. -/
theorem exists_of_words_eq_cons {later : List (List Char)} (h : words cs = word :: later) :
    ∃ lead rest, Blank lead ∧ IsWord word ∧ (∀ c ∈ rest.head?, isBlank c = true) ∧ cs = lead ++ word ++ rest ∧
      words rest = later := by
  induction cs with
  | nil => cases h
  | cons c cs ih =>
    cases hc : isBlank c with
    -- a blank belongs to the lead
    | true =>
      rw [words_cons_blank hc] at h
      obtain ⟨lead, rest, hlead, hword, hrest, rfl, hlater⟩ := ih h
      exact ⟨c :: lead, rest, List.forall_mem_cons.mpr ⟨hc, hlead⟩, hword, hrest, rfl, hlater⟩
    -- at any other character the first word begins, and it ends with the next blank
    | false =>
      have hsplit := List.takeWhile_append_dropWhile (p := (!isBlank ·)) (l := c :: cs)
      have hword : IsWord ((c :: cs).takeWhile (!isBlank ·)) := by
        refine ⟨by simp [hc], fun d hd => ?_⟩
        simpa using List.all_eq_true.mp List.all_takeWhile d hd
      have hrest : ∀ d ∈ ((c :: cs).dropWhile (!isBlank ·)).head?, isBlank d = true := by
        intro d hd
        have hhead := List.head?_dropWhile_not (!isBlank ·) (c :: cs)
        rw [Option.mem_def.mp hd] at hhead
        simpa using hhead
      rw [← hsplit, words_word_append hword hrest] at h
      obtain ⟨rfl, rfl⟩ := List.cons.inj h
      exact ⟨[], _, List.forall_mem_nil _, hword, hrest, hsplit.symm, rfl⟩

/-- **A text consists of the names that are found by cutting it at blanks.** -/
theorem spaced_iff : Spaced cs names ↔ words cs = names.map String.toList := by
  refine ⟨fun h => ?_, fun h => ?_⟩
  · induction h with
    | blank h => exact words_of_blank h
    | @name lead rest name names hlead hname hrest _ ih =>
      have hwords : words (lead ++ (name.toList ++ rest) ++ []) = words (name.toList ++ rest) :=
        words_append_of_blank hlead (List.forall_mem_nil _)
      rw [List.append_nil, ← List.append_assoc] at hwords
      rw [hwords, words_word_append hname hrest, ih, List.map_cons]
  · induction names generalizing cs with
    | nil =>
      refine .blank fun c hc => ?_
      by_contra hne
      exact words_ne_nil hc (by simpa using hne) h
    | cons name names ih =>
      obtain ⟨lead, rest, hlead, hword, hrest, rfl, hlater⟩ := exists_of_words_eq_cons h
      exact .name hlead hword hrest (ih hlater)

/-- Blanks at the ends do not change which names are written. -/
theorem spaced_blank_iff (hlead : Blank lead) (htrail : Blank trail) :
    Spaced (lead ++ core ++ trail) names ↔ Spaced core names := by
  rw [spaced_iff, spaced_iff, words_append_of_blank hlead htrail]

theorem spaced_append_iff (hlead : Blank lead) : Spaced (lead ++ core) names ↔ Spaced core names := by
  rw [← List.append_nil (lead ++ core), spaced_blank_iff hlead (List.forall_mem_nil _)]

/-! ### Alternatives -/

/-- There are no alternatives in blanks, since each has a name. -/
theorem Alternatives.not_blank (h : Alternatives text rights) : ¬Blank text := by
  have hfirst : ∀ {text : List Char} {right : List String}, Spaced text right → right ≠ [] → ¬Blank text := by
    intro text right hspaced hne hblank
    rw [spaced_iff, words_of_blank hblank, eq_comm, List.map_eq_nil_iff] at hspaced
    exact hne hspaced
  cases h with
  | last _ hspaced hne => exact hfirst hspaced hne
  | more _ hspaced hne _ => exact fun hblank => hfirst hspaced hne (List.forall_mem_append.mp hblank).1

/-- Blanks around the text stand around the first alternative and the last one. -/
theorem Alternatives.of_blank (hlead : Blank lead) (htrail : Blank trail)
    (h : Alternatives (lead ++ core ++ trail) rights) : Alternatives core rights := by
  generalize htext : lead ++ core ++ trail = text at h
  induction h generalizing lead core with
  | last hbar hspaced hne =>
    subst htext
    refine .last (fun hmem => hbar ?_) ((spaced_blank_iff hlead htrail).mp hspaced) hne
    exact List.mem_append_left _ (List.mem_append_right _ hmem)
  | @more first rest right rights hbar hspaced hne _ ih =>
    obtain ⟨first', rest', rfl, rfl, rfl⟩ := exists_of_blank_append hlead htrail (by decide) htext
    refine .more (fun hmem => hbar (List.mem_append_right _ hmem)) ((spaced_append_iff hlead).mp hspaced) hne ?_
    exact ih (List.forall_mem_nil _) rfl

theorem Alternatives.blank (hlead : Blank lead) (htrail : Blank trail) (h : Alternatives core rights) :
    Alternatives (lead ++ core ++ trail) rights := by
  induction h generalizing lead with
  | last hbar hspaced hne =>
    refine .last ?_ ((spaced_blank_iff hlead htrail).mpr hspaced) hne
    simp [hbar, hlead.notMem (c := '|') (by decide), htrail.notMem (c := '|') (by decide)]
  | @more first rest right rights hbar hspaced hne _ ih =>
    have htext : lead ++ (first ++ '|' :: rest) ++ trail = (lead ++ first) ++ '|' :: ([] ++ rest ++ trail) := by simp
    rw [htext]
    refine .more ?_ ((spaced_append_iff hlead).mpr hspaced) hne (ih (List.forall_mem_nil _))
    simp [hbar, hlead.notMem (c := '|') (by decide)]

/-- Blanks at the ends do not change which alternatives are written. -/
theorem alternatives_blank_iff (hlead : Blank lead) (htrail : Blank trail) :
    Alternatives (lead ++ core ++ trail) rights ↔ Alternatives core rights :=
  ⟨.of_blank hlead htrail, .blank hlead htrail⟩

/-! ### Lines -/

/-- Blanks at the ends do not change which rule is written. -/
theorem ruleLine_blank_iff (hlead : Blank lead) (htrail : Blank trail) :
    RuleLine (lead ++ core ++ trail) rule ↔ RuleLine core rule := by
  have hnone : Blank ([] : List Char) := List.forall_mem_nil _
  refine ⟨fun h => ?_, fun h => ?_⟩
  · generalize htext : lead ++ core ++ trail = text at h
    obtain @⟨left, right, rule, hleft, hright, hname, hreserved, hrights⟩ := h
    obtain ⟨left', arrow, rfl, harrow, rfl⟩ := exists_of_blank_append hlead htrail (by decide) htext
    -- the arrow is whole, since no blank is part of it
    obtain ⟨right', rfl, rfl⟩ : ∃ right', arrow = '>' :: right' ∧ right = right' ++ trail := by
      cases arrow with
      | nil =>
        have hmem : '>' ∈ trail := by
          rw [← List.nil_append trail, ← harrow]
          exact List.mem_cons_self
        exact absurd hmem (htrail.notMem (by decide))
      | cons c arrow =>
        obtain ⟨rfl, rfl⟩ := List.cons.inj harrow
        exact ⟨arrow, rfl, rfl⟩
    refine .intro (fun h => hleft ?_) (fun h => hright ?_) ((spaced_append_iff hlead).mp hname) hreserved
      (.of_blank hnone htrail hrights)
    · exact h.trans (List.suffix_append lead left').isInfix
    · exact h.trans (List.prefix_append right' trail).isInfix
  · obtain @⟨left, right, rule, hleft, hright, hname, hreserved, hrights⟩ := h
    have htext : lead ++ (left ++ '-' :: '>' :: right) ++ trail =
        (lead ++ left ++ []) ++ '-' :: '>' :: ([] ++ right ++ trail) := by simp
    rw [htext]
    exact .intro ((hasArrow_blank_iff hlead hnone).not.mpr hleft) ((hasArrow_blank_iff hnone htrail).not.mpr hright)
      ((spaced_blank_iff hlead hnone).mpr hname) hreserved (hrights.blank hnone htrail)

/-- Blanks at the ends do not change how a line goes on. -/
theorem continuationLine_blank_iff (hlead : Blank lead) (htrail : Blank trail) :
    ContinuationLine (lead ++ core ++ trail) rights ↔ ContinuationLine core rights := by
  have hnone : Blank ([] : List Char) := List.forall_mem_nil _
  refine ⟨fun h => ?_, fun h => ?_⟩
  · generalize htext : lead ++ core ++ trail = line at h
    obtain @⟨before, text, rights, hbefore, harrow, hrights⟩ := h
    obtain ⟨before', text', rfl, rfl, rfl⟩ := exists_of_blank_append hlead htrail (by decide) htext
    refine .intro (List.forall_mem_append.mp hbefore).2 (fun h => harrow ?_) (.of_blank hnone htrail hrights)
    exact h.trans (List.prefix_append text' trail).isInfix
  · obtain @⟨before, text, rights, hbefore, harrow, hrights⟩ := h
    have htext : lead ++ (before ++ '|' :: text) ++ trail = (lead ++ before) ++ '|' :: ([] ++ text ++ trail) := by simp
    rw [htext]
    exact .intro (hlead.append hbefore) ((hasArrow_blank_iff hnone htrail).not.mpr harrow) (hrights.blank hnone htrail)

end Blanks

/-! ## What lines have in common -/

section Lines

variable {line lead text : List Char} {rights : List (List String)} {rule : Rule}

theorem RuleLine.hasArrow (h : RuleLine line rule) : HasArrow line := by
  obtain @⟨left, right, -, -, -, -, -, -⟩ := h
  exact ⟨left, right, by simp⟩

/-- A line that goes on has no arrow, so that no line is of both kinds. -/
theorem ContinuationLine.not_hasArrow (h : ContinuationLine line rights) : ¬HasArrow line := by
  obtain @⟨lead, text, -, hlead, harrow, -⟩ := h
  exact not_hasArrow_bar hlead harrow

theorem RuleLine.not_blank (h : RuleLine line rule) : ¬Blank line :=
  fun hblank => hblank.notMem (by decide) h.hasArrow.mem_right

theorem ContinuationLine.not_blank (h : ContinuationLine line rights) : ¬Blank line := by
  obtain @⟨lead, text, -, -, -, -⟩ := h
  exact not_blank_append_cons lead text (by decide)

end Lines

/-! ## What reading finds -/

namespace RuleText

variable {previous : Option String} {line side text : List Char} {name : String} {right : List String}
  {rights : List (List String)} {rule : Rule}

/-- **A left side is read** if it is one name that is not reserved. -/
theorem readLeft_eq_ok_iff : readLeft side = .ok name ↔ Spaced side [name] ∧ name ∉ reserved := by
  rw [spaced_iff, ← words_trim, List.map_singleton]
  refine ⟨fun h => ?_, ?_⟩
  -- what passes all three tests is one word that is not reserved
  · simp only [readLeft] at h
    split at h
    · cases h
    next hempty =>
    split at h
    · cases h
    next hwords =>
    split at h
    · cases h
    next hreserved =>
    obtain rfl := Except.ok.inj h
    rw [not_not] at hwords
    have hword := (framed_trim (by simpa using hempty)).isWord hwords
    rw [String.toList_ofList]
    exact ⟨hword.words_eq, hreserved⟩
  -- one word that is not reserved passes them
  · rintro ⟨hwords, hreserved⟩
    have hne : trim side ≠ [] := by
      intro hnil
      rw [hnil] at hwords
      cases hwords
    have hword := (framed_trim hne).isWord (by rw [hwords]; rfl)
    have htrim : trim side = name.toList := List.singleton_inj.mp (hword.words_eq.symm.trans hwords)
    rw [htrim] at hwords hne
    simp only [readLeft, htrim, hwords]
    simp [hne, hreserved]

/-- **An alternative is read** if it has names. -/
theorem readAlternative_eq_ok_iff : readAlternative text = .ok right ↔ Spaced text right ∧ right ≠ [] := by
  have hnames : ∀ words : List (List Char), words.map String.ofList = right ↔ words = right.map String.toList := by
    intro words
    refine ⟨?_, ?_⟩
    · rintro rfl
      simp [Function.comp_def]
    · rintro rfl
      simp [Function.comp_def]
  rw [spaced_iff, readAlternative]
  cases hwords : words text with
  | nil =>
    refine ⟨fun h => (by cases h), fun ⟨h, hne⟩ => absurd (List.map_eq_nil_iff.mp h.symm) hne⟩
  | cons word later =>
    rw [Except.ok.injEq, hnames, iff_self_and]
    rintro h rfl
    cases h

/-- Pieces that are read one by one are the alternatives of what they were cut from. -/
theorem alternatives_of_mapM {pieces : List (List Char)} (hne : pieces ≠ [])
    (hbar : ∀ piece ∈ pieces, '|' ∉ piece) (h : pieces.mapM readAlternative = .ok rights) :
    Alternatives (['|'].intercalate pieces) rights := by
  induction pieces generalizing rights with
  | nil => exact absurd rfl hne
  | cons piece pieces ih =>
    obtain ⟨hpiece, hbar⟩ := List.forall_mem_cons.mp hbar
    rw [List.mapM_cons] at h
    obtain ⟨right, hright, h⟩ := bind_eq_ok.mp h
    obtain ⟨later, hlater, h⟩ := bind_eq_ok.mp h
    obtain rfl := Except.ok.inj h
    obtain ⟨hspaced, hright⟩ := readAlternative_eq_ok_iff.mp hright
    cases pieces with
    | nil =>
      obtain rfl := Except.ok.inj hlater
      rw [List.intercalate_singleton]
      exact .last hpiece hspaced hright
    | cons next pieces =>
      rw [List.intercalate_cons_cons, List.append_assoc, List.singleton_append]
      exact .more hpiece hspaced hright (ih (List.cons_ne_nil next pieces) hbar hlater)

/-- **A text consists of the alternatives that are found by cutting it at bars.** -/
theorem readAlternatives_eq_ok_iff : readAlternatives text = .ok rights ↔ Alternatives text rights := by
  refine ⟨fun h => ?_, fun h => ?_⟩
  -- the pieces between bars have no bar
  · rw [readAlternatives] at h
    split at h
    · cases h
    have hjoined : ['|'].intercalate (text.splitOn '|') = text := List.intercalate_splitOn '|'
    rw [← hjoined]
    refine alternatives_of_mapM (List.splitOn_ne_nil '|' text) (fun piece hpiece hmem => ?_) h
    rw [List.splitOn_eq_splitOnP] at hpiece
    cases (infix_of_mem_splitOnP hpiece).2 '|' hmem
  -- alternatives are cut at their bars into themselves
  · have hpieces : (text.splitOn '|').mapM readAlternative = .ok rights := by
      induction h with
      | last hbar hspaced hne =>
        rw [List.splitOn_eq_singleton hbar, List.mapM_cons, readAlternative_eq_ok_iff.mpr ⟨hspaced, hne⟩]
        rfl
      | more hbar hspaced hne _ ih =>
        rw [List.splitOn_append_cons_self_of_not_mem hbar, List.mapM_cons,
          readAlternative_eq_ok_iff.mpr ⟨hspaced, hne⟩, ih]
        rfl
    have hempty : text.isEmpty ≠ true := by
      intro hempty
      rw [List.isEmpty_iff.mp hempty] at h
      exact h.not_blank (List.forall_mem_nil _)
    rw [readAlternatives, if_neg hempty, hpieces]

/-- **Alternatives are read** as they are written. -/
theorem readAlternatives_trim_iff : readAlternatives (trim text) = .ok rights ↔ Alternatives text rights := by
  rw [readAlternatives_eq_ok_iff]
  exact trim_iff (motive := (Alternatives · rights)) fun _ _ _ hlead htrail => alternatives_blank_iff hlead htrail

/-- A line that is read is a rule line or a continuation line. -/
theorem line_of_readLine (h : readLine previous line = .ok rule) :
    RuleLine line rule ∨ ContinuationLine line rule.rights ∧ previous = some rule.left := by
  obtain ⟨⟨left, text⟩, hsides, h⟩ := bind_eq_ok.mp h
  obtain ⟨rights, hrights, h⟩ := bind_eq_ok.mp h
  obtain rfl := Except.ok.inj h
  have hpieces : ∀ piece ∈ splitArrows line, ¬HasArrow piece :=
    fun piece hpiece => not_hasArrow_of_mem_splitArrows hpiece
  have hjoined := intercalate_splitArrows line
  unfold readSides at hsides
  split at hsides
  -- one arrow: a rule
  · next first second hcut =>
    rw [hcut] at hpieces hjoined
    obtain ⟨name, hname, heq⟩ := map_eq_ok.mp hsides
    obtain ⟨rfl, rfl⟩ := Prod.mk.inj heq
    obtain ⟨hspaced, hreserved⟩ := readLeft_eq_ok_iff.mp hname
    rw [List.intercalate_cons_cons, List.intercalate_singleton, List.append_assoc] at hjoined
    refine Or.inl (hjoined ▸ .intro (hpieces first (by simp)) (hpieces second (by simp)) hspaced hreserved ?_)
    exact readAlternatives_trim_iff.mp hrights
  -- no arrow: a line that goes on, if it begins with a bar behind some left side
  · next whole hcut =>
    rw [hcut] at hpieces hjoined
    rw [List.intercalate_singleton] at hjoined
    subst hjoined
    split at hsides
    · next right name =>
      obtain ⟨rfl, rfl⟩ := Prod.mk.inj (Except.ok.inj hsides)
      refine Or.inr ⟨.intro (List.forall_mem_nil _) (fun h => ?_) (readAlternatives_trim_iff.mp hrights), rfl⟩
      exact hpieces _ List.mem_cons_self (List.infix_cons h)
    all_goals cases hsides
  -- several arrows
  · cases hsides

/-- A line with a rule is read as this rule, whatever stands before it. -/
theorem readLine_of_ruleLine (h : RuleLine line rule) : readLine previous line = .ok rule := by
  obtain @⟨left, right, rule, hleft, hright, hname, hreserved, hrights⟩ := h
  have hsides : readSides previous (left ++ '-' :: '>' :: right) = .ok (rule.left, trim right) := by
    unfold readSides
    rw [splitArrows_arrow hleft hright]
    exact map_eq_ok.mpr ⟨_, readLeft_eq_ok_iff.mpr ⟨hname, hreserved⟩, rfl⟩
  exact bind_eq_ok.mpr ⟨_, hsides, bind_eq_ok.mpr ⟨_, readAlternatives_trim_iff.mpr hrights, rfl⟩⟩

/-- A line that goes on gives its alternatives to the left side before it. -/
theorem readLine_of_continuationLine (hline : Framed line) (h : ContinuationLine line rights) :
    readLine (some name) line = .ok ⟨name, rights⟩ := by
  have hcut := splitArrows_of_not_hasArrow h.not_hasArrow
  obtain @⟨lead, text, rights, hlead, -, hrights⟩ := h
  -- the bar comes first, since there are no blanks in front of it
  obtain rfl : lead = [] := by
    cases lead with
    | nil => rfl
    | cons c lead =>
      obtain ⟨d, hd, hvisible⟩ := hline.first
      obtain rfl : c = d := Option.some.inj hd
      exact absurd List.mem_cons_self (hlead.notMem hvisible)
  have hsides : readSides (some name) ([] ++ '|' :: text) = .ok (name, trim text) := by
    unfold readSides
    rw [hcut]
    rfl
  exact bind_eq_ok.mpr ⟨_, hsides, bind_eq_ok.mpr ⟨_, readAlternatives_trim_iff.mpr hrights, rfl⟩⟩

/-- **Reading a line finds what it consists of.** -/
theorem readLine_trim_iff (hline : ¬Blank line) :
    readLine previous (trim line) = .ok rule ↔
      RuleLine line rule ∨ ContinuationLine line rule.rights ∧ previous = some rule.left := by
  have hframed := framed_trim fun h => hline (trim_eq_nil_iff.mp h)
  have htrim : RuleLine (trim line) rule ∨ ContinuationLine (trim line) rule.rights ∧ previous = some rule.left ↔
      RuleLine line rule ∨ ContinuationLine line rule.rights ∧ previous = some rule.left :=
    trim_iff (motive := fun cs => RuleLine cs rule ∨ ContinuationLine cs rule.rights ∧ previous = some rule.left)
      fun _ _ _ hlead htrail => or_congr (ruleLine_blank_iff hlead htrail)
        (and_congr_left fun _ => continuationLine_blank_iff hlead htrail)
  rw [← htrim]
  refine ⟨line_of_readLine, ?_⟩
  rintro (h | ⟨h, rfl⟩)
  · exact readLine_of_ruleLine h
  · exact readLine_of_continuationLine hframed h

end RuleText

end PredictiveGrammar
