import PredictiveGrammar.Proofs.LineGrammar

/-!
# Edits of one line

What is left of a line when its layout changes. Blanks between two parts of a line can be other blanks
(`readAlike_respace`), since nothing of a line goes across them, and blanks can be added at its end
(`readAlike_append`). A line can be broken in front of a bar behind which alternatives stand: the alternatives of the
two parts are those of the line (`RuleLine.broken`, `ContinuationLine.broken`). And the bar at the beginning of a
continuation line can be replaced by a left side and an arrow (`ContinuationLine.spelledOut`).
-/

namespace PredictiveGrammar

open Text

/-- Blanks that keep apart what stands on their two sides. -/
structure Gap (cs : List Char) : Prop where
  /-- there is one -/
  ne_nil : cs ≠ []
  /-- and nothing else -/
  blank : Blank cs

/-- What one line is, the other one is too. -/
structure ReadAlike (line line' : List Char) : Prop where
  /-- it is blank -/
  blank : Blank line → Blank line'
  /-- it is the line of a rule -/
  rule : ∀ rule, RuleLine line rule → RuleLine line' rule
  /-- it continues a rule with some alternatives -/
  continuation : ∀ rights, ContinuationLine line rights → ContinuationLine line' rights

/-! ## Blanks at the end -/

/-- Blanks behind a line do not matter. -/
theorem readAlike_append {trail : List Char} (line : List Char) (htrail : Blank trail) :
    ReadAlike line (line ++ trail) where
  blank := fun h => h.append htrail
  rule := fun _ => (ruleLine_blank_iff (List.forall_mem_nil _) htrail).mpr
  continuation := fun _ => (continuationLine_blank_iff (List.forall_mem_nil _) htrail).mpr

/-! ## Other blanks between two parts -/

section Respacing

variable {left gap gap' right before behind : List Char} {c : Char} {names : List String} {rights : List (List String)}
  {rule : Rule}

theorem append_cons_gap (before : List Char) (c : Char) (rest gap right : List Char) :
    before ++ c :: rest ++ gap ++ right = before ++ c :: (rest ++ gap ++ right) := by simp

/-- No word goes over a gap. -/
theorem words_append_gap (hgap : Gap gap) : words (left ++ gap ++ right) = words left ++ words right := by
  obtain ⟨c, gap, rfl⟩ := List.exists_cons_of_ne_nil hgap.ne_nil
  obtain ⟨hc, hblank⟩ := List.forall_mem_cons.mp hgap.blank
  have hright : words (gap ++ right ++ []) = words right := words_append_of_blank hblank (List.forall_mem_nil _)
  rw [List.append_nil] at hright
  rw [List.append_assoc, List.cons_append, words_append_blank _ _ hc, hright]

/-- No arrow goes across a gap. -/
theorem hasArrow_gap_iff (hgap : Gap gap) : HasArrow (left ++ gap ++ right) ↔ HasArrow left ∨ HasArrow right := by
  refine ⟨fun h => ?_, ?_⟩
  · rcases hasArrow_append h with h | h | ⟨h, -⟩
    · exact Or.inl (h.of_append (hgap.blank.notMem (by decide)))
    · exact Or.inr h
    · rw [List.getLast?_append_of_ne_nil _ hgap.ne_nil] at h
      exact absurd (List.mem_of_getLast? h) (hgap.blank.notMem (by decide))
  · rintro (h | h)
    · exact h.trans ⟨[], gap ++ right, by simp⟩
    · exact h.trans (List.suffix_append _ right).isInfix

/-- A gap has blanks only. -/
theorem mem_gap_iff (hgap : Gap gap) (hc : isBlank c = false) : c ∈ left ++ gap ++ right ↔ c ∈ left ∨ c ∈ right := by
  simp [hgap.blank.notMem hc]

/-- A character that is not blank stands on one side of a gap. -/
theorem exists_of_gap_append (hgap : Gap gap) (hc : isBlank c = false)
    (h : left ++ gap ++ right = before ++ c :: behind) :
    (∃ rest, left = before ++ c :: rest ∧ behind = rest ++ gap ++ right) ∨
      ∃ rest, right = rest ++ c :: behind ∧ before = left ++ gap ++ rest := by
  rcases append_eq_append_cons h with ⟨n, hstart, rfl⟩ | ⟨rest, hright, hbefore⟩
  · rcases append_eq_append_cons hstart with ⟨rest, hleft, rfl⟩ | ⟨n, rfl, -⟩
    · exact Or.inl ⟨rest, hleft, rfl⟩
    · exact absurd hgap.blank (not_blank_append_cons _ _ hc)
  · exact Or.inr ⟨rest, hright, hbefore⟩

theorem Blank.respace (hgap' : Gap gap') (h : Blank (left ++ gap ++ right)) : Blank (left ++ gap' ++ right) := by
  obtain ⟨hstart, hright⟩ := List.forall_mem_append.mp h
  exact (Blank.append (List.forall_mem_append.mp hstart).1 hgap'.blank).append hright

/-- Another gap in the same place keeps the names that are written. -/
theorem Spaced.respace (hgap : Gap gap) (hgap' : Gap gap') (h : Spaced (left ++ gap ++ right) names) :
    Spaced (left ++ gap' ++ right) names := by
  rw [spaced_iff, words_append_gap hgap] at h
  rw [spaced_iff, words_append_gap hgap', h]

/-- Another gap keeps the alternatives, whichever of them it stands in or between. -/
theorem Alternatives.respace (hgap : Gap gap) (hgap' : Gap gap') (h : Alternatives (left ++ gap ++ right) rights) :
    Alternatives (left ++ gap' ++ right) rights := by
  have hbar : isBlank '|' = false := by decide
  generalize htext : left ++ gap ++ right = text at h
  induction h generalizing left right with
  | last hnone hspaced hne =>
    subst htext
    rw [mem_gap_iff hgap hbar] at hnone
    exact .last ((mem_gap_iff hgap' hbar).not.mpr hnone) (hspaced.respace hgap hgap') hne
  | @more text rest first rights hnone hspaced hne hrest ih =>
    rcases exists_of_gap_append hgap hbar htext with ⟨later, rfl, rfl⟩ | ⟨earlier, rfl, rfl⟩
    · rw [append_cons_gap]
      exact .more hnone hspaced hne (ih rfl)
    · rw [mem_gap_iff hgap hbar] at hnone
      rw [← List.append_assoc]
      exact .more ((mem_gap_iff hgap' hbar).not.mpr hnone) (hspaced.respace hgap hgap') hne hrest

/-- Another gap keeps the rule, on either side of the arrow. -/
theorem RuleLine.respace (hgap : Gap gap) (hgap' : Gap gap') (h : RuleLine (left ++ gap ++ right) rule) :
    RuleLine (left ++ gap' ++ right) rule := by
  generalize hline : left ++ gap ++ right = line at h
  obtain @⟨before, behind, rule, hbefore, hbehind, hname, hreserved, hrights⟩ := h
  rcases exists_of_gap_append hgap (by decide) hline with ⟨rest, rfl, hrest⟩ | ⟨rest, rfl, rfl⟩
  · -- the arrow is whole, since no blank is part of it
    cases rest with
    | nil =>
      obtain ⟨c, gap, rfl⟩ := List.exists_cons_of_ne_nil hgap.ne_nil
      obtain ⟨rfl, -⟩ := List.cons.inj hrest
      exact absurd List.mem_cons_self (hgap.blank.notMem (by decide))
    | cons c rest =>
      rw [List.cons_append, List.cons_append] at hrest
      obtain ⟨rfl, rfl⟩ := List.cons.inj hrest
      rw [hasArrow_gap_iff hgap] at hbehind
      rw [append_cons_gap]
      exact .intro hbefore ((hasArrow_gap_iff hgap').not.mpr hbehind) hname hreserved (hrights.respace hgap hgap')
  · rw [hasArrow_gap_iff hgap] at hbefore
    rw [← List.append_assoc]
    exact .intro ((hasArrow_gap_iff hgap').not.mpr hbefore) hbehind (hname.respace hgap hgap') hreserved hrights

/-- Another gap keeps what a line goes on with. -/
theorem ContinuationLine.respace (hgap : Gap gap) (hgap' : Gap gap')
    (h : ContinuationLine (left ++ gap ++ right) rights) : ContinuationLine (left ++ gap' ++ right) rights := by
  generalize hline : left ++ gap ++ right = line at h
  obtain @⟨lead, text, rights, hlead, harrow, hrights⟩ := h
  rcases exists_of_gap_append hgap (by decide) hline with ⟨rest, rfl, rfl⟩ | ⟨rest, rfl, rfl⟩
  · rw [hasArrow_gap_iff hgap] at harrow
    rw [append_cons_gap]
    exact .intro hlead ((hasArrow_gap_iff hgap').not.mpr harrow) (hrights.respace hgap hgap')
  · rw [← List.append_assoc]
    exact .intro (hlead.respace hgap') harrow hrights

/-- **Blanks between two parts of a line can be other blanks.** -/
theorem readAlike_respace (hgap : Gap gap) (hgap' : Gap gap') :
    ReadAlike (left ++ gap ++ right) (left ++ gap' ++ right) where
  blank := fun h => h.respace hgap'
  rule := fun _ => RuleLine.respace hgap hgap'
  continuation := fun _ => ContinuationLine.respace hgap hgap'

end Respacing

/-! ## A line broken in front of a bar -/

section Breaking

variable {start rest : List Char} {rights : List (List String)} {rule : Rule}

/-- A bar stands between the alternatives in front of it and those behind it. -/
theorem Alternatives.broken (h : Alternatives (start ++ '|' :: rest) rights) :
    ∃ first second, rights = first ++ second ∧ Alternatives start first ∧ Alternatives rest second := by
  generalize htext : start ++ '|' :: rest = text at h
  induction h generalizing start with
  | last hnone =>
    subst htext
    exact absurd (by simp) hnone
  | @more text later right rights hnone hspaced hne hrights ih =>
    rcases append_eq_append_cons htext.symm with ⟨n, rfl, -⟩ | ⟨n, hn, rfl⟩
    · exact absurd (by simp) hnone
    · cases n with
      | nil =>
        obtain ⟨-, rfl⟩ := List.cons.inj hn
        rw [List.append_nil]
        exact ⟨[right], rights, rfl, .last hnone hspaced hne, hrights⟩
      | cons c n =>
        obtain ⟨rfl, hlater⟩ := List.cons.inj hn
        obtain ⟨first, second, rfl, hfirst, hsecond⟩ := ih hlater.symm
        exact ⟨right :: first, second, rfl, .more hnone hspaced hne hfirst, hsecond⟩

/-- **A rule line broken in front of a bar** behind its arrow is a rule line and a continuation line. -/
theorem RuleLine.broken (h : RuleLine (start ++ '|' :: rest) rule) (harrow : HasArrow start) :
    ∃ first second, rule.rights = first ++ second ∧ RuleLine start ⟨rule.left, first⟩ ∧
      ContinuationLine ('|' :: rest) second := by
  generalize hline : start ++ '|' :: rest = line at h
  obtain @⟨before, behind, rule, hbefore, hbehind, hname, hreserved, hrights⟩ := h
  rcases append_eq_append_cons hline with ⟨n, rfl, hn⟩ | ⟨n, -, rfl⟩
  · cases n with
    | nil => cases hn
    | cons c n =>
      obtain ⟨rfl, rfl⟩ := List.cons.inj hn
      obtain ⟨first, second, heq, hfirst, hsecond⟩ := hrights.broken
      have hleft : ¬HasArrow n := fun h => hbehind (h.trans (List.prefix_append n _).isInfix)
      have hright : ¬HasArrow rest := fun h => hbehind (h.trans ⟨n ++ ['|'], [], by simp⟩)
      exact ⟨first, second, heq, .intro hbefore hleft hname hreserved hfirst,
        .intro (List.forall_mem_nil _) hright hsecond⟩
  · exact absurd (harrow.trans (List.prefix_append start n).isInfix) hbefore

/-- **A continuation line broken in front of a bar** other than its first one is two continuation lines. -/
theorem ContinuationLine.broken (h : ContinuationLine (start ++ '|' :: rest) rights) (hbar : '|' ∈ start) :
    ∃ first second, rights = first ++ second ∧ ContinuationLine start first ∧
      ContinuationLine ('|' :: rest) second := by
  generalize hline : start ++ '|' :: rest = line at h
  obtain @⟨lead, text, rights, hlead, harrow, hrights⟩ := h
  rcases append_eq_append_cons hline with ⟨n, rfl, rfl⟩ | ⟨n, -, rfl⟩
  · obtain ⟨first, second, heq, hfirst, hsecond⟩ := hrights.broken
    have hleft : ¬HasArrow n := fun h => harrow (h.trans (List.prefix_append n _).isInfix)
    have hright : ¬HasArrow rest := fun h => harrow (h.trans ⟨n ++ ['|'], [], by simp⟩)
    exact ⟨first, second, heq, .intro hlead hleft hfirst, .intro (List.forall_mem_nil _) hright hsecond⟩
  · exact absurd (List.mem_append_left n hbar) (hlead.notMem (by decide))

end Breaking

/-! ## A left side in front of a continuation -/

section SpellingOut

variable {line lead gap text : List Char} {left : String} {rights : List (List String)} {rule : Rule}

/-- The left side of a line can be written. -/
theorem RuleLine.spellable (h : RuleLine line rule) : Spellable rule.left := by
  obtain @⟨before, behind, rule, hbefore, -, hname, -, -⟩ := h
  obtain ⟨lead, rest, -, hword, -, rfl, -⟩ := exists_of_words_eq_cons (spaced_iff.mp hname)
  exact ⟨hword, fun h => hbefore (h.trans ⟨lead, rest, rfl⟩)⟩

theorem RuleLine.left_notMem_reserved (h : RuleLine line rule) : rule.left ∉ reserved := by
  obtain @⟨_, _, rule, _, _, _, hreserved, _⟩ := h
  exact hreserved

/-- The alternatives of a continuation line stand behind its first bar. -/
theorem ContinuationLine.alternatives (h : ContinuationLine (lead ++ '|' :: text) rights) (hlead : Blank lead) :
    Alternatives text rights := by
  generalize hline : lead ++ '|' :: text = line at h
  obtain @⟨lead', text', rights, hlead', -, hrights⟩ := h
  rcases append_eq_append_cons hline with ⟨n, rfl, -⟩ | ⟨n, hn, rfl⟩
  · exact absurd hlead (not_blank_append_cons lead' n (by decide))
  · cases n with
    | nil =>
      obtain ⟨-, rfl⟩ := List.cons.inj hn
      exact hrights
    | cons c n =>
      obtain ⟨rfl, -⟩ := List.cons.inj hn
      exact absurd hlead' (not_blank_append_cons lead n (by decide))

/-- **A continuation line with a left side and an arrow for its bar** is the line of a rule. -/
theorem ContinuationLine.spelledOut (h : ContinuationLine (lead ++ '|' :: (gap ++ text)) rights) (hlead : Blank lead)
    (hgap : Blank gap) (hleft : Spellable left) (hreserved : left ∉ reserved) :
    RuleLine (left.toList ++ ' ' :: '-' :: '>' :: ' ' :: text) ⟨left, rights⟩ := by
  have hnone : Blank ([] : List Char) := List.forall_mem_nil _
  have hspace : Blank [' '] := List.forall_mem_singleton.mpr (by decide)
  have harrow : ¬HasArrow text := fun harrow => h.not_hasArrow (harrow.trans ⟨lead ++ '|' :: gap, [], by simp⟩)
  have hrights := h.alternatives hlead
  rw [← List.append_nil (gap ++ text), alternatives_blank_iff hgap hnone] at hrights
  have hname : Spaced ([] ++ left.toList ++ [' ']) [left] := by
    rw [spaced_blank_iff hnone hspace, spaced_iff]
    exact hleft.isWord.words_eq
  have hedited : left.toList ++ ' ' :: '-' :: '>' :: ' ' :: text =
      ([] ++ left.toList ++ [' ']) ++ '-' :: '>' :: ([' '] ++ text ++ []) := by simp
  rw [hedited]
  exact .intro ((hasArrow_blank_iff hnone hspace).not.mpr hleft.noArrow)
    ((hasArrow_blank_iff hspace hnone).not.mpr harrow) hname hreserved (hrights.blank hspace hnone)

end SpellingOut

end PredictiveGrammar
