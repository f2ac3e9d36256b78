import PredictiveGrammar.Proofs.ReadRules
import PredictiveGrammar.Report.Rules

/-!
# What is written is read back

The text of writable rules is read as the same rules (`readRules_toPlain`). The proof follows a text through
the cuts that reading makes: at line breaks, at the arrow, at bars, at blanks. Each of them separates what
writing put together there and leaves names whole, which have none of these in them.
-/

namespace PredictiveGrammar

open Text

/-! ## Alternatives -/

/-- The characters of an alternative. -/
def rightText (right : List String) : List Char := [' '].intercalate (right.map String.toList)

/-- The characters of some alternatives. -/
def rightsText (rights : List (List String)) : List Char :=
  [' ', '|', ' '].intercalate (rights.map rightText)

namespace WritableRight

variable {right : List String} (h : WritableRight right)
include h

/-- What holds of the names of an alternative and of texts joined by spaces holds of its text. -/
theorem text_induction {motive : List Char → Prop} (hname : ∀ name ∈ right, motive name.toList)
    (hjoin : ∀ x y, motive x → motive y → motive (x ++ [' '] ++ y)) : motive (rightText right) := by
  refine intercalate_induction (by simpa using h.inhabited) (fun piece hpiece => ?_) hjoin
  obtain ⟨name, hmem, rfl⟩ := List.mem_map.mp hpiece
  exact hname name hmem

theorem framed : Framed (rightText right) :=
  h.text_induction (fun name hname => (h.spellable name hname).isWord.framed)
    fun _ _ hx hy => hx.append hy [' ']

/-- A character other than a space stands in the text of an alternative only if it stands in a name. -/
theorem notMem {c : Char} (hc : ∀ name ∈ right, c ∉ name.toList) (hspace : c ≠ ' ') :
    c ∉ rightText right :=
  h.text_induction (motive := (c ∉ ·)) hc fun x y hx hy => by simp [hx, hy, hspace]

/-- No arrow comes about where names are put together. -/
theorem noArrow : ¬HasArrow (rightText right) := by
  refine not_hasArrow_intercalate (by simpa using h.inhabited) (fun piece hpiece => ?_)
    (by simp) (by simp) (by simp)
  obtain ⟨name, hmem, rfl⟩ := List.mem_map.mp hpiece
  exact (h.spellable name hmem).noArrow

/-- The words of the text are the names. -/
theorem words_text : words (rightText right) = right.map String.toList := by
  apply words_intercalate
  intro word hword
  obtain ⟨name, hmem, rfl⟩ := List.mem_map.mp hword
  exact (h.spellable name hmem).isWord

/-- **An alternative is read back**, whatever blanks stand around it. -/
theorem readAlternative_eq {lead trail : List Char} (hlead : ∀ c ∈ lead, isBlank c = true)
    (htrail : ∀ c ∈ trail, isBlank c = true) :
    RuleText.readAlternative (lead ++ rightText right ++ trail) = .ok right := by
  rw [RuleText.readAlternative, words_append_of_blank hlead htrail, h.words_text]
  cases right with
  | nil => exact absurd rfl h.inhabited
  | cons name right => simp [Function.comp_def]

end WritableRight

/-! ## Alternatives between bars -/

section Rights

variable {rights : List (List String)} (hne : rights ≠ []) (h : ∀ right ∈ rights, WritableRight right)

include hne

/-- What holds of alternatives and passes over a bar between two texts holds of all of them together. -/
theorem rightsText_induction {motive : List Char → Prop}
    (hright : ∀ right ∈ rights, motive (rightText right))
    (hjoin : ∀ x y, motive x → motive y → motive (x ++ [' ', '|', ' '] ++ y)) :
    motive (rightsText rights) := by
  refine intercalate_induction (by simpa using hne) (fun piece hpiece => ?_) hjoin
  obtain ⟨right, hmem, rfl⟩ := List.mem_map.mp hpiece
  exact hright right hmem

include h

theorem framed_rightsText : Framed (rightsText rights) :=
  rightsText_induction hne (fun right hright => (h right hright).framed) fun _ _ hx hy => hx.append hy _

theorem not_hasArrow_rightsText : ¬HasArrow (rightsText rights) := by
  refine not_hasArrow_intercalate (by simpa using hne) (fun piece hpiece => ?_)
    (by simp) (by simp) (by simp)
  obtain ⟨right, hmem, rfl⟩ := List.mem_map.mp hpiece
  exact (h right hmem).noArrow

theorem notMem_rightsText {c : Char} (hblank : isBlank c = true) (hspace : c ≠ ' ') :
    c ∉ rightsText rights := by
  have hbar : c ≠ '|' := by
    rintro rfl
    cases hblank
  refine rightsText_induction (motive := (c ∉ ·)) hne (fun right hright => ?_) fun x y hx hy => ?_
  · refine (h right hright).notMem (fun name hname => ?_) hspace
    exact ((h right hright).spellable name hname).isWord.notMem hblank
  · simp [hx, hy, hspace, hbar]

/-- **The alternatives between bars are read one by one**, also behind blanks. -/
theorem mapM_readAlternative {lead : List Char} (hlead : ∀ c ∈ lead, isBlank c = true) :
    ((lead ++ rightsText rights).splitOn '|').mapM RuleText.readAlternative = .ok rights := by
  induction rights generalizing lead with
  | nil => exact absurd rfl hne
  | cons first rest ih =>
    obtain ⟨hfirst, hrest⟩ := List.forall_mem_cons.mp h
    have hleadbar : '|' ∉ lead := fun hmem => by cases hlead '|' hmem
    have hbar : '|' ∉ rightText first := hfirst.notMem hfirst.noBar (by decide)
    cases rest with
    -- a single alternative, with no bar behind it
    | nil =>
      have htext : rightsText [first] = rightText first := List.intercalate_singleton
      have hread := hfirst.readAlternative_eq hlead (List.forall_mem_nil _)
      rw [List.append_nil] at hread
      rw [htext, List.splitOn_eq_singleton (by simp [hleadbar, hbar]), List.mapM_cons, hread]
      rfl
    -- the next alternatives are written behind a bar and a space, which is their lead
    | cons next rest =>
      have htext : lead ++ rightsText (first :: next :: rest) =
          (lead ++ rightText first ++ [' ']) ++ '|' :: ([' '] ++ rightsText (next :: rest)) := by
        simp [rightsText, List.intercalate_cons_cons]
      have hspace : ∀ c ∈ [' '], isBlank c = true := List.forall_mem_singleton.mpr (by decide)
      rw [htext, List.splitOn_append_cons_self_of_not_mem (by simp [hleadbar, hbar]), List.mapM_cons,
        hfirst.readAlternative_eq hlead hspace, ih (List.cons_ne_nil next rest) hrest hspace]
      rfl

/-- **The alternatives of a rule are read back.** -/
theorem readAlternatives_eq : RuleText.readAlternatives (rightsText rights) = .ok rights := by
  have hframed := framed_rightsText hne h
  rw [RuleText.readAlternatives, if_neg (by simpa using hframed.ne_nil)]
  exact mapM_readAlternative hne h (List.forall_mem_nil _)

end Rights

/-! ## Lines -/

/-- A line is the left side, spaces, an arrow, a space and the alternatives. -/
theorem Rule.toList_toPlain (rule : Rule) (width : Nat) :
    ∃ padding : List Char, (∀ c ∈ padding, c = ' ') ∧ (rule.toPlain width).toList =
      rule.left.toList ++ padding ++ ['-', '>', ' '] ++ rightsText rule.rights := by
  refine ⟨List.replicate (width - rule.left.length + 1) ' ', fun c hc => List.eq_of_mem_replicate hc, ?_⟩
  have hright : String.toList ∘ join " " = rightText := by
    funext right
    simp [join, rightText]
  have hrights : (join " | " (rule.rights.map (join " "))).toList = rightsText rule.rights := by
    rw [join, String.toList_intercalate, List.map_map, hright]
    rfl
  simp [Rule.toPlain, padRight, spaces, hrights, List.replicate_succ']

/-- A name before blanks is read as a left side. -/
theorem Spellable.readLeft_eq {name : String} (h : Spellable name) (hreserved : name ∉ reserved)
    {padding : List Char} (hpadding : ∀ c ∈ padding, isBlank c = true) :
    RuleText.readLeft (name.toList ++ padding) = .ok name := by
  have htrim : trim (name.toList ++ padding) = name.toList :=
    trim_append h.isWord.framed (List.forall_mem_nil _) hpadding
  have hwords := h.isWord.words_eq
  have hne := h.isWord.ne_nil
  simp only [RuleText.readLeft, htrim, hwords]
  simp [hne, hreserved]

namespace Rule.Writable

variable {rule : Rule} (h : rule.Writable) (width : Nat)
include h

/-- **A line has no blanks at its ends and no line break in it.** -/
theorem framed_toPlain : Framed (rule.toPlain width).toList ∧ '\n' ∉ (rule.toPlain width).toList := by
  obtain ⟨padding, hpadding, htext⟩ := rule.toList_toPlain width
  have hright := framed_rightsText h.inhabited h.rights
  have hbreak := notMem_rightsText h.inhabited h.rights (c := '\n') (by decide) (by decide)
  rw [htext]
  constructor
  · rw [List.append_assoc _ padding]
    exact h.left.isWord.framed.append hright _
  · have hleft : '\n' ∉ rule.left.toList := h.left.isWord.notMem (by decide)
    have hspaces : '\n' ∉ padding := fun hmem => by cases hpadding _ hmem
    simp [hleft, hspaces, hbreak]

/-- The only arrow of a line is the one between its sides. -/
theorem splitArrows_toPlain : ∃ padding : List Char, (∀ c ∈ padding, isBlank c = true) ∧
    splitArrows (rule.toPlain width).toList =
      [rule.left.toList ++ padding, ' ' :: rightsText rule.rights] := by
  obtain ⟨padding, hpadding, htext⟩ := rule.toList_toPlain width
  refine ⟨padding, fun c hc => ?_, ?_⟩
  · rw [hpadding c hc]
    decide
  · rw [htext, List.append_assoc _ ['-', '>', ' ']]
    apply splitArrows_arrow
    · intro harrow
      refine h.left.noArrow (harrow.of_append fun hmem => ?_)
      cases hpadding _ hmem
    · intro harrow
      rcases hasArrow_cons.mp harrow with ⟨hc, -⟩ | harrow
      · cases hc
      · exact not_hasArrow_rightsText h.inhabited h.rights harrow

/-- A written rule has its arrow behind the padded left side and nowhere else. -/
theorem readSides_toPlain (hreserved : rule.left ∉ reserved) (previous : Option String) :
    RuleText.readSides previous (rule.toPlain width).toList = .ok (rule.left, rightsText rule.rights) := by
  obtain ⟨padding, hpadding, hcut⟩ := h.splitArrows_toPlain width
  have hspace : ∀ c ∈ [' '], isBlank c = true := List.forall_mem_singleton.mpr (by decide)
  have htrim := trim_append (framed_rightsText h.inhabited h.rights) hspace (List.forall_mem_nil _)
  rw [List.append_nil] at htrim
  unfold RuleText.readSides
  rw [hcut]
  exact map_eq_ok.mpr ⟨rule.left, h.left.readLeft_eq hreserved hpadding, congrArg (rule.left, ·) htrim⟩

/-- **A line is read as the rule that was written.** -/
theorem readLine_toPlain (hreserved : rule.left ∉ reserved) (previous : Option String) :
    RuleText.readLine previous (rule.toPlain width).toList = .ok rule := by
  apply bind_eq_ok.mpr ⟨_, h.readSides_toPlain width hreserved previous, ?_⟩
  exact bind_eq_ok.mpr ⟨_, readAlternatives_eq h.inhabited h.rights, rfl⟩

end Rule.Writable

/-! ## All lines -/

variable {rules : List Rule}

/-- **Written rules are read back**, one a line. -/
theorem readLines_toPlain (h : ∀ rule ∈ rules, rule.Writable)
    (hreserved : ∀ rule ∈ rules, rule.left ∉ reserved) (width number : Nat) (previous : Option String) :
    RuleText.readLines number previous (rules.map fun rule => (rule.toPlain width).toList) =
      .ok rules := by
  induction rules generalizing number previous with
  | nil => rfl
  | cons rule rules ih =>
    obtain ⟨hrule, h⟩ := List.forall_mem_cons.mp h
    obtain ⟨hleft, hreserved⟩ := List.forall_mem_cons.mp hreserved
    have hframed := (hrule.framed_toPlain width).1
    rw [List.map_cons, RuleText.readLines, hframed.trim_eq, if_neg (by simpa using hframed.ne_nil),
      hrule.readLine_toPlain width hleft]
    exact map_eq_ok.mpr ⟨rules, ih h hreserved _ _, rfl⟩

/-- **The text of writable rules is read as these rules.** -/
theorem readRules_toPlain (h : ∀ rule ∈ rules, rule.Writable)
    (hreserved : ∀ rule ∈ rules, rule.left ∉ reserved) :
    RuleText.readRules (Rules.toPlain rules) = .ok rules := by
  cases rules with
  | nil => rfl
  | cons rule rest =>
    rw [RuleText.readRules, Rules.toPlain, join, String.toList_intercalate, List.map_map]
    -- the text is cut where the lines were joined, since no line has a break in it
    change RuleText.readLines 1 none (List.splitOn '\n' (['\n'].intercalate _)) = _
    rw [List.splitOn_intercalate]
    · exact readLines_toPlain h hreserved _ 1 none
    · intro line hline
      obtain ⟨rule, hrule, rfl⟩ := List.mem_map.mp hline
      exact ((h rule hrule).framed_toPlain _).2
    · exact List.cons_ne_nil _ _

end PredictiveGrammar
