import PredictiveGrammar.Grammar.RuleText
import PredictiveGrammar.Proofs.CutText
import PredictiveGrammar.Proofs.TidyRules

/-!
# What can be read

Every rule that is read from text has names of one word without an arrow, and on its right side names
without a bar (`Rule.Writable`). A bar may stand in a left side, since a line is cut at bars only behind its
arrow. So the rules of a grammar that was read are writable (`Grammar.writable_of_parse`).
-/

namespace PredictiveGrammar

open Text

/-- A name that can stand on both sides of an arrow. -/
structure Spellable (name : String) : Prop where
  /-- it is one word -/
  isWord : IsWord name.toList
  /-- no arrow stands in it -/
  noArrow : ¬HasArrow name.toList

/-- An alternative that can be written. -/
structure WritableRight (right : List String) : Prop where
  /-- there is something to write between bars -/
  inhabited : right ≠ []
  /-- its names can stand behind an arrow -/
  spellable : ∀ name ∈ right, Spellable name
  /-- its names can stand between bars -/
  noBar : ∀ name ∈ right, '|' ∉ name.toList

/-- A rule that can be written as one line of rule text. -/
structure Rule.Writable (rule : Rule) : Prop where
  /-- there is something to write behind the arrow -/
  inhabited : rule.rights ≠ []
  /-- the left side can stand before an arrow -/
  left : Spellable rule.left
  /-- all alternatives can be written -/
  rights : ∀ right ∈ rule.rights, WritableRight right

theorem writableRight_epsilon : WritableRight [epsilon] where
  inhabited := List.cons_ne_nil epsilon []
  spellable := by
    refine List.forall_mem_singleton.mpr ⟨⟨by decide, ?_⟩, by decide⟩
    exact List.forall_mem_singleton.mpr (by decide)
  noBar := List.forall_mem_singleton.mpr (by decide)

/-! ## One line -/

namespace RuleText

variable {previous : Option String} {line side text : List Char} {left : String} {rule : Rule}
  {rules : List Rule}

/-- **Left sides that are read can be written.** They are one word of a side without an arrow. -/
theorem spellable_of_readLeft (hside : ¬HasArrow side) (h : readLeft side = .ok left) :
    Spellable left := by
  simp only [readLeft] at h
  split at h
  · cases h
  next hempty =>
  split at h
  · cases h
  next hwords =>
  split at h
  · cases h
  obtain rfl := Except.ok.inj h
  rw [not_not] at hwords
  have hframed := framed_trim (by simpa using hempty)
  constructor
  · rw [String.toList_ofList]
    exact hframed.isWord hwords
  · rw [String.toList_ofList]
    exact fun harrow => hside (harrow.trans (trim_isInfix side))

/-- The left side of a line is a name, its own or that of the rule it continues, and its right side has no
arrow. -/
theorem readSides_sound (hprevious : ∀ name, previous = some name → Spellable name)
    (h : readSides previous line = .ok (left, text)) : Spellable left ∧ ¬HasArrow text := by
  have hpieces : ∀ piece ∈ splitArrows line, ¬HasArrow piece :=
    fun piece hpiece => not_hasArrow_of_mem_splitArrows hpiece
  unfold readSides at h
  split at h
  -- one arrow: the sides are the pieces around it
  · next first second hcut =>
    rw [hcut] at hpieces
    obtain ⟨name, hleft, heq⟩ := map_eq_ok.mp h
    obtain ⟨rfl, rfl⟩ := Prod.mk.inj heq
    refine ⟨spellable_of_readLeft (hpieces first (by simp)) hleft, fun harrow => ?_⟩
    exact hpieces second (by simp) (harrow.trans (trim_isInfix second))
  -- no arrow: the left side is the one from before
  · next whole hcut =>
    have hjoined := intercalate_splitArrows line
    rw [hcut, List.intercalate_singleton] at hjoined
    subst hjoined
    split at h
    · next right name =>
      obtain ⟨rfl, rfl⟩ := Prod.mk.inj (Except.ok.inj h)
      refine ⟨hprevious _ rfl, fun harrow => ?_⟩
      apply hpieces ('|' :: right) (hcut ▸ List.mem_singleton_self _)
      exact List.infix_cons (harrow.trans (trim_isInfix right))
    all_goals cases h
  · cases h

/-- **Alternatives that are read can be written.** -/
theorem readAlternative_sound {right : List String} (hbar : '|' ∉ text) (harrow : ¬HasArrow text)
    (h : readAlternative text = .ok right) : WritableRight right := by
  unfold readAlternative at h
  split at h
  · cases h
  next hne =>
  obtain rfl := Except.ok.inj h
  constructor
  · simpa using hne
  · intro name hname
    obtain ⟨word, hword, rfl⟩ := List.mem_map.mp hname
    obtain ⟨hisWord, hpart⟩ := isWord_of_mem_words hword
    constructor
    · rwa [String.toList_ofList]
    · rw [String.toList_ofList]
      exact fun h => harrow (h.trans hpart)
  · intro name hname hmem
    obtain ⟨word, hword, rfl⟩ := List.mem_map.mp hname
    rw [String.toList_ofList] at hmem
    exact hbar ((isWord_of_mem_words hword).2.mem hmem)

/-- A side that is read has alternatives, and each can be written. -/
theorem readAlternatives_sound {rights : List (List String)} (harrow : ¬HasArrow text)
    (h : readAlternatives text = .ok rights) : rights ≠ [] ∧ ∀ right ∈ rights, WritableRight right := by
  rw [readAlternatives] at h
  split at h
  · cases h
  · obtain ⟨hlength, hrights⟩ := exists_of_mapM_eq_ok h
    refine ⟨?_, fun right hright => ?_⟩
    · rintro rfl
      exact List.splitOn_ne_nil '|' text (List.length_eq_zero_iff.mp hlength.symm)
    · obtain ⟨piece, hpiece, hread⟩ := hrights right hright
      rw [List.splitOn_eq_splitOnP] at hpiece
      obtain ⟨hpart, hcut⟩ := infix_of_mem_splitOnP hpiece
      refine readAlternative_sound (fun hbar => ?_) (fun h => harrow (h.trans hpart)) hread
      cases hcut '|' hbar

/-- **A line that is read as a rule is a writable rule.** -/
theorem readLine_sound (hprevious : ∀ name, previous = some name → Spellable name)
    (h : readLine previous line = .ok rule) : rule.Writable := by
  obtain ⟨⟨left, right⟩, hsides, h⟩ := bind_eq_ok.mp h
  obtain ⟨rights, hrights, h⟩ := bind_eq_ok.mp h
  obtain rfl := Except.ok.inj h
  obtain ⟨hleft, harrow⟩ := readSides_sound hprevious hsides
  obtain ⟨hne, hnames⟩ := readAlternatives_sound harrow hrights
  exact ⟨hne, hleft, hnames⟩

/-! ## All lines -/

/-- **All rules that are read can be written**, also those of lines that go on with a left side that was read before. -/
theorem readLines_sound {number : Nat} {lines : List (List Char)}
    (hprevious : ∀ name, previous = some name → Spellable name)
    (h : readLines number previous lines = .ok rules) : ∀ rule ∈ rules, rule.Writable := by
  induction lines generalizing number previous rules with
  | nil =>
    obtain rfl := Except.ok.inj h
    exact List.forall_mem_nil _
  | cons line lines ih =>
    rw [readLines] at h
    split at h
    -- a blank line
    · exact ih hprevious h
    · split at h
      -- a line that is not read
      · cases h
      -- a line that is read as a rule, whose left side the next line may continue
      · next first hline =>
        have hfirst := readLine_sound hprevious hline
        obtain ⟨rest, hrest, rfl⟩ := map_eq_ok.mp h
        intro rule hrule
        cases hrule with
        | head => exact hfirst
        | tail _ hrule =>
          refine ih (fun name hname => ?_) hrest rule hrule
          obtain rfl := Option.some.inj hname
          exact hfirst.left

/-- **Only writable rules are read.** -/
theorem readRules_sound {text : String} (h : readRules text = .ok rules) :
    ∀ rule ∈ rules, rule.Writable :=
  readLines_sound (fun _ hname => by cases hname) h

end RuleText

/-! ## The grammar of what was read -/

/-- Putting rules of one left side together keeps them so. -/
theorem writable_regrouped {rules : List Rule} (h : ∀ rule ∈ rules, rule.Writable) :
    ∀ rule ∈ regrouped rules, rule.Writable := by
  intro rule hrule
  obtain ⟨name, hname, rfl⟩ := List.mem_map.mp hrule
  obtain ⟨first, hfirst, rfl⟩ := List.mem_map.mp (mem_leftNames.mp hname).2
  refine ⟨?_, (h first hfirst).left, ?_⟩
  · obtain ⟨right, rights, hrights⟩ := List.exists_cons_of_ne_nil (h first hfirst).inhabited
    apply List.ne_nil_of_mem (a := spelled right)
    apply List.mem_map_of_mem
    refine List.mem_flatMap.mpr ⟨first, ?_, hrights ▸ List.mem_cons_self⟩
    simpa using hfirst
  · intro right hright
    obtain ⟨written, hwritten, rfl⟩ := List.mem_map.mp hright
    obtain ⟨rule, hrule, hmem⟩ := List.mem_flatMap.mp hwritten
    have hwritable := (h rule (List.mem_of_mem_filter hrule)).rights written hmem
    rwa [spelled_of_ne_nil hwritable.inhabited]

/-- **The rules of a grammar that was read are writable.** -/
theorem Grammar.writable_of_parse {text : String} {g : Grammar} (h : Grammar.parse text = .ok g) :
    ∀ rule ∈ g.namedRules, rule.Writable := by
  obtain ⟨rules, hrules, rfl⟩ := map_eq_ok.mp h
  rw [Grammar.namedRules_ofRules]
  exact writable_regrouped (RuleText.readRules_sound hrules)

end PredictiveGrammar
