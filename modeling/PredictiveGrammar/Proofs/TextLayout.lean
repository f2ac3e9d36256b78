import Mathlib.Logic.Relation
import PredictiveGrammar.Proofs.AcceptedTexts
import PredictiveGrammar.Proofs.LineEdits
import PredictiveGrammar.Proofs.RejectedTexts

/-!
# The layout of a text

A text that is read can be laid out in another way without changing its grammar. The edits that count as layout are
those of `LineEdit`: lines are broken in front of bars, left sides are repeated, blank lines come and go, blanks are
replaced by other blanks, and carriage returns are put in front of line feeds. An edit may change the rules that the
lines stand for, since one rule becomes two with the same left side; but such rules build the same grammar, and what
stands behind them continues the same left side (`Interchangeable`). So an edit in the middle of a text leaves the
grammar of the text as it is (`Relayout.parse_eq`).
-/

namespace PredictiveGrammar

open Text

/-! ## Definitions -/

/-- Lines behind others are replaced by lines that say the same. -/
inductive LineEdit (before : List (List Char)) : List (List Char) → List (List Char) → Prop
  /-- a rule line or a continuation line is broken in front of a bar between two of its alternatives -/
  | breakLine {start rest : List Char} :
      HasArrow start ∨ ¬HasArrow (start ++ '|' :: rest) ∧ '|' ∈ start →
      LineEdit before [start ++ '|' :: rest] [start, '|' :: rest]
  /-- the bar of a continuation line is replaced by the left side that is continued and an arrow -/
  | spellOut {lead gap alternatives : List Char} {left : String} :
      Blank lead → Blank gap → ¬HasArrow alternatives → LastLeft before left →
      LineEdit before [lead ++ '|' :: (gap ++ alternatives)] [left.toList ++ ' ' :: '-' :: '>' :: ' ' :: alternatives]
  /-- a blank line is inserted -/
  | insert {line : List Char} : Blank line → LineEdit before [] [line]
  /-- a blank line is removed -/
  | remove {line : List Char} : Blank line → LineEdit before [line] []
  /-- blanks within a line are replaced by other blanks -/
  | respace {left gap gap' right : List Char} :
      Gap gap → Gap gap' → LineEdit before [left ++ gap ++ right] [left ++ gap' ++ right]
  /-- lines get carriage returns at their ends -/
  | addReturns {lines : List (List Char)} : LineEdit before lines (lines.map (· ++ ['\r']))

/-- One text is another one after one edit of its layout. -/
def Relayout (s t : String) : Prop :=
  ∃ before lines lines' behind, rows s = before ++ lines ++ behind ∧ rows t = before ++ lines' ++ behind ∧
    LineEdit before lines lines'

/-- A text with a carriage return in front of each line feed. -/
def withReturns (text : String) : String :=
  String.ofList (text.toList.flatMap fun c => if c = '\n' then ['\r', '\n'] else [c])

/-! ## Rules in the place of others -/

/-- Some rules can stand in the place of others. -/
structure Interchangeable (rules rules' : List Rule) : Prop where
  /-- the grammar is the same, whatever rules stand around them -/
  ofRules : ∀ front back, Grammar.ofRules (front ++ rules' ++ back) = Grammar.ofRules (front ++ rules ++ back)
  /-- the left side to be continued behind them is the same -/
  lastLeft : ∀ previous, RuleText.lastLeft previous rules' = RuleText.lastLeft previous rules

theorem Interchangeable.refl (rules : List Rule) : Interchangeable rules rules := ⟨fun _ _ => rfl, fun _ => rfl⟩

/-- What building looks at: the left sides, the names on right sides, and the productions of each left side. -/
theorem Grammar.ofRules_congr {rules rules' : List Rule} (hdeclared : declared rules = declared rules')
    (hnumbered : numbered rules = numbered rules')
    (hproductions : ∀ known left, productionsFor rules known left = productionsFor rules' known left) :
    Grammar.ofRules rules = Grammar.ofRules rules' := by
  have hsymbol : symbolFor rules = symbolFor rules' := by
    funext known count name index
    rw [symbolFor, symbolFor, hproductions]
  rw [Grammar.ofRules, Grammar.ofRules, hdeclared, hnumbered, hsymbol]

theorem number_number (known : List String) (name : String) : number (number known name) name = number known name :=
  if_pos (mem_number.mpr (Or.inr rfl))

/-- **The alternatives of one rule can be given in two rules** for the same left side. -/
theorem interchangeable_append (left : String) (first second : List (List String)) :
    Interchangeable [⟨left, first ++ second⟩] [⟨left, first⟩, ⟨left, second⟩] where
  ofRules := by
    intro front back
    have hdeclared : declared (front ++ [⟨left, first⟩, ⟨left, second⟩] ++ back) =
        declared (front ++ [⟨left, first ++ second⟩] ++ back) := by
      simp only [declared, List.map_append, List.map_cons, List.map_nil, List.foldl_append, List.foldl_cons,
        List.foldl_nil, number_number]
    refine Grammar.ofRules_congr hdeclared ?_ fun known name => ?_
    · rw [numbered, numbered, hdeclared]
      simp
    · by_cases hname : left = name
      · simp [productionsFor, hname]
      · simp [productionsFor, hname]
  lastLeft := fun _ => rfl

/-! ## Reading lines that were edited -/

namespace RuleText

variable {number number' : Nat} {previous : Option String} {line : List Char}
  {before front back lines lines' : List (List Char)} {rules : List Rule}

/-- A line that is read is blank, or gives a rule and leaves its left side to be continued. -/
theorem readLines_cons_eq_ok_iff : readLines number previous (line :: lines) = .ok rules ↔
    Blank line ∧ readLines (number + 1) previous lines = .ok rules ∨
      ∃ rule later, (RuleLine line rule ∨ ContinuationLine line rule.rights ∧ previous = some rule.left) ∧
        readLines (number + 1) (some rule.left) lines = .ok later ∧ rules = rule :: later := by
  have hcut : (trim line).isEmpty = true ↔ Blank line := List.isEmpty_iff.trans trim_eq_nil_iff
  rw [readLines]
  by_cases hblank : Blank line
  -- a blank line is passed over, and it is no line of the other kinds
  · rw [if_pos (hcut.mpr hblank)]
    refine ⟨fun h => Or.inl ⟨hblank, h⟩, ?_⟩
    rintro (⟨-, h⟩ | ⟨rule, later, hline | ⟨hline, -⟩, -⟩)
    · exact h
    · exact absurd hblank hline.not_blank
    · exact absurd hblank hline.not_blank
  -- any other line has to be read
  · rw [if_neg (hcut.not.mpr hblank), or_iff_right fun h => hblank h.1]
    refine ⟨fun h => ?_, ?_⟩
    · split at h
      · cases h
      next rule hread =>
      obtain ⟨later, hlater, rfl⟩ := map_eq_ok.mp h
      exact ⟨rule, later, (readLine_trim_iff hblank).mp hread, hlater, rfl⟩
    · rintro ⟨rule, later, hline, hlater, rfl⟩
      rw [(readLine_trim_iff hblank).mpr hline]
      exact map_eq_ok.mpr ⟨later, hlater, rfl⟩

/-- The number of the first line matters to errors only. -/
theorem readLines_renumber (h : readLines number previous lines = .ok rules) :
    readLines number' previous lines = .ok rules := by
  induction lines generalizing number number' previous rules with
  | nil => exact h
  | cons line lines ih =>
    rw [readLines_cons_eq_ok_iff] at h ⊢
    refine h.imp (And.imp_right ih) ?_
    rintro ⟨rule, later, hline, hlater, rfl⟩
    exact ⟨rule, later, hline, ih hlater, rfl⟩

/-- Lines are read one part after the other, where the second goes on with the last left side of the first. -/
theorem readLines_append_eq_ok_iff : readLines number previous (front ++ back) = .ok rules ↔
    ∃ first later, readLines number previous front = .ok first ∧
      readLines number (lastLeft previous first) back = .ok later ∧ first ++ later = rules := by
  rw [readLines_append, bind_eq_ok]
  refine exists_congr fun first => ?_
  rw [exists_and_left, map_eq_ok]
  refine and_congr_right fun _ => exists_congr fun later => and_congr_left fun _ => ?_
  exact ⟨readLines_renumber, readLines_renumber⟩

theorem lastLeft_append (previous : Option String) (rules rules' : List Rule) :
    lastLeft previous (rules ++ rules') = lastLeft (lastLeft previous rules) rules' := List.foldl_append

/-- Reading keeps the left side of the last rule line. -/
theorem lastLeft_eq_some_iff (hprevious : ∀ left, previous = some left ↔ LastLeft before left)
    (h : readLines number previous lines = .ok rules) :
    ∀ left, lastLeft previous rules = some left ↔ LastLeft (before ++ lines) left := by
  induction lines generalizing number previous before rules with
  | nil =>
    obtain rfl := Except.ok.inj h
    rwa [List.append_nil]
  | cons line lines ih =>
    rw [List.append_cons]
    rcases readLines_cons_eq_ok_iff.mp h with ⟨hblank, hlater⟩ | ⟨rule, later, hline, hlater, rfl⟩
    · exact ih (fun left => (hprevious left).trans (lastLeft_append_of_not hblank.not_ruleLine).symm) hlater
    · have hnext : ∀ left, some rule.left = some left ↔ LastLeft (before ++ [line]) left := by
        intro left
        rcases hline with hline | ⟨hline, rfl⟩
        · exact Option.some_inj.trans (lastLeft_append_ruleLine hline).symm
        · exact (hprevious left).trans (lastLeft_append_of_not hline.not_ruleLine).symm
      exact (ih hnext hlater :)

/-- Lines that are read are read alike from lines that they are like. -/
theorem readLines_alike (halike : List.Forall₂ ReadAlike lines lines')
    (h : readLines number previous lines = .ok rules) : readLines number previous lines' = .ok rules := by
  induction halike generalizing number previous rules with
  | nil => exact h
  | cons hline _ ih =>
    rw [readLines_cons_eq_ok_iff] at h ⊢
    refine h.imp (And.imp hline.blank ih) ?_
    rintro ⟨rule, later, hrule, hlater, rfl⟩
    exact ⟨rule, later, hrule.imp (hline.rule rule) (And.imp_left (hline.continuation rule.rights)), ih hlater, rfl⟩

end RuleText

/-- A left side that is to be continued is that of a rule line. -/
theorem LastLeft.exists_ruleLine {lines : List (List Char)} {left : String} (h : LastLeft lines left) :
    ∃ line rule, RuleLine line rule ∧ rule.left = left := by
  obtain ⟨_, line, rule, _, -, hrule, hleft, -⟩ := h
  exact ⟨line, rule, hrule, hleft⟩

namespace LineEdit

open RuleText

variable {before lines lines' : List (List Char)} {number : Nat} {previous : Option String} {rules : List Rule}

/-- A line that is broken in front of a bar gives its alternatives in two rules. -/
theorem exists_of_breakLine {start rest : List Char}
    (hbar : HasArrow start ∨ ¬HasArrow (start ++ '|' :: rest) ∧ '|' ∈ start)
    (hread : readLines number previous [start ++ '|' :: rest] = .ok rules) :
    ∃ rules', readLines number previous [start, '|' :: rest] = .ok rules' ∧ Interchangeable rules rules' := by
  rcases readLines_cons_eq_ok_iff.mp hread with ⟨hblank, -⟩ | ⟨rule, later, hline, hlater, rfl⟩
  · exact absurd hblank (not_blank_append_cons _ _ (by decide))
  obtain rfl : later = [] := (Except.ok.inj hlater).symm
  -- both kinds of lines are broken in the same way, and the second part continues the first one
  suffices hparts : ∃ first second, rule.rights = first ++ second ∧
      (RuleLine start ⟨rule.left, first⟩ ∨ ContinuationLine start first ∧ previous = some rule.left) ∧
      ContinuationLine ('|' :: rest) second by
    obtain ⟨first, second, hrights, hstart, hrest⟩ := hparts
    obtain ⟨left, rights⟩ := rule
    obtain rfl : rights = first ++ second := hrights
    refine ⟨_, ?_, interchangeable_append left first second⟩
    refine readLines_cons_eq_ok_iff.mpr (Or.inr ⟨⟨left, first⟩, _, hstart, ?_, rfl⟩)
    exact readLines_cons_eq_ok_iff.mpr (Or.inr ⟨⟨left, second⟩, [], Or.inr ⟨hrest, rfl⟩, rfl, rfl⟩)
  rcases hline with hline | ⟨hline, hleft⟩
  · have harrow : HasArrow start := hbar.resolve_right fun h => h.1 hline.hasArrow
    obtain ⟨first, second, hrights, hstart, hrest⟩ := hline.broken harrow
    exact ⟨first, second, hrights, Or.inl hstart, hrest⟩
  · have hmem : '|' ∈ start := by
      rcases hbar with harrow | ⟨-, hmem⟩
      · exact absurd (harrow.trans (List.prefix_append start _).isInfix) hline.not_hasArrow
      · exact hmem
    obtain ⟨first, second, hrights, hstart, hrest⟩ := hline.broken hmem
    exact ⟨first, second, hrights, Or.inr ⟨hstart, hleft⟩, hrest⟩

/-- A continuation line for which the left side is written gives the rule that it stood for. -/
theorem readLines_of_spellOut {lead gap alternatives : List Char} {left : String}
    (hlead : Blank lead) (hgap : Blank gap) (harrow : ¬HasArrow alternatives) (hleft : LastLeft before left)
    (hprevious : ∀ left, previous = some left ↔ LastLeft before left)
    (hread : readLines number previous [lead ++ '|' :: (gap ++ alternatives)] = .ok rules) :
    readLines number previous [left.toList ++ ' ' :: '-' :: '>' :: ' ' :: alternatives] = .ok rules := by
  rcases readLines_cons_eq_ok_iff.mp hread with ⟨hblank, -⟩ | ⟨rule, later, hline | ⟨hline, hcontinued⟩, hlater, rfl⟩
  · exact absurd hblank (not_blank_append_cons _ _ (by decide))
  · exact absurd hline.hasArrow (not_hasArrow_bar hlead ((hasArrow_append_iff hgap).not.mpr harrow))
  · obtain rfl : left = rule.left := Option.some.inj (((hprevious left).mpr hleft).symm.trans hcontinued)
    obtain ⟨line, first, hfirst, hname⟩ := hleft.exists_ruleLine
    have hspellable := hfirst.spellable
    have hreserved := hfirst.left_notMem_reserved
    rw [hname] at hspellable hreserved
    refine readLines_cons_eq_ok_iff.mpr (Or.inr ⟨rule, later, Or.inl ?_, hlater, rfl⟩)
    exact hline.spelledOut hlead hgap hspellable hreserved

/-- **An edit keeps what lines say.** -/
theorem exists_interchangeable (h : LineEdit before lines lines')
    (hprevious : ∀ left, previous = some left ↔ LastLeft before left)
    (hread : readLines number previous lines = .ok rules) :
    ∃ rules', readLines number previous lines' = .ok rules' ∧ Interchangeable rules rules' := by
  cases h with
  | breakLine hbar => exact exists_of_breakLine hbar hread
  | spellOut hlead hgap harrow hleft =>
    exact ⟨rules, readLines_of_spellOut hlead hgap harrow hleft hprevious hread, .refl rules⟩
  | insert hblank =>
    exact ⟨rules, readLines_cons_eq_ok_iff.mpr (Or.inl ⟨hblank, readLines_renumber hread⟩), .refl rules⟩
  | remove hblank =>
    rcases readLines_cons_eq_ok_iff.mp hread with ⟨-, hread⟩ | ⟨rule, later, hline | ⟨hline, -⟩, -⟩
    · exact ⟨rules, readLines_renumber hread, .refl rules⟩
    · exact absurd hblank hline.not_blank
    · exact absurd hblank hline.not_blank
  | respace hgap hgap' => exact ⟨rules, readLines_alike (.cons (readAlike_respace hgap hgap') .nil) hread, .refl rules⟩
  | addReturns =>
    have hreturn : Blank ['\r'] := List.forall_mem_singleton.mpr (by decide)
    refine ⟨rules, readLines_alike (List.forall₂_map_right_iff.mpr ?_) hread, .refl rules⟩
    exact List.forall₂_same.mpr fun line _ => readAlike_append line hreturn

end LineEdit

/-! ## Whole texts -/

/-- A text that is edited in one place is read as rules that build the same grammar. -/
theorem Relayout.parse_eq {s t : String} {g : Grammar} (h : Relayout s t) (hs : Grammar.parse s = .ok g) :
    Grammar.parse t = .ok g := by
  obtain ⟨before, lines, lines', behind, hrows, hrows', hedit⟩ := h
  obtain ⟨rules, hread, rfl⟩ := map_eq_ok.mp hs
  change RuleText.readLines 1 none (rows s) = .ok rules at hread
  rw [hrows] at hread
  obtain ⟨start, last, hstart, hlast, rfl⟩ := RuleText.readLines_append_eq_ok_iff.mp hread
  obtain ⟨first, edited, hfirst, hedited, rfl⟩ := RuleText.readLines_append_eq_ok_iff.mp hstart
  have hprevious := RuleText.lastLeft_eq_some_iff RuleText.none_eq_some_iff_lastLeft hfirst
  obtain ⟨edited', hedited', hsame⟩ := hedit.exists_interchangeable hprevious hedited
  refine map_eq_ok.mpr ⟨first ++ edited' ++ last, ?_, hsame.ofRules first last⟩
  change RuleText.readLines 1 none (rows t) = _
  rw [hrows']
  refine RuleText.readLines_append_eq_ok_iff.mpr ⟨_, last, ?_, ?_, rfl⟩
  · exact RuleText.readLines_append_eq_ok_iff.mpr ⟨first, edited', hfirst, hedited', rfl⟩
  -- what stands behind the edit continues the same left side as before
  · have hleft : RuleText.lastLeft none (first ++ edited') = RuleText.lastLeft none (first ++ edited) := by
      rw [RuleText.lastLeft_append, RuleText.lastLeft_append, hsame.lastLeft]
    rw [hleft]
    exact hlast

/-- Carriage returns go to the ends of all lines that end with a line feed. -/
theorem exists_splitOn_returns (cs : List Char) : ∃ front last, cs.splitOn '\n' = front ++ [last] ∧
    (cs.flatMap fun c => if c = '\n' then ['\r', '\n'] else [c]).splitOn '\n' = front.map (· ++ ['\r']) ++ [last] := by
  simp only [List.splitOn_eq_splitOnP]
  induction cs with
  | nil => exact ⟨[], [], rfl, rfl⟩
  | cons c cs ih =>
    obtain ⟨front, last, hplain, hreturns⟩ := ih
    by_cases hc : c = '\n'
    -- the end of a line
    · subst hc
      refine ⟨[] :: front, last, ?_, ?_⟩
      · simp [List.splitOnP_cons_eq_if_modifyHead, hplain]
      · simp [List.splitOnP_cons_eq_if_modifyHead, hreturns]
    -- any other character is added to the first line, which may be the last one too
    · cases front with
      | nil =>
        refine ⟨[], c :: last, ?_, ?_⟩
        · simp [List.splitOnP_cons_eq_if_modifyHead, hplain, hc]
        · simp [List.splitOnP_cons_eq_if_modifyHead, hreturns, hc]
      | cons first front =>
        refine ⟨(c :: first) :: front, last, ?_, ?_⟩
        · simp [List.splitOnP_cons_eq_if_modifyHead, hplain, hc]
        · simp [List.splitOnP_cons_eq_if_modifyHead, hreturns, hc]

theorem relayout_withReturns (text : String) : Relayout text (withReturns text) := by
  obtain ⟨front, last, hplain, hreturns⟩ := exists_splitOn_returns text.toList
  refine ⟨[], front, front.map (· ++ ['\r']), [last], hplain, ?_, .addReturns⟩
  rw [rows, withReturns, String.toList_ofList]
  exact hreturns

/-- **Layout does not matter.** A text that comes from a text that is read by edits of its layout, any number of them
anywhere, is read as an equal grammar: lines broken in front of a bar between two alternatives, bars of continuation
lines replaced by the left side that they continue and an arrow, blank lines inserted or removed, blanks within lines
replaced by other blanks, and carriage returns put in front of line feeds, as in front of all of them. -/
theorem Grammar.parse_layoutIndependent :
    (∀ s t g, Relation.ReflTransGen Relayout s t → Grammar.parse s = .ok g → Grammar.parse t = .ok g) ∧
      ∀ s, Relayout s (withReturns s) := by
  refine ⟨fun s t g h hs => ?_, relayout_withReturns⟩
  induction h with
  | refl => exact hs
  | tail _ hstep ih => exact hstep.parse_eq ih

/-- Two rules, one a line, with a bar in the name of the first left side. -/
def denseLayout : String := "S|-> a | b c\nT -> d"

/-- The same rules with more lines, a tabulator and carriage returns. -/
def airyLayout : String := "S|-> a \r\n\r\nS| -> b\tc\r\nT -> d"

theorem relayout_denseLayout : Relation.ReflTransGen Relayout denseLayout airyLayout := by
  have hread : RuleText.readLine none "S|-> a ".toList = .ok ⟨"S|", [["a"]]⟩ := by decide
  have hfirst : RuleLine "S|-> a ".toList ⟨"S|", [["a"]]⟩ :=
    (RuleText.line_of_readLine hread).resolve_right fun h => nomatch h.2
  have hleft : LastLeft ([] ++ ["S|-> a ".toList]) "S|" := (lastLeft_append_ruleLine hfirst).mpr rfl
  have hbroken : Relayout denseLayout "S|-> a \n| b c\nT -> d" :=
    ⟨[], ["S|-> a ".toList ++ '|' :: " b c".toList], ["S|-> a ".toList, '|' :: " b c".toList], ["T -> d".toList],
      by decide, by decide, .breakLine (Or.inl (by decide))⟩
  have hspelled : Relayout "S|-> a \n| b c\nT -> d" "S|-> a \nS| -> b c\nT -> d" :=
    ⟨["S|-> a ".toList], [[] ++ '|' :: ([' '] ++ "b c".toList)],
      ["S|".toList ++ ' ' :: '-' :: '>' :: ' ' :: "b c".toList], ["T -> d".toList],
      by decide, by decide, .spellOut (by decide) (by decide) (by decide) hleft⟩
  have hinserted : Relayout "S|-> a \nS| -> b c\nT -> d" "S|-> a \n\nS| -> b c\nT -> d" :=
    ⟨["S|-> a ".toList], [], [[]], ["S| -> b c".toList, "T -> d".toList], by decide, by decide, .insert (by decide)⟩
  have hrespaced : Relayout "S|-> a \n\nS| -> b c\nT -> d" "S|-> a \n\nS| -> b\tc\nT -> d" :=
    ⟨["S|-> a ".toList, []], ["S| -> b".toList ++ [' '] ++ ['c']], ["S| -> b".toList ++ ['\t'] ++ ['c']],
      ["T -> d".toList], by decide, by decide, .respace ⟨by decide, by decide⟩ ⟨by decide, by decide⟩⟩
  have hreturned : Relayout "S|-> a \n\nS| -> b\tc\nT -> d" airyLayout := relayout_withReturns _
  exact .head hbroken (.head hspelled (.head hinserted (.head hrespaced (.single hreturned))))

/-- The two texts are read as the same grammar. -/
theorem Grammar.parse_layoutIndependent_denseLayout :
    Relation.ReflTransGen Relayout denseLayout airyLayout ∧
      ∃ g, Grammar.parse denseLayout = .ok g ∧ g.names = ["ε", "$", "S|", "T", "a", "b", "c", "d"] ∧
        Grammar.parse airyLayout = .ok g := by
  have hread : Grammar.parse denseLayout = .ok (.ofRules [⟨"S|", [["a"], ["b", "c"]]⟩, ⟨"T", [["d"]]⟩]) := by decide
  exact ⟨relayout_denseLayout, _, hread, by decide,
    Grammar.parse_layoutIndependent.1 _ _ _ relayout_denseLayout hread⟩

end PredictiveGrammar
