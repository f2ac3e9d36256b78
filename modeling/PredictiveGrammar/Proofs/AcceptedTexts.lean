import PredictiveGrammar.Proofs.LineGrammar

/-!
# The texts that are accepted

A text is accepted exactly if each of its lines may stand where it does (`MayFollow`): it is blank, or a rule line, or a
continuation line behind some line that is not blank. What is read are the rules that the lines stand for, where a
continuation line takes its left side from the last rule line before it (`StandFor`). Reading keeps only that left side
from line to line, and this is enough: as long as every line is read, it is the one that is asked for
(`RuleText.readLines_eq_ok_iff`).
-/

namespace PredictiveGrammar

/-! ## Definitions -/

namespace Text

/-- A line without the carriage return in front of its line feed, if there is one. -/
def withoutReturn (line : List Char) : List Char := if line.getLast? = some '\r' then line.dropLast else line

/-- The lines of a text that was cut at its line feeds. What stands behind the last one is a line if it is not empty. -/
def endLines : List (List Char) → List (List Char)
  | [] => []
  | [last] => if last.isEmpty then [] else [last]
  | line :: rest => withoutReturn line :: endLines rest

/-- The lines of a text. Each ends with a line feed, or with a carriage return and a line feed, which are no part of it;
the end of the last one may be missing. -/
def lines (text : String) : List (List Char) := endLines (text.toList.splitOn '\n')

end Text

open Text

/-- The last rule line among some lines has this left side. -/
def LastLeft (lines : List (List Char)) (left : String) : Prop :=
  ∃ before line rule behind, lines = before ++ line :: behind ∧ RuleLine line rule ∧ rule.left = left ∧
    ∀ later ∈ behind, ∀ rule, ¬RuleLine later rule

/-- A line may stand behind others: it is blank or a rule line, or it continues what a line before it began. -/
def MayFollow (before : List (List Char)) (line : List Char) : Prop :=
  Blank line ∨ (∃ rule, RuleLine line rule) ∨
    (∃ rights, ContinuationLine line rights) ∧ ∃ earlier ∈ before, ¬Blank earlier

/-- Each of some lines behind others may stand where it does. -/
def EachMayFollow (before lines : List (List Char)) : Prop :=
  ∀ between line behind, lines = between ++ line :: behind → MayFollow (before ++ between) line

/-- The rules that lines behind others stand for, in order. -/
inductive StandFor : (before lines : List (List Char)) → List Rule → Prop
  | nil {before : List (List Char)} : StandFor before [] []
  | blank {before lines : List (List Char)} {line : List Char} {rules : List Rule} :
      Blank line → StandFor (before ++ [line]) lines rules → StandFor before (line :: lines) rules
  | rule {before lines : List (List Char)} {line : List Char} {rule : Rule} {rules : List Rule} :
      RuleLine line rule → StandFor (before ++ [line]) lines rules → StandFor before (line :: lines) (rule :: rules)
  | continuation {before lines : List (List Char)} {line : List Char} {left : String} {rights : List (List String)}
      {rules : List Rule} :
      ContinuationLine line rights → LastLeft before left → StandFor (before ++ [line]) lines rules →
      StandFor before (line :: lines) (⟨left, rights⟩ :: rules)

/-! ## The last rule line -/

section LastLeft

variable {before lines : List (List Char)} {line : List Char} {left : String} {rule rule' : Rule}
  {rights : List (List String)}

/-- A line is a rule line for one rule only. -/
theorem RuleLine.unique (h : RuleLine line rule) (h' : RuleLine line rule') : rule = rule' := by
  have hread : RuleText.readLine none line = .ok rule := RuleText.readLine_of_ruleLine h
  exact Except.ok.inj (hread.symm.trans (RuleText.readLine_of_ruleLine h'))

/-- A line that goes on has no left side of its own. -/
theorem ContinuationLine.not_ruleLine (h : ContinuationLine line rights) : ∀ rule, ¬RuleLine line rule :=
  fun _ hrule => h.not_hasArrow hrule.hasArrow

theorem Blank.not_ruleLine (h : Blank line) : ∀ rule, ¬RuleLine line rule := fun _ hrule => hrule.not_blank h

/-- One more line is the last rule line or leaves it as it is. -/
theorem lastLeft_append_iff : LastLeft (lines ++ [line]) left ↔
    (∃ rule, RuleLine line rule ∧ rule.left = left) ∨ (∀ rule, ¬RuleLine line rule) ∧ LastLeft lines left := by
  refine ⟨?_, ?_⟩
  · rintro ⟨before, other, rule, behind, heq, hrule, hleft, hbehind⟩
    rcases append_eq_append_cons heq with ⟨n, rfl, rfl⟩ | ⟨n, hn, -⟩
    · obtain ⟨hn, hline⟩ := List.forall_mem_append.mp hbehind
      exact Or.inr ⟨List.forall_mem_singleton.mp hline, before, other, rule, n, rfl, hrule, hleft, hn⟩
    · obtain rfl : other = line := List.mem_singleton.mp (hn ▸ List.mem_append_right n List.mem_cons_self)
      exact Or.inl ⟨rule, hrule, hleft⟩
  · rintro (⟨rule, hrule, hleft⟩ | ⟨hline, before, other, rule, behind, rfl, hrule, hleft, hbehind⟩)
    · exact ⟨lines, line, rule, [], rfl, hrule, hleft, List.forall_mem_nil _⟩
    · refine ⟨before, other, rule, behind ++ [line], by simp, hrule, hleft, ?_⟩
      exact List.forall_mem_append.mpr ⟨hbehind, List.forall_mem_singleton.mpr hline⟩

/-- Behind a line with a rule, its left side is the last one. -/
theorem lastLeft_append_ruleLine (h : RuleLine line rule) : LastLeft (lines ++ [line]) left ↔ rule.left = left := by
  rw [lastLeft_append_iff]
  refine ⟨?_, fun heq => Or.inl ⟨rule, h, heq⟩⟩
  rintro (⟨rule', hrule, rfl⟩ | ⟨hnone, -⟩)
  · rw [h.unique hrule]
  · exact absurd h (hnone rule)

/-- Any other line leaves the last left side as it was. -/
theorem lastLeft_append_of_not (h : ∀ rule, ¬RuleLine line rule) :
    LastLeft (lines ++ [line]) left ↔ LastLeft lines left := by
  rw [lastLeft_append_iff, and_iff_right h, or_iff_right]
  rintro ⟨rule, hrule, -⟩
  exact h rule hrule

/-- Among lines with a rule line there is one that is not blank. -/
theorem LastLeft.exists_not_blank (h : LastLeft lines left) : ∃ line ∈ lines, ¬Blank line := by
  obtain ⟨before, line, rule, behind, rfl, hrule, -, -⟩ := h
  exact ⟨line, by simp, hrule.not_blank⟩

end LastLeft

/-! ## Lines that stand for rules -/

section StandFor

variable {before lines : List (List Char)} {line : List Char} {rules : List Rule}

theorem eachMayFollow_nil (before : List (List Char)) : EachMayFollow before [] :=
  fun between line behind heq => absurd heq (by simp)

/-- Lines may follow if the first may and the others may behind it. -/
theorem eachMayFollow_cons :
    EachMayFollow before (line :: lines) ↔ MayFollow before line ∧ EachMayFollow (before ++ [line]) lines := by
  refine ⟨fun h => ⟨?_, fun between other behind heq => ?_⟩, ?_⟩
  · have hline := h [] line lines rfl
    rwa [List.append_nil] at hline
  · rw [← List.append_cons]
    exact h (line :: between) other behind (congrArg (line :: ·) heq)
  · rintro ⟨hline, hlines⟩ between other behind heq
    cases between with
    | nil =>
      obtain ⟨rfl, -⟩ := List.cons.inj heq
      rwa [List.append_nil]
    | cons first between =>
      obtain ⟨rfl, hrest⟩ := List.cons.inj heq
      rw [List.append_cons]
      exact hlines between other behind hrest

/-- Lines that stand for rules may stand where they do. -/
theorem StandFor.eachMayFollow (h : StandFor before lines rules) : EachMayFollow before lines := by
  induction h with
  | nil => exact eachMayFollow_nil _
  | blank hline _ ih => exact eachMayFollow_cons.mpr ⟨Or.inl hline, ih⟩
  | rule hline _ ih => exact eachMayFollow_cons.mpr ⟨Or.inr (Or.inl ⟨_, hline⟩), ih⟩
  | continuation hline hleft _ ih =>
    exact eachMayFollow_cons.mpr ⟨Or.inr (Or.inr ⟨⟨_, hline⟩, hleft.exists_not_blank⟩), ih⟩

/-- Lines that may stand where they do stand for rules, if a rule line stands before them as soon as any line that is
not blank does. -/
theorem EachMayFollow.exists_standFor (h : EachMayFollow before lines)
    (hbefore : (∃ earlier ∈ before, ¬Blank earlier) → ∃ left, LastLeft before left) :
    ∃ rules, StandFor before lines rules := by
  induction lines generalizing before with
  | nil => exact ⟨[], .nil⟩
  | cons line lines ih =>
    obtain ⟨hline, hlines⟩ := eachMayFollow_cons.mp h
    rcases hline with hblank | ⟨rule, hrule⟩ | ⟨⟨rights, hrights⟩, hearlier⟩
    -- a blank line stands for nothing, and the last left side is still the last
    · have hbefore' : (∃ earlier ∈ before ++ [line], ¬Blank earlier) → ∃ left, LastLeft (before ++ [line]) left := by
        rintro ⟨earlier, hmem, hne⟩
        rcases List.mem_append.mp hmem with hmem | hmem
        · obtain ⟨left, hleft⟩ := hbefore ⟨earlier, hmem, hne⟩
          exact ⟨left, (lastLeft_append_of_not hblank.not_ruleLine).mpr hleft⟩
        · exact absurd (List.mem_singleton.mp hmem ▸ hblank) hne
      obtain ⟨rules, hrules⟩ := ih hlines hbefore'
      exact ⟨rules, .blank hblank hrules⟩
    · obtain ⟨rules, hrules⟩ := ih hlines fun _ => ⟨rule.left, (lastLeft_append_ruleLine hrule).mpr rfl⟩
      exact ⟨rule :: rules, .rule hrule hrules⟩
    -- a continuation, of the last left side
    · obtain ⟨left, hleft⟩ := hbefore hearlier
      obtain ⟨rules, hrules⟩ := ih hlines fun _ => ⟨left, (lastLeft_append_of_not hrights.not_ruleLine).mpr hleft⟩
      exact ⟨_, .continuation hrights hleft hrules⟩

/-- **Lines stand for rules exactly if each may stand where it does.** -/
theorem exists_standFor_iff : (∃ rules, StandFor [] lines rules) ↔ EachMayFollow [] lines :=
  ⟨fun ⟨_, h⟩ => h.eachMayFollow, fun h => h.exists_standFor fun ⟨_, hmem, _⟩ => absurd hmem List.not_mem_nil⟩

end StandFor

/-! ## What reading finds -/

namespace RuleText

variable {before pieces lines : List (List Char)} {previous : Option String} {number : Nat} {rules : List Rule}

/-- A carriage return at the end is trimmed like any blank. -/
theorem trim_withoutReturn (line : List Char) : trim (withoutReturn line) = trim line := by
  rw [withoutReturn]
  split
  · next hreturn =>
    obtain ⟨start, rfl⟩ := List.getLast?_eq_some_iff.mp hreturn
    rw [List.dropLast_concat]
    exact (trim_blank_append (List.forall_mem_nil _) (List.forall_mem_singleton.mpr (by decide))).symm
  · rfl

/-- A carriage return at the end of a line does not matter, nor does a last line that is empty. -/
theorem readLines_endLines : readLines number previous (endLines pieces) = readLines number previous pieces := by
  fun_induction endLines pieces generalizing number previous with
  | case1 => rfl
  | case2 last hlast =>
    obtain rfl := List.isEmpty_iff.mp hlast
    rfl
  | case3 => rfl
  | case4 line rest _ ih =>
    rw [readLines, readLines, trim_withoutReturn]
    simp only [ih]

/-- Reading finds the rules that lines stand for, if it keeps the left side of the last rule line before them. -/
theorem readLines_eq_ok_iff (hprevious : ∀ left, previous = some left ↔ LastLeft before left) :
    readLines number previous lines = .ok rules ↔ StandFor before lines rules := by
  induction lines generalizing number previous before rules with
  | nil =>
    rw [readLines, Except.ok.injEq]
    refine ⟨fun h => h ▸ .nil, fun h => ?_⟩
    cases h
    rfl
  | cons line lines ih =>
    -- a blank line is skipped; it is no line of another kind and keeps the last left side
    by_cases hblank : Blank line
    · have hprevious' : ∀ left, previous = some left ↔ LastLeft (before ++ [line]) left :=
        fun left => (hprevious left).trans (lastLeft_append_of_not hblank.not_ruleLine).symm
      rw [readLines, if_pos (List.isEmpty_iff.mpr (trim_eq_nil_iff.mpr hblank)), ih hprevious']
      refine ⟨.blank hblank, fun h => ?_⟩
      cases h with
      | blank _ h => exact h
      | rule h => exact absurd hblank h.not_blank
      | continuation h => exact absurd hblank h.not_blank
    -- any other line is read by itself, and the lines behind it with the left side that it leaves
    · have hcut : ¬(trim line).isEmpty := fun h => hblank (trim_eq_nil_iff.mp (List.isEmpty_iff.mp h))
      have hrule : ∀ {rule}, RuleLine line rule →
          ∀ left, some rule.left = some left ↔ LastLeft (before ++ [line]) left :=
        fun h left => (Option.some_inj).trans (lastLeft_append_ruleLine h).symm
      have hcontinuation : ∀ {rights}, ContinuationLine line rights →
          ∀ left, previous = some left ↔ LastLeft (before ++ [line]) left :=
        fun h left => (hprevious left).trans (lastLeft_append_of_not h.not_ruleLine).symm
      rw [readLines, if_neg hcut]
      -- what is read was a rule or went on with one, and the other way round
      refine ⟨fun h => ?_, fun h => ?_⟩
      · split at h
        · cases h
        next rule hread =>
        obtain ⟨later, hlater, rfl⟩ := map_eq_ok.mp h
        rcases (readLine_trim_iff hblank).mp hread with hline | ⟨hline, rfl⟩
        · exact .rule hline ((ih (hrule hline)).mp hlater)
        · exact .continuation hline ((hprevious rule.left).mp rfl) ((ih (hcontinuation hline)).mp hlater)
      · cases h with
        | blank h => exact absurd h hblank
        | rule hline h =>
          rw [(readLine_trim_iff hblank).mpr (Or.inl hline)]
          exact map_eq_ok.mpr ⟨_, (ih (hrule hline)).mpr h, rfl⟩
        | @continuation _ _ _ left rights later hline hleft h =>
          obtain rfl := (hprevious left).mpr hleft
          have hread : readLine (some left) (trim line) = .ok ⟨left, rights⟩ :=
            (readLine_trim_iff hblank).mpr (Or.inr ⟨hline, rfl⟩)
          rw [hread]
          exact map_eq_ok.mpr ⟨_, (ih (hcontinuation hline)).mpr h, rfl⟩

/-- In front of all lines there is no left side to be continued. -/
theorem none_eq_some_iff_lastLeft (left : String) : none = some left ↔ LastLeft [] left := by
  refine ⟨fun h => (by cases h), fun h => ?_⟩
  obtain ⟨line, hmem, -⟩ := h.exists_not_blank
  exact absurd hmem List.not_mem_nil

/-- **Reading a text finds the rules that its lines stand for.** -/
theorem readRules_eq_ok_iff {text : String} : readRules text = .ok rules ↔ StandFor [] (Text.lines text) rules := by
  rw [readRules, ← readLines_endLines]
  exact readLines_eq_ok_iff none_eq_some_iff_lastLeft

end RuleText

/-! ## Whole texts -/

/-- **Exactly the texts of the line grammar are accepted.** A text is read as a grammar exactly if each of its lines is
blank, a rule line, or a continuation line behind some line that is not blank; and the grammar is the one of the rules
that the lines stand for, where a continuation line has the left side of the last rule line before it. -/
theorem Grammar.parse_exact (text : String) :
    ((∃ g, Grammar.parse text = .ok g) ↔
        ∀ before line behind, Text.lines text = before ++ line :: behind → MayFollow before line) ∧
      ∀ g, Grammar.parse text = .ok g ↔ ∃ rules, StandFor [] (Text.lines text) rules ∧ g = .ofRules rules := by
  have hparse : ∀ g, Grammar.parse text = .ok g ↔
      ∃ rules, StandFor [] (Text.lines text) rules ∧ g = .ofRules rules := by
    intro g
    rw [Grammar.parse, map_eq_ok]
    exact exists_congr fun rules => and_congr RuleText.readRules_eq_ok_iff eq_comm
  refine ⟨?_, hparse⟩
  refine Iff.trans ⟨?_, ?_⟩ exists_standFor_iff
  · rintro ⟨g, hg⟩
    obtain ⟨rules, hrules, -⟩ := (hparse g).mp hg
    exact ⟨rules, hrules⟩
  · rintro ⟨rules, hrules⟩
    exact ⟨_, (hparse _).mpr ⟨rules, hrules, rfl⟩⟩

end PredictiveGrammar
