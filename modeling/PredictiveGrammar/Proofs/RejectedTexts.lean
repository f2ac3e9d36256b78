import PredictiveGrammar.Proofs.ReadRules

/-!
# The texts that are rejected

Reading goes on behind what was read: more lines do not change what the lines in front of them give, and what they
give themselves depends on those in front by the left side of the last rule only (`RuleText.readLines_append`). So a
text is rejected at the end of the first line up to which it is rejected, and the error has the number of this line,
counted from one with the blank lines (`Grammar.cutAfter_of_parse_eq_error`). What is written behind it cannot hide,
move or change the error.
-/

namespace PredictiveGrammar

/-! ## Texts cut behind a line -/

namespace Text

variable {s t text front : String} {line : Nat}

/-- A text up to the end of the line with this number, counted from one. -/
structure CutAfter (text front : String) (line : Nat) : Prop where
  /-- the text ends with the line, or a line feed follows -/
  cut : text = front ∨ ∃ rest, text = front ++ "\n" ++ rest
  /-- every line feed in front of the end of the line ends an earlier one -/
  line_eq : front.toList.count '\n' + 1 = line

/-- The pieces of a text between line feeds. -/
def rows (text : String) : List (List Char) := text.toList.splitOn '\n'

/-- Cutting at an element gives one piece more than there are such elements. -/
theorem length_splitOn {α : Type} [DecidableEq α] (a : α) (l : List α) : (l.splitOn a).length = l.count a + 1 := by
  rw [List.splitOn_eq_splitOnP]
  induction l with
  | nil => rfl
  | cons b l ih =>
    rw [List.splitOnP_cons_eq_if_modifyHead, List.count_cons]
    split
    · rw [List.length_cons, ih]
    · rw [List.length_modifyHead, ih, Nat.add_zero]

/-- Putting a line break between two texts puts their lines behind each other. -/
theorem rows_append (s t : String) : rows (s ++ "\n" ++ t) = rows s ++ rows t := by
  rw [rows, String.toList_append, String.toList_append, List.append_assoc]
  exact List.splitOn_append_cons_self s.toList t.toList

/-- Lines determine the text. -/
theorem rows_injective (h : rows s = rows t) : s = t := by
  have hjoined : ∀ s : String, ['\n'].intercalate (rows s) = s.toList := fun s => List.intercalate_splitOn '\n'
  rw [← String.toList_inj, ← hjoined, ← hjoined, h]

/-- Any pieces of a text are the pieces of another one. -/
theorem exists_rows_eq {pieces : List (List Char)} (hne : pieces ≠ []) (h : ∀ piece ∈ pieces, piece ∈ rows text) :
    ∃ s, rows s = pieces := by
  refine ⟨String.ofList (['\n'].intercalate pieces), ?_⟩
  rw [rows, String.toList_ofList]
  refine List.splitOn_intercalate '\n' (fun piece hpiece hmem => ?_) hne
  have hrow := h piece hpiece
  rw [rows, List.splitOn_eq_splitOnP] at hrow
  cases (infix_of_mem_splitOnP hrow).2 '\n' hmem

/-- **A text up to the end of a line** consists of the first pieces of the text. -/
theorem cutAfter_iff : CutAfter text front line ↔ rows front <+: rows text ∧ (rows front).length = line := by
  refine ⟨fun h => ⟨?_, (length_splitOn '\n' front.toList).trans h.line_eq⟩, ?_⟩
  · rcases h.cut with rfl | ⟨rest, rfl⟩
    · exact List.prefix_refl _
    · rw [rows_append]
      exact List.prefix_append _ _
  · rintro ⟨⟨back, hback⟩, hlength⟩
    refine ⟨?_, (length_splitOn '\n' front.toList).symm.trans hlength⟩
    by_cases hne : back = []
    · subst hne
      rw [List.append_nil] at hback
      exact Or.inl (rows_injective hback.symm)
    · have hrows : ∀ piece ∈ back, piece ∈ rows text := fun piece hpiece => hback ▸ List.mem_append_right _ hpiece
      obtain ⟨rest, rfl⟩ := exists_rows_eq hne hrows
      rw [← rows_append] at hback
      exact Or.inr ⟨rest, rows_injective hback.symm⟩

end Text

open Text

/-! ## Lines behind lines -/

namespace RuleText

variable {number : Nat} {previous : Option String} {front back lines : List (List Char)} {e : GrammarError}

/-- The left side that is to be continued behind some rules, where `previous` is the one in front of them. -/
def lastLeft (previous : Option String) (rules : List Rule) : Option String :=
  rules.foldl (fun _ rule => some rule.left) previous

/-- **Reading goes on behind what was read.** -/
theorem readLines_append (number : Nat) (previous : Option String) (front back : List (List Char)) :
    readLines number previous (front ++ back) = (do
      let rules ← readLines number previous front
      (rules ++ ·) <$> readLines (number + front.length) (lastLeft previous rules) back) := by
  induction front generalizing number previous with
  | nil =>
    change readLines number previous back = id <$> readLines number previous back
    rw [id_map]
  | cons line front ih =>
    have hnumber : number + 1 + front.length = number + (line :: front).length := Nat.add_right_comm _ _ _
    rw [List.cons_append, readLines, readLines]
    split
    · rw [ih, hnumber]
    · cases readLine previous (trim line) with
      | error reason => rfl
      | ok rule =>
        simp only [ih, hnumber]
        cases readLines (number + 1) (some rule.left) front with
        | error e => rfl
        | ok rules =>
          exact (comp_map (rules ++ ·) (rule :: ·) _).symm

/-- What is refused stays refused whatever is behind it. -/
theorem readLines_append_of_error (h : readLines number previous front = .error e) :
    readLines number previous (front ++ back) = .error e := by
  rw [readLines_append, h]
  rfl

/-- A single line is refused with its own number. -/
theorem exists_of_readLines_singleton_eq_error {line : List Char} (h : readLines number previous [line] = .error e) :
    ∃ reason, e = .malformedRule number reason := by
  rw [readLines] at h
  split at h
  · cases h
  · split at h
    · next reason _ => exact ⟨reason, (Except.error.inj h).symm⟩
    · cases h

/-- Lines that are rejected are read up to the first one with which they are rejected. -/
theorem exists_of_readLines_eq_error (h : readLines number previous lines = .error e) :
    ∃ front line back, lines = front ++ line :: back ∧ (∃ rules, readLines number previous front = .ok rules) ∧
      readLines number previous (front ++ [line]) = .error e ∧
      ∃ reason, e = .malformedRule (number + front.length) reason := by
  induction lines using List.reverseRecOn with
  | nil => cases h
  | append_singleton lines last ih =>
    cases hlines : readLines number previous lines with
    | error e' =>
      obtain rfl := Except.error.inj ((readLines_append_of_error hlines).symm.trans h)
      obtain ⟨front, line, back, rfl, hfront⟩ := ih hlines
      exact ⟨front, line, back ++ [last], by simp, hfront⟩
    | ok rules =>
      refine ⟨lines, last, [], rfl, ⟨rules, hlines⟩, h, ?_⟩
      rw [readLines_append, hlines] at h
      exact exists_of_readLines_singleton_eq_error (map_eq_error.mp h)

end RuleText

/-! ## Whole texts -/

namespace Grammar

variable {s t text : String} {e : GrammarError}

/-- A text is refused if its lines are, with the same error. -/
theorem parse_eq_error_iff : Grammar.parse text = .error e ↔ RuleText.readLines 1 none (rows text) = .error e := by
  rw [Grammar.parse, map_eq_error]
  rfl

/-- A text is accepted if its lines are. -/
theorem exists_parse_eq_ok_iff :
    (∃ g, Grammar.parse text = .ok g) ↔ ∃ rules, RuleText.readLines 1 none (rows text) = .ok rules := by
  refine ⟨?_, ?_⟩
  · rintro ⟨g, hg⟩
    obtain ⟨rules, hrules, -⟩ := map_eq_ok.mp hg
    exact ⟨rules, hrules⟩
  · rintro ⟨rules, hrules⟩
    exact ⟨_, map_eq_ok.mpr ⟨rules, hrules, rfl⟩⟩

/-- Lines behind others do not change their error. -/
theorem parse_of_cutAfter {front : String} {line : Nat} (hcut : CutAfter text front line)
    (h : Grammar.parse front = .error e) : Grammar.parse text = .error e := by
  obtain ⟨⟨back, hback⟩, -⟩ := cutAfter_iff.mp hcut
  rw [parse_eq_error_iff] at h ⊢
  rw [← hback]
  exact RuleText.readLines_append_of_error h

theorem cutAfter_append (s t : String) : CutAfter (s ++ "\n" ++ t) s (s.toList.count '\n' + 1) :=
  ⟨Or.inr ⟨t, rfl⟩, rfl⟩

/-- **An error names the first line up to which the text is rejected.** -/
theorem cutAfter_of_parse_eq_error (h : Grammar.parse text = .error e) :
    ∃ line reason, e = .malformedRule line reason ∧
      (∃ front, CutAfter text front line ∧ Grammar.parse front = .error e) ∧
      ∀ earlier < line, ∀ front, CutAfter text front earlier → ∃ g, Grammar.parse front = .ok g := by
  obtain ⟨front, line, back, hrows, ⟨rules, hfront⟩, hline, reason, he⟩ :=
    RuleText.exists_of_readLines_eq_error (parse_eq_error_iff.mp h)
  refine ⟨1 + front.length, reason, he, ?_, fun earlier hearlier start hstart => ?_⟩
  · have hfirst : front ++ [line] <+: rows text := ⟨back, by rw [hrows, List.append_assoc, List.singleton_append]⟩
    obtain ⟨start, hstart⟩ := exists_rows_eq (by simp) fun piece hpiece => hfirst.mem hpiece
    refine ⟨start, cutAfter_iff.mpr ⟨hstart ▸ hfirst, ?_⟩, parse_eq_error_iff.mpr (hstart ▸ hline)⟩
    rw [hstart, List.length_append, List.length_singleton, Nat.add_comm]
  · obtain ⟨hfirst, hlength⟩ := cutAfter_iff.mp hstart
    have hshort : rows start <+: front :=
      List.prefix_of_prefix_length_le hfirst ⟨line :: back, hrows.symm⟩ (by omega)
    obtain ⟨later, rfl⟩ := hshort
    rw [exists_parse_eq_ok_iff]
    rw [RuleText.readLines_append] at hfront
    obtain ⟨read, hread, -⟩ := bind_eq_ok.mp hfront
    exact ⟨read, hread⟩

/-- **The first malformed line is reported.** If a text is rejected, it is so for a line and a reason, and the same
ones are reported whatever lines are added. If a text is read and is rejected with more lines, the line reported is
one of those, so its number is greater than that of all lines of the text; and it is the first one, counted with the
blank lines, such that the longer text up to its end is rejected. -/
theorem parse_reportsFirst (s t : String) :
    (∀ e, Grammar.parse s = .error e → ∃ line reason, e = .malformedRule line reason ∧
        Grammar.parse (s ++ "\n" ++ t) = .error (.malformedRule line reason)) ∧
      ∀ g e, Grammar.parse s = .ok g → Grammar.parse (s ++ "\n" ++ t) = .error e →
        ∃ line reason, e = .malformedRule line reason ∧ s.toList.count '\n' + 1 < line ∧
          (∃ front, CutAfter (s ++ "\n" ++ t) front line ∧ Grammar.parse front = .error e) ∧
          ∀ earlier < line, ∀ front, CutAfter (s ++ "\n" ++ t) front earlier → ∃ g, Grammar.parse front = .ok g := by
  refine ⟨fun e hs => ?_, fun g e hs h => ?_⟩
  · obtain ⟨line, reason, rfl, -⟩ := cutAfter_of_parse_eq_error hs
    exact ⟨line, reason, rfl, parse_of_cutAfter (cutAfter_append s t) hs⟩
  · obtain ⟨line, reason, rfl, ⟨front, hfront, herror⟩, hearlier⟩ := cutAfter_of_parse_eq_error h
    refine ⟨line, reason, rfl, ?_, ⟨front, hfront, herror⟩, hearlier⟩
    -- otherwise the line would be one of the text that is read
    by_contra hline
    obtain ⟨hfirst, hlength⟩ := cutAfter_iff.mp hfront
    obtain ⟨hwhole, hcount⟩ := cutAfter_iff.mp (cutAfter_append s t)
    have hshort := List.prefix_of_prefix_length_le hfirst hwhole (by omega)
    have hrejected := parse_of_cutAfter (cutAfter_iff.mpr ⟨hshort, hlength⟩) herror
    rw [hs] at hrejected
    cases hrejected

/-- Two rules around a blank line. -/
def blankBetween : String := "S -> a\n\n| b"

/-- Behind them another blank line is counted, and the line without an arrow is the fifth; behind that line, one that
alone would be rejected for another reason changes nothing. -/
theorem parse_reportsFirst_blankBetween :
    (∃ g, Grammar.parse blankBetween = .ok g) ∧
      (∃ front, CutAfter (blankBetween ++ "\n" ++ "\r\nT |") front 5 ∧
        Grammar.parse front = .error (.malformedRule 5 .missingArrow)) ∧
      Grammar.parse (blankBetween ++ "\n" ++ "\r\nT |" ++ "\n" ++ "$ -> c") =
        .error (.malformedRule 5 .missingArrow) := by
  have hread : (Grammar.parse blankBetween).toBool = true := by decide
  have hrejected : Grammar.parse (blankBetween ++ "\n" ++ "\r\nT |") =
      .error (.malformedRule 5 .missingArrow) := by decide
  cases hg : Grammar.parse blankBetween with
  | error e =>
    rw [hg] at hread
    cases hread
  | ok g =>
    obtain ⟨line, reason, heq, -, hfront, -⟩ := (parse_reportsFirst blankBetween "\r\nT |").2 g _ hg hrejected
    obtain ⟨rfl, rfl⟩ := GrammarError.malformedRule.inj heq
    obtain ⟨line, reason, heq, hmore⟩ := (parse_reportsFirst (blankBetween ++ "\n" ++ "\r\nT |") "$ -> c").1 _ hrejected
    exact ⟨⟨g, rfl⟩, hfront, heq ▸ hmore⟩

end Grammar

end PredictiveGrammar
