import PredictiveGrammar.Proofs.FollowExact
import PredictiveGrammar.Proofs.ReportsInRange
import PredictiveGrammar.Proofs.TexLayouts

/-!
# Names in the TeX text of reports

In a table a name is written by itself: `ε` as a command, every other name escaped and marked if it is a terminal
(`Table.texSymbol`). In the other reports the line is put together first and then every letter `ε` of it is replaced.
The markup has no such letter, so the replacement can be followed name by name (`Report.render_tex`), and it comes to
writing each name by itself exactly if no name in reach has the letter except `ε` (`Grammar.Built.tex_namewise_iff`).
-/

namespace PredictiveGrammar

open Text

/-! ## The layout of a report -/

/-- The layout of a rule. -/
def Rule.texLayout (rule : Rule) (aligned : Bool) : TexLayout :=
  if rule.rights.isEmpty then []
  else
    .label rule.left :: .markup (if aligned then " & \\rightarrow &" else " \\rightarrow ") ::
      TexLayout.separated " \\mid " (rule.rights.map (TexLayout.symbols " \\ "))

/-- The layout of an array of rules. -/
def Rules.texLayout (rules : List Rule) : TexLayout :=
  TexLayout.separated "\\\\\n" ([.markup "\\[\\begin\x7barray\x7d\x7bcll\x7d"] :: rules.map (·.texLayout true) ++
    [[.markup "\\end\x7barray\x7d\\]"]])

/-- The layout of a FIRST or FOLLOW set. -/
def SetEntry.texLayout (kind : SetKind) (entry : SetEntry) : TexLayout :=
  .markup ("\\mathrm\x7b" ++ kind.name ++ "\x7d(") :: .label entry.name :: .markup ") &=& \\\x7b " ::
    (TexLayout.symbols ", " entry.members ++ [.markup " \\\x7d"])

/-- The layout of an array of sets. -/
def SetReport.texLayout (report : SetReport) : TexLayout :=
  .markup "\\[\\begin\x7barray\x7d\x7brcl\x7d\n" ::
    (TexLayout.separated "\\\\\n" (report.entries.map (·.texLayout report.kind)) ++ [.markup "\n\\end\x7barray\x7d\\]"])

/-- The layout of a row of a summary. -/
def SummaryEntry.texLayout (entry : SummaryEntry) : TexLayout :=
  TexLayout.separated " & " [[.label entry.name], [.markup (toString entry.nullable)],
    TexLayout.symbols "\\ " entry.first, TexLayout.symbols "\\ " entry.follow]

/-- The layout of a summary. -/
def SummaryReport.texLayout (report : SummaryReport) : TexLayout :=
  .markup "\\begin\x7btabular\x7d\x7bc|c|c|c\x7d\nSymbol & Nullable & First & Follow\\\\\\hline\n" ::
    (TexLayout.separated "\\\\\n " (report.map SummaryEntry.texLayout) ++ [.markup "\\\\\n\\end\x7btabular\x7d"])

/-- The layout of a cell of a table. -/
def cellLayout : Option (List String) → TexLayout
  | some production => TexLayout.symbols " \\ " production
  | none => []

/-- The layout of a table. -/
def Table.texLayout (T : Table) : TexLayout :=
  let columns := join "" (T.terminals.map fun _ => "|l")
  let header := [TexPart.markup ("\\[\\begin\x7barray\x7d\x7bc" ++ columns ++ "\x7d\n")] ::
    T.terminals.map fun name => [.symbol name]
  let rows := T.rows.map fun row => TexLayout.separated " & " ([.label row.nonTerminal] :: row.cells.map cellLayout)
  TexLayout.separated " & " header ++
    .markup "\\\\\\hline\n" :: (TexLayout.separated "\\\\\n" rows ++ [.markup "\n\\end\x7barray\x7d\\]"])

/-- The layout of a report. -/
def Report.texLayout : Report → TexLayout
  | .rules list => Rules.texLayout list
  | .sets report => report.texLayout
  | .summary report => report.texLayout
  | .table T => T.texLayout

/-! ## Reports as layouts -/

section Reports

variable {label symbol : String → String}

/-- In joined names the letters `ε` are replaced name by name. -/
theorem Tex.replaceEpsilon_names {command separator : String} {names : List String} (label : String → String)
    (h : 'ε' ∉ separator.toList) :
    Tex.replaceEpsilon command (join separator (names.map Tex.escape)) =
      (TexLayout.symbols separator names).write label (Tex.replaced command) := by
  rw [Tex.replaceEpsilon_join h, TexLayout.write_symbols, List.map_map]
  rfl

/-- Rules have `ε` replaced in all names, on left sides too. -/
theorem Rule.toTex_eq {rule : Rule} {aligned : Bool} :
    rule.toTex aligned = (rule.texLayout aligned).write (Tex.replaced "\\epsilon") (Tex.replaced "\\epsilon") := by
  rw [Rule.toTex, Rule.texLayout]
  split
  · rfl
  · have harrow : 'ε' ∉ (if aligned then " & \\rightarrow &" else " \\rightarrow ").toList := by
      cases aligned <;> decide
    simp only [TexLayout.write_cons, TexPart.write_label, TexPart.write_markup]
    rw [Tex.replaceEpsilon_append, Tex.replaceEpsilon_append, Tex.replaceEpsilon_of_notMem harrow,
      Tex.replaceEpsilon_join (by decide), TexLayout.write_separated, List.map_map, List.map_map, String.append_assoc]
    refine congrArg (fun text => _ ++ (_ ++ join _ text)) (List.map_congr_left fun right _ => ?_)
    exact Tex.replaceEpsilon_names _ (by decide)

theorem Rules.toTex_eq {rules : List Rule} :
    Rules.toTex rules = (Rules.texLayout rules).write (Tex.replaced "\\epsilon") (Tex.replaced "\\epsilon") := by
  rw [Rules.toTex, Rules.texLayout, TexLayout.write_separated]
  simp only [List.map_append, List.map_cons, List.map_nil, List.map_map, Function.comp_def, ← Rule.toTex_eq]
  simp [TexLayout.write]

/-- Sets keep the names of their non-terminals and have `ε` replaced in their members only. -/
theorem SetEntry.toTex_eq {kind : SetKind} {entry : SetEntry} :
    entry.toTex kind = (entry.texLayout kind).write Tex.escape (Tex.replaced "\\epsilon") := by
  rw [SetEntry.toTex, SetEntry.texLayout, Tex.replaceEpsilon_names Tex.escape (by decide)]
  simp [TexLayout.write_cons, TexLayout.write_append, TexLayout.write_nil, String.append_assoc]

theorem SetReport.toTex_eq {report : SetReport} :
    report.toTex = report.texLayout.write Tex.escape (Tex.replaced "\\epsilon") := by
  unfold SetReport.toTex SetReport.texLayout
  rw [TexLayout.write_cons, TexLayout.write_append, TexLayout.write_separated]
  simp only [List.map_map, Function.comp_def, ← SetEntry.toTex_eq]
  simp only [TexLayout.write_cons, TexLayout.write_nil, TexPart.write_markup, String.append_assoc, String.append_empty]

/-- So do summaries, with another command, since their cells are no formulas. -/
theorem SummaryEntry.toTex_eq {entry : SummaryEntry} :
    entry.toTex = entry.texLayout.write Tex.escape (Tex.replaced "$\\epsilon$") := by
  rw [SummaryEntry.toTex, SummaryEntry.texLayout, TexLayout.write_separated, SummaryEntry.texMembers,
    SummaryEntry.texMembers, Tex.replaceEpsilon_names Tex.escape (by decide),
    Tex.replaceEpsilon_names Tex.escape (by decide)]
  simp [TexLayout.write_cons, TexLayout.write_nil]

theorem SummaryReport.toTex_eq {report : SummaryReport} :
    report.toTex = report.texLayout.write Tex.escape (Tex.replaced "$\\epsilon$") := by
  unfold SummaryReport.toTex SummaryReport.texLayout
  rw [TexLayout.write_cons, TexLayout.write_append, TexLayout.write_separated]
  simp only [List.map_map, Function.comp_def, ← SummaryEntry.toTex_eq]
  simp only [TexLayout.write_cons, TexLayout.write_nil, TexPart.write_markup, String.append_assoc, String.append_empty]

theorem Table.texCell_eq {T : Table} {cell : Option (List String)} :
    T.texCell cell = (cellLayout cell).write label T.texSymbol := by
  cases cell with
  | none => rfl
  | some production => rw [cellLayout, TexLayout.write_symbols, Table.texCell]

/-- No column is headed by `ε`, so that the head of a table is written as its cells are. -/
theorem Table.toTex_eq {T : Table} (h : epsilon ∉ T.terminals) :
    T.toTex = T.texLayout.write Tex.escape T.texSymbol := by
  have hheader : T.terminals.map texTerminal = T.terminals.map T.texSymbol := by
    refine List.map_congr_left fun name hname => ?_
    rw [Table.texSymbol, if_neg (by rintro rfl; exact h hname), if_pos hname]
  rw [Table.toTex, Table.texLayout]
  simp only [TexLayout.write_append, TexLayout.write_cons, TexLayout.write_separated, List.map_cons, List.map_map,
    Function.comp_def, ← Table.texCell_eq, hheader]
  simp [TexLayout.write_nil, String.append_assoc]

end Reports

/-! ## Replaced names -/

/-- A rule without alternatives is not written, and neither is its left side. -/
theorem Rule.label_mem_texLayout {rule : Rule} {aligned : Bool} {name : String} :
    .label name ∈ rule.texLayout aligned ↔ rule.rights ≠ [] ∧ name = rule.left := by
  rw [Rule.texLayout]
  split
  · next h => simp_all
  · next h =>
    have hsymbols : .label name ∉ TexLayout.separated " \\mid " (rule.rights.map (TexLayout.symbols " \\ ")) := by
      rw [TexLayout.mem_separated (by simp)]
      simp [TexLayout.label_notMem_symbols]
    simp_all

/-- The symbols in a rule are those of its alternatives. -/
theorem Rule.symbol_mem_texLayout {rule : Rule} {aligned : Bool} {name : String} :
    .symbol name ∈ rule.texLayout aligned ↔ ∃ right ∈ rule.rights, name ∈ right := by
  rw [Rule.texLayout]
  split
  · next h => simp_all
  · simp [TexLayout.mem_separated, TexLayout.mem_symbols]

/-- Names in an array of rules are names in its rules. -/
theorem Rules.mem_texLayout {rules : List Rule} {part : TexPart} (hpart : ∀ text, part ≠ .markup text) :
    part ∈ Rules.texLayout rules ↔ ∃ rule ∈ rules, part ∈ rule.texLayout true := by
  rw [Rules.texLayout, TexLayout.mem_separated (hpart _)]
  simp [hpart]

/-- The labels of a report on sets are the names of the non-terminals. -/
theorem SetReport.label_mem_texLayout {report : SetReport} {name : String} :
    .label name ∈ report.texLayout ↔ ∃ entry ∈ report.entries, name = entry.name := by
  simp [SetReport.texLayout, SetEntry.texLayout, TexLayout.mem_separated, TexLayout.label_notMem_symbols]

/-- Its symbols are the members of the sets. -/
theorem SetReport.symbol_mem_texLayout {report : SetReport} {name : String} :
    .symbol name ∈ report.texLayout ↔ ∃ entry ∈ report.entries, name ∈ entry.members := by
  simp [SetReport.texLayout, SetEntry.texLayout, TexLayout.mem_separated, TexLayout.mem_symbols]

theorem SummaryReport.label_mem_texLayout {report : SummaryReport} {name : String} :
    .label name ∈ report.texLayout ↔ ∃ entry ∈ report, name = entry.name := by
  simp [SummaryReport.texLayout, SummaryEntry.texLayout, TexLayout.mem_separated, TexLayout.label_notMem_symbols]

/-- The symbols of a summary are the members of both sets. -/
theorem SummaryReport.symbol_mem_texLayout {report : SummaryReport} {name : String} :
    .symbol name ∈ report.texLayout ↔ ∃ entry ∈ report, name ∈ entry.first ∨ name ∈ entry.follow := by
  simp [SummaryReport.texLayout, SummaryEntry.texLayout, TexLayout.mem_separated, TexLayout.mem_symbols]

/-- What stands in a cell is a right side, which has symbols only. -/
theorem label_notMem_cellLayout {cell : Option (List String)} {name : String} : .label name ∉ cellLayout cell := by
  cases cell with
  | none => exact List.not_mem_nil
  | some production => exact TexLayout.label_notMem_symbols

theorem Table.label_mem_texLayout {T : Table} {name : String} :
    .label name ∈ T.texLayout ↔ ∃ row ∈ T.rows, name = row.nonTerminal := by
  simp [Table.texLayout, TexLayout.mem_separated, label_notMem_cellLayout]

namespace Report

/-- How a report writes the name that a row is about. -/
def texLabel : Report → String → String
  | .rules _ => Tex.replaced "\\epsilon"
  | .sets _ => Tex.escape
  | .summary _ => Tex.escape
  | .table _ => Tex.escape

/-- How a report writes the names that are listed. -/
def texListed : Report → String → String
  | .rules _ => Tex.replaced "\\epsilon"
  | .sets _ => Tex.replaced "\\epsilon"
  | .summary _ => Tex.replaced "$\\epsilon$"
  | .table T => T.texSymbol

/-- How a name is written by itself. -/
def texName : Report → String → String
  | .rules _ => Tex.symbol "\\epsilon"
  | .sets _ => Tex.symbol "\\epsilon"
  | .summary _ => Tex.symbol "$\\epsilon$"
  | .table T => T.texSymbol

/-- The names in which every letter `ε` is replaced: all names that rules write, the members of sets, and none in a
table. -/
def replacedNames : Report → List String
  | .rules list => list.flatMap fun rule => if rule.rights.isEmpty then [] else rule.left :: rule.rights.flatten
  | .sets report => report.entries.flatMap (·.members)
  | .summary report => report.flatMap fun entry => entry.first ++ entry.follow
  | .table _ => []

/-- In rules every name that is written is replaced. -/
theorem mem_replacedNames_rules {list : List Rule} {name : String} :
    name ∈ (Report.rules list).replacedNames ↔
      .label name ∈ Rules.texLayout list ∨ .symbol name ∈ Rules.texLayout list := by
  have hnames : ∀ rule : Rule, name ∈ (if rule.rights.isEmpty then [] else rule.left :: rule.rights.flatten) ↔
      .label name ∈ rule.texLayout true ∨ .symbol name ∈ rule.texLayout true := by
    intro rule
    rw [Rule.label_mem_texLayout, Rule.symbol_mem_texLayout]
    cases hrights : rule.rights <;> simp
  rw [Rules.mem_texLayout (by simp), Rules.mem_texLayout (by simp), replacedNames, List.mem_flatMap]
  simp only [hnames, and_or_left, exists_or]

/-- No row is about `ε`, and in a table none is about a terminal; nor is there a column for `ε`. -/
def ProperlyLabelled : Report → Prop
  | .rules _ => True
  | .sets report => ∀ entry ∈ report.entries, entry.name ≠ epsilon
  | .summary report => ∀ entry ∈ report, entry.name ≠ epsilon
  | .table T => epsilon ∉ T.terminals ∧ ∀ row ∈ T.rows, row.nonTerminal ≠ epsilon ∧ row.nonTerminal ∉ T.terminals

variable {report : Report}

/-- **What stands in a TeX text**: its layout, the names as the report writes them. -/
theorem render_tex (h : report.ProperlyLabelled) :
    report.render .tex = report.texLayout.write report.texLabel report.texListed := by
  cases report with
  | rules list => exact Rules.toTex_eq
  | sets sets => exact SetReport.toTex_eq
  | summary summary => exact SummaryReport.toTex_eq
  | table T => exact Table.toTex_eq h.1

/-- **A TeX text has its names written one by one** if no name in which letters are replaced has the letter `ε`,
except `ε`. -/
theorem render_tex_eq_iff (h : report.ProperlyLabelled) :
    report.render .tex = report.texLayout.write report.texName report.texName ↔
      ∀ name ∈ report.replacedNames, 'ε' ∈ name.toList → name = epsilon := by
  rw [render_tex h]
  cases report with
  -- labels are replaced as symbols are
  | rules list =>
    have hlong : 1 < "\\epsilon".length := by decide
    refine (TexLayout.write_replaced_iff hlong fun name _ => Or.inr rfl).trans ?_
    simp only [Tex.replaced_eq_iff hlong, texLayout, mem_replacedNames_rules, or_imp, forall_and]
  -- labels are escaped only, which is what they are by themselves, as none is `ε`
  | sets sets =>
    have hlabel : ∀ name, .label name ∈ sets.texLayout → Tex.escape name = Tex.symbol "\\epsilon" name := by
      intro name hname
      obtain ⟨entry, hentry, rfl⟩ := SetReport.label_mem_texLayout.mp hname
      rw [Tex.symbol, if_neg (h entry hentry)]
    refine (TexLayout.write_replaced_iff (by decide) fun name hname => Or.inl (hlabel name hname)).trans ?_
    simp only [and_iff_right hlabel, SetReport.symbol_mem_texLayout, replacedNames, List.mem_flatMap]
  | summary summary =>
    have hlabel : ∀ name, .label name ∈ summary.texLayout → Tex.escape name = Tex.symbol "$\\epsilon$" name := by
      intro name hname
      obtain ⟨entry, hentry, rfl⟩ := SummaryReport.label_mem_texLayout.mp hname
      rw [Tex.symbol, if_neg (h entry hentry)]
    refine (TexLayout.write_replaced_iff (by decide) fun name hname => Or.inl (hlabel name hname)).trans ?_
    simp only [and_iff_right hlabel, SummaryReport.symbol_mem_texLayout, replacedNames, List.mem_flatMap,
      List.mem_append]
  -- nothing is replaced in a table
  | table T =>
    refine iff_of_true (TexLayout.write_congr fun part hpart => ?_) (List.forall_mem_nil _)
    cases part with
    | markup text => rw [TexPart.write_markup, TexPart.write_markup]
    | label name =>
      obtain ⟨row, hrow, rfl⟩ := Table.label_mem_texLayout.mp hpart
      rw [TexPart.write_label, TexPart.write_label, texLabel, texName, Table.texSymbol, if_neg (h.2 row hrow).1,
        if_neg (h.2 row hrow).2]
    | symbol name => rw [TexPart.write_symbol, TexPart.write_symbol, texListed, texName]

end Report

/-! ## Reports on built grammars -/

namespace Grammar

variable {g : Grammar} {W : FollowSets}

/-- The entries of a report on sets are about non-terminals. -/
theorem mem_of_setReport {kind : SetKind} {find : Nat → Option SymbolSet} {report : SetReport}
    (h : g.setReport kind find = .ok report) :
    ∀ entry ∈ report.entries, ∃ nt ∈ g.nonTerminals, nt.name = entry.name := by
  obtain ⟨entries, hentries, rfl⟩ := map_eq_ok.mp h
  intro entry hentry
  obtain ⟨nt, hnt, hmade⟩ := (exists_of_mapM_eq_ok hentries).2 entry hentry
  obtain ⟨names, -, rfl⟩ := map_eq_ok.mp hmade
  exact ⟨nt, hnt, rfl⟩

/-- An entry of a summary is that of a non-terminal. -/
theorem mem_of_summaryReport {F : FirstSets} {report : SummaryReport} (h : g.summaryReport F W = .ok report) :
    ∀ entry ∈ report, ∃ nt ∈ g.nonTerminals, nt.name = entry.name := by
  intro entry hentry
  obtain ⟨nt, hnt, hmade⟩ := (exists_of_mapM_eq_ok h).2 entry hentry
  obtain ⟨first, -, hmade⟩ := bind_eq_ok.mp hmade
  obtain ⟨follow, -, rfl⟩ := map_eq_ok.mp hmade
  exact ⟨nt, hnt, rfl⟩

namespace WellFormed

variable (hg : g.WellFormed)
include hg

/-- No non-terminal is called `ε`, since this name is taken. -/
theorem name_ne_epsilon {nt : NonTerminal} (hnt : nt ∈ g.nonTerminals) : nt.name ≠ PredictiveGrammar.epsilon := by
  rw [← hg.label_index hnt]
  exact hg.label_ne_epsilon (hg.index_lt hnt) (hg.index_ne_epsilon hnt)

/-- No column of the table is headed by the name of a non-terminal. -/
theorem name_notMem_terminals {F : FirstSets} {nt : NonTerminal} (hnt : nt ∈ g.nonTerminals) :
    nt.name ∉ (g.namedTable F W).terminals := by
  intro hmem
  obtain ⟨a, ha, hname⟩ := List.mem_map.mp hmem
  have hterminal := hg.mem_columns.mp ha
  rw [← hg.label_index hnt] at hname
  obtain rfl := hg.label_inj (lt_of_isTerminal hterminal) (hg.index_lt hnt) hname
  exact not_isNonTerminal_of_isTerminal hterminal (hg.isNonTerminal_index hnt)

/-- None is headed by `ε` either. -/
theorem epsilon_notMem_terminals {F : FirstSets} : PredictiveGrammar.epsilon ∉ (g.namedTable F W).terminals := by
  intro hmem
  obtain ⟨a, ha, hname⟩ := List.mem_map.mp hmem
  have hterminal := hg.mem_columns.mp ha
  exact hg.label_ne_epsilon (lt_of_isTerminal hterminal) (hg.ne_epsilon_of_isTerminal hterminal) hname

/-- Rows are about non-terminals, which are neither `ε` nor terminals. -/
theorem properlyLabelled (hW : W.Exact g) {kind : ReportKind} {report : Report}
    (h : g.report g.first W kind = .ok report) : report.ProperlyLabelled := by
  cases kind with
  | rules =>
    obtain ⟨rules, -, rfl⟩ := map_eq_ok.mp h
    exact trivial
  -- entries are called like non-terminals, of which none is called `ε`
  | first | follow =>
    obtain ⟨sets, hsets, rfl⟩ := map_eq_ok.mp h
    intro entry hentry
    obtain ⟨nt, hnt, hname⟩ := mem_of_setReport hsets entry hentry
    exact hname ▸ hg.name_ne_epsilon hnt
  | summary =>
    obtain ⟨summary, hsummary, rfl⟩ := map_eq_ok.mp h
    intro entry hentry
    obtain ⟨nt, hnt, hname⟩ := mem_of_summaryReport hsummary entry hentry
    exact hname ▸ hg.name_ne_epsilon hnt
  -- rows too, and no column is called like a non-terminal
  | table =>
    obtain ⟨T, hT, rfl⟩ := map_eq_ok.mp h
    rw [hg.table_own hW] at hT
    obtain rfl := Except.ok.inj hT
    refine ⟨hg.epsilon_notMem_terminals, fun row hrow => ?_⟩
    obtain ⟨fill, hfill, rfl⟩ := List.mem_map.mp hrow
    obtain ⟨nt, hnt, rfl⟩ := List.mem_map.mp hfill
    exact ⟨hg.name_ne_epsilon hnt, hg.name_notMem_terminals hnt⟩

end WellFormed

/-- **TeX texts write names one by one, but for the letters `ε` in names.** -/
theorem Built.tex_namewise_iff (hg : g.Built) :
    ∃ W, g.follow g.first = .ok W ∧ ∀ kind, ∃ report, g.report g.first W kind = .ok report ∧
      report.render .tex = report.texLayout.write report.texLabel report.texListed ∧
      (report.render .tex = report.texLayout.write report.texName report.texName ↔
        ∀ name ∈ report.replacedNames, 'ε' ∈ name.toList → name = PredictiveGrammar.epsilon) := by
  obtain ⟨W, hfollow, hW⟩ := hg.wellFormed.follow_eq
  refine ⟨W, hfollow, fun kind => ?_⟩
  obtain ⟨report, hreport, -⟩ := Checked.report_eq hg.wellFormed hW kind .tex
  have hlabels := hg.wellFormed.properlyLabelled hW hreport
  exact ⟨report, hreport, Report.render_tex hlabels, Report.render_tex_eq_iff hlabels⟩

/-- A grammar with a terminal that has the letter `ε` and more. -/
def letteredTerminal : Grammar := .ofRules [⟨"S", [["aε"]]⟩]

/-- The letter is replaced in the rules, but not in the table. -/
theorem Built.tex_namewise_iff_letteredTerminal :
    letteredTerminal.Built ∧ ∃ W, letteredTerminal.follow letteredTerminal.first = .ok W ∧
      (∃ report, letteredTerminal.report letteredTerminal.first W .rules = .ok report ∧
        report.render .tex ≠ report.texLayout.write report.texName report.texName) ∧
      ∃ report, letteredTerminal.report letteredTerminal.first W .table = .ok report ∧
        report.render .tex = report.texLayout.write report.texName report.texName := by
  have hknown : ∀ kind, kind = .rules ∨ kind = .table →
      ((letteredTerminal.follow letteredTerminal.first).bind fun W =>
        (letteredTerminal.report letteredTerminal.first W kind).map Report.replacedNames) =
        .ok (if kind = .rules then ["S", "aε"] else []) := by
    rintro kind (rfl | rfl) <;> decide
  have hbuilt : letteredTerminal.Built := .ofRules _
  obtain ⟨W, hW, hreports⟩ := Built.tex_namewise_iff hbuilt
  refine ⟨hbuilt, W, hW, ?_, ?_⟩
  · obtain ⟨report, hreport, -, hiff⟩ := hreports .rules
    have hnames := hknown .rules (Or.inl rfl)
    simp only [hW, hreport, Except.bind, Except.map, Except.ok.injEq] at hnames
    refine ⟨report, hreport, hiff.not.mpr ?_⟩
    rw [hnames]
    decide
  · obtain ⟨report, hreport, -, hiff⟩ := hreports .table
    have hnames := hknown .table (Or.inr rfl)
    simp only [hW, hreport, Except.bind, Except.map, Except.ok.injEq] at hnames
    refine ⟨report, hreport, hiff.mpr ?_⟩
    rw [hnames]
    decide

/-- There the name `aε` is written `aε` in the table, and `a\\epsilon` in the rules. -/
theorem not_tex_namewise_letteredTerminal :
    ((Grammar.parse "S -> aε").bind fun g => (g.follow g.first).bind fun W => (g.report g.first W .rules).map
      fun report => (report.render .tex, report.texLayout.write report.texName report.texName)) =
        .ok ("\\[\\begin\x7barray\x7d\x7bcll\x7d\\\\\nS & \\rightarrow &a\\epsilon\\\\\n\\end\x7barray\x7d\\]",
          "\\[\\begin\x7barray\x7d\x7bcll\x7d\\\\\nS & \\rightarrow &aε\\\\\n\\end\x7barray\x7d\\]") := by
  decide

end Grammar

end PredictiveGrammar
