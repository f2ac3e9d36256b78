import Mathlib.Data.List.DropRight
import PredictiveGrammar.CommandLine.Run
import PredictiveGrammar.Proofs.ReportsInRange

/-!
# Runs

A run fails before it prints anything, or it prints every report: once the grammar that was asked for is there, no
report on it can fail (`Command.run_eq`). So what a run prints is put together from runs with a single report each
(`respond_composed`), whose arguments are the same but for the words between transformations and options
(`onlyReport`).
-/

namespace PredictiveGrammar

namespace CommandLine

/-! ## Arguments in three parts -/

section

variable {α : Type} {known : String → Option α} {words rest : List String}

/-- The longest run of known words is what stands in front of the first unknown one. -/
theorem readRun_eq : readRun known words =
    ((words.takeWhile (known · |>.isSome)).filterMap known, words.dropWhile (known · |>.isSome)) := by
  induction words with
  | nil => rfl
  | cons word words ih =>
    rw [readRun]
    cases h : known word with
    | none => simp [h]
    | some found => simp [h, ih]

end

/-- The words that ask for transformations. -/
def transformationWords (arguments : List String) : List String :=
  arguments.takeWhile (Transformation.ofWord? · |>.isSome)

/-- The words that ask for reports. -/
def reportWords (arguments : List String) : List String :=
  (arguments.dropWhile (Transformation.ofWord? · |>.isSome)).takeWhile (ReportKind.ofWord? · |>.isSome)

/-- The options and the file. -/
def otherWords (arguments : List String) : List String :=
  (arguments.dropWhile (Transformation.ofWord? · |>.isSome)).dropWhile (ReportKind.ofWord? · |>.isSome)

/-- The same arguments with a single word for reports. -/
def onlyReport (arguments : List String) (word : String) : List String :=
  transformationWords arguments ++ word :: otherWords arguments

variable {arguments : List String} {command : Command} {word : String} {kind : ReportKind}

/-- Arguments are their three parts, one behind the other. -/
theorem words_append (arguments : List String) :
    transformationWords arguments ++ reportWords arguments ++ otherWords arguments = arguments := by
  rw [transformationWords, reportWords, otherWords, List.append_assoc, List.takeWhile_append_dropWhile,
    List.takeWhile_append_dropWhile]

/-- No word asks for a report and a transformation. -/
theorem ofWord?_eq_none (h : (ReportKind.ofWord? word).isSome) : Transformation.ofWord? word = none := by
  unfold ReportKind.ofWord? at h
  split at h
  case h_6 => cases h
  all_goals rfl

/-- Every word of a part means something. -/
theorem isSome_of_mem_transformationWords (word : String) (h : word ∈ transformationWords arguments) :
    (Transformation.ofWord? word).isSome :=
  List.mem_takeWhile_imp (p := (Transformation.ofWord? · |>.isSome)) h

theorem isSome_of_mem_reportWords (word : String) (h : word ∈ reportWords arguments) :
    (ReportKind.ofWord? word).isSome :=
  List.mem_takeWhile_imp (p := (ReportKind.ofWord? · |>.isSome)) h

/-- Behind the words for reports there is none directly. -/
theorem dropWhile_otherWords :
    (otherWords arguments).dropWhile (ReportKind.ofWord? · |>.isSome) = otherWords arguments :=
  List.dropWhile_idempotent _ _

/-- No word for a report stands behind the longest run of them. -/
theorem takeWhile_otherWords : (otherWords arguments).takeWhile (ReportKind.ofWord? · |>.isSome) = [] := by
  have hsplit : (otherWords arguments).takeWhile (ReportKind.ofWord? · |>.isSome) ++
      (otherWords arguments).dropWhile (ReportKind.ofWord? · |>.isSome) = otherWords arguments :=
    List.takeWhile_append_dropWhile
  rw [dropWhile_otherWords] at hsplit
  exact List.append_left_eq_self.mp hsplit

/-- The source that is named behind the options. More than one word is too many. -/
def Source.ofWords? : List String → Option Source
  | [] => some .stdin
  | [path] => some (.file path)
  | _ => none

/-- What depends only on what words ask for. -/
theorem map_eq_map_filterMap {α β : Type} {known : String → Option α} {words : List String} {f : String → β} {k : α → β}
    (h : ∀ word ∈ words, ∃ found, known word = some found ∧ f word = k found) :
    words.map f = (words.filterMap known).map k := by
  induction words with
  | nil => rfl
  | cons word words ih =>
    obtain ⟨⟨found, hfound, hword⟩, hwords⟩ := List.forall_mem_cons.mp h
    rw [List.map_cons, List.filterMap_cons_some hfound, List.map_cons, ih hwords, hword]

/-- **Which arguments are accepted**: those with a word for a report, with no word for help among the options, and
with at most one word behind them. -/
theorem ofArguments_eq_run : Invocation.ofArguments arguments = .run command ↔
    command.transformations = (transformationWords arguments).filterMap Transformation.ofWord? ∧
      command.reports = (reportWords arguments).filterMap ReportKind.ofWord? ∧ command.reports ≠ [] ∧
      ∃ rest, readOptions ⟨.plain, none⟩ (otherWords arguments) = .ok (command.options, rest) ∧
        Source.ofWords? rest = some command.source := by
  obtain ⟨transformations, reports, options, source⟩ := command
  simp only [Invocation.ofArguments, readRun_eq]
  rw [← transformationWords, ← reportWords, ← otherWords]
  rcases readOptions ⟨.plain, none⟩ (otherWords arguments) with reason | ⟨options', rest⟩
  -- options that ask for help
  · simp
  · dsimp only
    split
    · next hempty =>
      have hnone : (reportWords arguments).filterMap ReportKind.ofWord? = [] := List.isEmpty_iff.mp hempty
      refine iff_of_false nofun ?_
      rintro ⟨-, hreports, hne, -⟩
      exact hne (hreports.trans hnone)
    -- some report, so that only the number of words behind the options is left to decide
    · next hne =>
      rw [List.isEmpty_iff] at hne
      have hasked : (transformations = (transformationWords arguments).filterMap Transformation.ofWord? ∧
          reports = (reportWords arguments).filterMap ReportKind.ofWord? ∧ reports ≠ [] ∧
          ∃ rest', (Except.ok (options', rest) : Except HelpReason _) = .ok (options, rest') ∧
            Source.ofWords? rest' = some source) ↔
          transformations = (transformationWords arguments).filterMap Transformation.ofWord? ∧
            reports = (reportWords arguments).filterMap ReportKind.ofWord? ∧ options' = options ∧
            Source.ofWords? rest = some source := by
        constructor
        · rintro ⟨htransformations, hreports, -, rest', hoptions, hrest⟩
          cases hoptions
          exact ⟨htransformations, hreports, rfl, hrest⟩
        · rintro ⟨rfl, rfl, rfl, hrest⟩
          exact ⟨rfl, rfl, hne, rest, rfl, hrest⟩
      refine Iff.trans ?_ hasked.symm
      rcases rest with - | ⟨path, - | ⟨other, rest⟩⟩ <;> simp [Source.ofWords?, eq_comm]

/-- Asking for one report only keeps the words for transformations. -/
theorem transformationWords_onlyReport (h : (ReportKind.ofWord? word).isSome) :
    transformationWords (onlyReport arguments word) = transformationWords arguments := by
  rw [transformationWords, onlyReport, List.takeWhile_append_of_pos isSome_of_mem_transformationWords]
  simp [ofWord?_eq_none h]

/-- It leaves this one as the only word for a report. -/
theorem reportWords_onlyReport (h : (ReportKind.ofWord? word).isSome) :
    reportWords (onlyReport arguments word) = [word] := by
  rw [reportWords, onlyReport, List.dropWhile_append_of_pos isSome_of_mem_transformationWords]
  simp [ofWord?_eq_none h, h, takeWhile_otherWords]

/-- It keeps the words behind the reports. -/
theorem otherWords_onlyReport (h : (ReportKind.ofWord? word).isSome) :
    otherWords (onlyReport arguments word) = otherWords arguments := by
  rw [otherWords, onlyReport, List.dropWhile_append_of_pos isSome_of_mem_transformationWords]
  simp [ofWord?_eq_none h, h, dropWhile_otherWords]

/-- With a single word for reports the command is the same but for its reports. -/
theorem ofArguments_onlyReport (h : Invocation.ofArguments arguments = .run command)
    (hword : ReportKind.ofWord? word = some kind) :
    Invocation.ofArguments (onlyReport arguments word) = .run { command with reports := [kind] } := by
  have hknown : (ReportKind.ofWord? word).isSome := Option.isSome_of_eq_some hword
  obtain ⟨htransformations, -, -, hothers⟩ := ofArguments_eq_run.mp h
  rw [ofArguments_eq_run, transformationWords_onlyReport hknown, reportWords_onlyReport hknown,
    otherWords_onlyReport hknown]
  exact ⟨htransformations, by simp [hword], by simp, hothers⟩

/-! ## Reports one by one -/

variable {g : Grammar} {F : FirstSets} {W : FollowSets} {made : ReportKind → Report} {kinds : List ReportKind}

/-- **Reports that can be made are all printed**, in order and each with an end of line. -/
theorem printReports_eq (hmade : ∀ kind ∈ kinds, g.report F W kind = .ok (made kind)) (format : Format)
    (printed : String) : printReports g F W format printed kinds =
      ⟨0, printed ++ String.join (kinds.map fun kind => (made kind).render format ++ "\n"), ""⟩ := by
  induction kinds generalizing printed with
  | nil => simp [printReports]
  | cons kind kinds ih =>
    obtain ⟨hkind, hkinds⟩ := List.forall_mem_cons.mp hmade
    rw [printReports, hkind, List.map_cons, String.join_cons]
    dsimp only
    rw [ih hkinds, String.append_assoc, String.append_assoc, String.append_assoc]

/-! ## Failing before anything is printed -/

/-- The inputs on which a command fails. -/
inductive Command.Refused (command : Command) : Except ReadError String → Prop
  /-- the input could not be read -/
  | unread (error : ReadError) : Refused command (.error error)
  /-- it is no rule text -/
  | malformed {text : String} {error : GrammarError} : Grammar.parse text = .error error → Refused command (.ok text)
  /-- the start symbol that is asked for is no non-terminal of it -/
  | undeclared {text name : String} {g : Grammar} : Grammar.parse text = .ok g → command.options.start = some name →
      name ∉ g.nonTerminals.map NonTerminal.name → Refused command (.ok text)

namespace Command

variable {command : Command} {input : Except ReadError String}

/-- What is refused leaves nothing printed. -/
theorem Refused.run_eq (h : command.Refused input) : ∃ message, command.run input = .failure message := by
  -- an error of the grammar is what the run fails with
  have hfailure : ∀ text error, command.grammar text = .error error →
      command.run (.ok text) = .failure error.message := by
    intro text error heq
    rw [run, heq]
  cases h with
  | unread error => exact ⟨_, rfl⟩
  | @malformed text error hparse =>
    refine ⟨_, hfailure text error ?_⟩
    rw [Command.grammar, hparse]
    rfl
  | @undeclared text name g hparse hstart hname =>
    have hg := (Grammar.Built.parse hparse).wellFormed
    have hrefused := hg.withStart_refused fun nt hnt (heq : nt.name = name) =>
      hname (heq ▸ List.mem_map_of_mem hnt)
    have hstarted : command.options.started g = .error (.undeclaredStart name) := by
      rw [Options.started, hstart]
      exact hrefused
    refine ⟨_, hfailure text (.undeclaredStart name) ?_⟩
    rw [Command.grammar, hparse, Checked.ok_bind, hstarted]
    rfl

/-- A grammar whose start symbol can be chosen has one chosen. -/
theorem exists_started {g : Grammar} (hg : g.WellFormed) (options : Options)
    (hname : ∀ name, options.start = some name → name ∈ g.nonTerminals.map NonTerminal.name) :
    ∃ started, options.started g = .ok started ∧ started.WellFormed := by
  rw [Options.started]
  cases hstart : options.start with
  | none => exact ⟨g, rfl, hg⟩
  | some name =>
    obtain ⟨nt, hnt, rfl⟩ := List.mem_map.mp (hname name hstart)
    have hok := hg.withStart_eq hnt
    exact ⟨_, hok, hg.withStart hok⟩

/-- What is not refused leads to a grammar. -/
theorem exists_grammar (h : ¬ command.Refused input) :
    ∃ text g started transformed, input = .ok text ∧ Grammar.parse text = .ok g ∧
      command.options.started g = .ok started ∧ started.transform command.transformations = .ok transformed ∧
      command.grammar text = .ok transformed ∧ transformed.WellFormed := by
  rcases input with error | text
  · exact absurd (.unread error) h
  · rcases hparse : Grammar.parse text with error | g
    · exact absurd (.malformed hparse) h
    · obtain ⟨started, hstarted, hwf⟩ := exists_started (Grammar.Built.parse hparse).wellFormed command.options
        fun name hstart => by_contra fun hname => h (.undeclared hparse hstart hname)
      obtain ⟨transformed, htransformed, hwf⟩ := hwf.transform command.transformations
      refine ⟨text, g, started, transformed, rfl, hparse, hstarted, htransformed, ?_, hwf⟩
      rw [Command.grammar, hparse, Checked.ok_bind, hstarted, Checked.ok_bind, htransformed]

/-- **A run with a grammar prints all reports**, whichever are asked for. -/
theorem run_eq {text : String} {g : Grammar} (hgrammar : command.grammar text = .ok g) (hg : g.WellFormed) :
    ∃ (W : FollowSets) (made : ReportKind → Report), g.follow g.first = .ok W ∧
      (∀ kind, g.report g.first W kind = .ok (made kind)) ∧
      ∀ reports, ({ command with reports } : Command).run (.ok text) =
        ⟨0, String.join (reports.map fun kind => (made kind).render command.options.format ++ "\n"), ""⟩ := by
  obtain ⟨W, hfollow, hW⟩ := hg.follow_eq
  choose made hmade hrest using fun kind => Checked.report_eq hg hW kind .plain
  refine ⟨W, made, hfollow, hmade, fun reports => ?_⟩
  have hsame : ({ command with reports } : Command).grammar text = .ok g := hgrammar
  rw [run, hsame]
  dsimp only
  rw [hfollow]
  dsimp only
  rw [printReports_eq fun kind _ => hmade kind, String.empty_append]

end Command

/-! ## Single reports -/

/-- Accepted arguments are run on what their source gives. -/
theorem respond_eq_run (h : Invocation.ofArguments arguments = .run command)
    (read : Source → Except ReadError String) : respond arguments read = command.run (read command.source) := by
  rw [respond, h]

/-- **Runs are composed of runs with single reports.** Arguments that are accepted fail without printing anything if
their input is refused. Otherwise they print, one after the other, what the same arguments print with each word for
reports alone: the report on the grammar that was read, with the start symbol chosen and all transformations made. -/
theorem respond_composed (h : Invocation.ofArguments arguments = .run command)
    (read : Source → Except ReadError String) :
    transformationWords arguments ++ reportWords arguments ++ otherWords arguments = arguments ∧
      (transformationWords arguments).map Transformation.ofWord? = command.transformations.map some ∧
      (command.Refused (read command.source) →
        (respond arguments read).exitCode = 1 ∧ (respond arguments read).stdout = "") ∧
      (¬ command.Refused (read command.source) →
        (respond arguments read).exitCode = 0 ∧
        (respond arguments read).stdout =
          String.join ((reportWords arguments).map fun word => (respond (onlyReport arguments word) read).stdout) ∧
        ∃ text g started transformed W, read command.source = .ok text ∧ Grammar.parse text = .ok g ∧
          command.options.started g = .ok started ∧ started.transform command.transformations = .ok transformed ∧
          transformed.follow transformed.first = .ok W ∧
          ∀ word ∈ reportWords arguments, ∃ kind report, ReportKind.ofWord? word = some kind ∧
            transformed.report transformed.first W kind = .ok report ∧
            (respond (onlyReport arguments word) read).exitCode = 0 ∧
            (respond (onlyReport arguments word) read).stdout = report.render command.options.format ++ "\n") := by
  have hwords := ofArguments_eq_run.mp h
  refine ⟨words_append arguments, ?_, fun hrefused => ?_, fun haccepted => ?_⟩
  · rw [hwords.1]
    refine map_eq_map_filterMap fun word hword => ?_
    obtain ⟨step, hstep⟩ := Option.isSome_iff_exists.mp (isSome_of_mem_transformationWords word hword)
    exact ⟨step, hstep, hstep⟩
  -- a run that is refused prints nothing on standard output
  · obtain ⟨message, hmessage⟩ := hrefused.run_eq
    rw [respond_eq_run h, hmessage]
    exact ⟨rfl, rfl⟩
  -- a run that is not refused: asked for alone, each report is what it is among the others
  · obtain ⟨text, g, started, transformed, hinput, hparse, hstarted, htransformed, hgrammar, hwf⟩ :=
      Command.exists_grammar haccepted
    obtain ⟨W, made, hfollow, hmade, hrun⟩ := Command.run_eq hgrammar hwf
    have hsingle : ∀ word ∈ reportWords arguments, ∃ kind, ReportKind.ofWord? word = some kind ∧
        respond (onlyReport arguments word) read = ⟨0, (made kind).render command.options.format ++ "\n", ""⟩ := by
      intro word hword
      obtain ⟨kind, hkind⟩ := Option.isSome_iff_exists.mp (isSome_of_mem_reportWords word hword)
      refine ⟨kind, hkind, ?_⟩
      rw [respond_eq_run (ofArguments_onlyReport h hkind), hinput, hrun [kind]]
      simp
    have hall : respond arguments read =
        ⟨0, String.join (command.reports.map fun kind => (made kind).render command.options.format ++ "\n"), ""⟩ := by
      rw [respond_eq_run h, hinput]
      exact hrun command.reports
    refine ⟨by rw [hall], ?_, text, g, started, transformed, W, hinput, hparse, hstarted, htransformed, hfollow, ?_⟩
    -- so the output is that of the single runs, one behind the other
    · rw [hall, hwords.2.1]
      refine congrArg String.join (Eq.symm (map_eq_map_filterMap fun word hword => ?_))
      obtain ⟨kind, hkind, honly⟩ := hsingle word hword
      exact ⟨kind, hkind, by rw [honly]⟩
    -- and each of these is the report of the transformed grammar
    · intro word hword
      obtain ⟨kind, hkind, honly⟩ := hsingle word hword
      exact ⟨kind, made kind, hkind, hmade kind, by rw [honly], by rw [honly]⟩

/-- Arguments with all kinds of words: two transformations, a report asked for twice, a format and a start symbol. -/
def mixedArguments : List String := ["lf", "elf", "prod", "ll1", "prod", "-j", "-s", "A", "-v", "rules.txt"]

/-- What they ask for. -/
def mixedCommand : Command :=
  ⟨[.factorLeft, .eliminateLeftRecursion], [.rules, .table, .rules], ⟨.json, some "A"⟩, .file "rules.txt"⟩

/-- Rules for `A` that are left recursive and begin with a common symbol. -/
def mixedText : String := "S -> A b\nA -> A a | b c | b d"

/-- The rules that they print of this text. -/
def mixedRules : String :=
  "\x7b\"productions\":[\x7b\"left\":\"S\",\"rights\":[[\"A\",\"b\"]]\x7d," ++
  "\x7b\"left\":\"A\",\"rights\":[[\"b\",\"A_LF1\",\"A'\"]]\x7d," ++
  "\x7b\"left\":\"A'\",\"rights\":[[\"a\",\"A'\"],[\"ε\"]]\x7d," ++
  "\x7b\"left\":\"A_LF1\",\"rights\":[[\"c\"],[\"d\"]]\x7d]\x7d\n"

/-- The table that they print of it. -/
def mixedTable : String :=
  "\x7b\"terminals\":[\"b\",\"a\",\"c\",\"d\",\"$\"],\"rows\":[" ++
  "\x7b\"non_terminal\":\"S\",\"cells\":[[\"A\",\"b\"],null,null,null,null]\x7d," ++
  "\x7b\"non_terminal\":\"A\",\"cells\":[[\"b\",\"A_LF1\",\"A'\"],null,null,null,null]\x7d," ++
  "\x7b\"non_terminal\":\"A'\",\"cells\":[[\"ε\"],[\"a\",\"A'\"],null,null,[\"ε\"]]\x7d," ++
  "\x7b\"non_terminal\":\"A_LF1\",\"cells\":[null,null,[\"c\"],[\"d\"],null]\x7d],\"conflicts\":[]\x7d\n"

/-- Asked for alone, the rules are these. -/
theorem mixedArguments_prod :
    (respond (onlyReport mixedArguments "prod") fun _ => .ok mixedText).stdout = mixedRules := by
  decide +kernel

/-- So is the table. -/
theorem mixedArguments_ll1 :
    (respond (onlyReport mixedArguments "ll1") fun _ => .ok mixedText).stdout = mixedTable := by
  decide +kernel

/-- They print the table between two copies of the rules if the file has rules for `A`, and nothing if it cannot be
read. The rules are those after factoring and the elimination, in this order. -/
theorem respond_composed_mixedArguments :
    Invocation.ofArguments mixedArguments = .run mixedCommand ∧
      (respond mixedArguments fun _ => .ok mixedText).exitCode = 0 ∧
      (respond mixedArguments fun _ => .ok mixedText).stdout =
        String.join (["prod", "ll1", "prod"].map fun word =>
          (respond (onlyReport mixedArguments word) fun _ => .ok mixedText).stdout) ∧
      (respond mixedArguments fun _ => .ok mixedText).stdout =
        String.join [mixedRules, mixedTable, mixedRules] ∧
      (respond mixedArguments fun _ => .error .notUtf8).exitCode = 1 ∧
      (respond mixedArguments fun _ => .error .notUtf8).stdout = "" := by
  have haccepted : Invocation.ofArguments mixedArguments = .run mixedCommand := by decide
  obtain ⟨-, -, -, hprinted⟩ := respond_composed haccepted fun _ => .ok mixedText
  obtain ⟨-, -, hrefused, -⟩ := respond_composed haccepted fun _ => .error .notUtf8
  have hparsed : ((Grammar.parse mixedText).map fun g => g.nonTerminals.map NonTerminal.name) =
      .ok ["S", "A"] := by decide
  obtain ⟨hexit, hstdout, -⟩ := hprinted fun h => by
    cases h with
    | malformed hparse =>
      rw [hparse] at hparsed
      cases hparsed
    | @undeclared _ _ g hparse hstart hname =>
      rw [hparse] at hparsed
      cases hstart
      have hnames : g.nonTerminals.map NonTerminal.name = ["S", "A"] := Except.ok.inj hparsed
      exact hname (hnames ▸ by decide)
  have hwords : reportWords mixedArguments = ["prod", "ll1", "prod"] := by decide
  refine ⟨haccepted, hexit, hstdout, ?_, hrefused (.unread .notUtf8)⟩
  rw [hstdout, hwords]
  simp only [List.map_cons, List.map_nil, mixedArguments_prod, mixedArguments_ll1]

end CommandLine

end PredictiveGrammar
