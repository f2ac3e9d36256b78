import Mathlib.Data.List.Sort
import Mathlib.Data.String.Basic
import PredictiveGrammar.Proofs.JsonRoundTrip
import PredictiveGrammar.Proofs.NamedSets
import PredictiveGrammar.Proofs.RecoveredReports
import PredictiveGrammar.Proofs.Runs
import PredictiveGrammar.Service

/-!
# Answers of the service

A function of rule text answers with the JSON of a report on the grammar of the text, or with the message of the error
that was met. Either can be told from the other and read back as it was: rules and tables as they are, sets of a
summary by name and in order (`Grammar.Summarizes`). The command line prints the same text for the same report, and
the same message (`Service.answers_faithful`).
-/

namespace PredictiveGrammar

/-! ## Sets by name -/

namespace Grammar

variable {g : Grammar} {W : FollowSets} {set : SymbolSet} {names : List String}

/-- The names of the members of a set in order: sorted, `ε` last. -/
structure Lists (g : Grammar) (set : SymbolSet) (names : List String) : Prop where
  /-- they are the names of the members -/
  members : ∀ name, name ∈ names ↔ name ∈ g.namesIn set
  /-- they are sorted, but for `ε` -/
  sorted : ∃ sorted, names = sorted ++ (if epsilonIndex ∈ set then [PredictiveGrammar.epsilon] else []) ∧
    sorted.Pairwise (· < ·) ∧ PredictiveGrammar.epsilon ∉ sorted

/-- The names of the members of a set except `ε`, sorted. -/
def sortedNames (g : Grammar) (set : SymbolSet) : List String :=
  ((set.erase epsilonIndex).toList.map g.label).mergeSort (· ≤ ·)

/-- The sorted names are those of the members, without `ε`. -/
theorem mem_sortedNames {name : String} :
    name ∈ g.sortedNames set ↔ ∃ a ∈ set, a ≠ epsilonIndex ∧ g.label a = name := by
  rw [sortedNames, List.mem_mergeSort, List.mem_map]
  simp only [SymbolSet.mem_toList, SymbolSet.mem_erase, and_assoc]

section

variable (hset : ∀ a ∈ set, a < g.symbols.length)
include hset

/-- **The names of a set** are sorted, and `ε` comes last if it is there. -/
theorem namesOfSet_eq : g.namesOfSet set =
    .ok (g.sortedNames set ++ if epsilonIndex ∈ set then [PredictiveGrammar.epsilon] else []) := by
  have hmembers : ∀ a ∈ (set.erase epsilonIndex).toList, a < g.symbols.length := fun a ha =>
    hset a (SymbolSet.mem_erase.mp ha).1
  rw [namesOfSet, namesOf_eq hmembers]
  refine congrArg Except.ok ?_
  split
  · rfl
  · exact (List.append_nil _).symm

/-- Different members have different names, so none is listed twice. -/
theorem WellFormed.pairwise_sortedNames (hg : g.WellFormed) : (g.sortedNames set).Pairwise (· < ·) := by
  have hmembers : ∀ a ∈ (set.erase epsilonIndex).toList, a < g.symbols.length := fun a ha =>
    hset a (SymbolSet.mem_erase.mp ha).1
  have hnodup : ((set.erase epsilonIndex).toList.map g.label).Nodup := by
    refine List.Nodup.map_on (fun a ha b hb heq => hg.label_inj (hmembers a ha) (hmembers b hb) heq) ?_
    exact (set.erase epsilonIndex).ascending.imp Nat.ne_of_lt
  have hne : (g.sortedNames set).Nodup := (List.mergeSort_perm _ _).nodup_iff.mpr hnodup
  exact (List.pairwise_mergeSort' (· ≤ ·) _).imp₂ (fun _ _ => lt_of_le_of_ne) hne

/-- **Sets are listed in order.** -/
theorem WellFormed.lists (hg : g.WellFormed) (h : g.namesOfSet set = .ok names) : g.Lists set names := by
  rw [namesOfSet_eq hset] at h
  obtain rfl := Except.ok.inj h
  refine ⟨fun name => ?_, g.sortedNames set, rfl, hg.pairwise_sortedNames hset, fun hmem => ?_⟩
  -- the names are those of the members
  · rw [List.mem_append, mem_sortedNames]
    constructor
    · rintro (⟨a, ha, -, hlabel⟩ | hname)
      · exact ⟨a, ha, nameOf_eq_ok_iff.mpr ⟨hset a ha, hlabel⟩⟩
      · obtain ⟨hmem, rfl⟩ : epsilonIndex ∈ set ∧ name = PredictiveGrammar.epsilon := by simpa using hname
        exact ⟨_, hmem, nameOf_eq_ok_iff.mpr ⟨hg.epsilon_lt, hg.label_epsilon⟩⟩
    · rintro ⟨a, ha, hname⟩
      obtain ⟨-, hlabel⟩ := nameOf_eq_ok_iff.mp hname
      by_cases hne : a = epsilonIndex
      · subst hne
        refine Or.inr ?_
        rw [if_pos ha, List.mem_singleton, ← hlabel, hg.label_epsilon]
      · exact Or.inl ⟨a, ha, hne, hlabel⟩
  -- none of the sorted ones is epsilon
  · obtain ⟨a, ha, hne, hlabel⟩ := mem_sortedNames.mp hmem
    exact hg.label_ne_epsilon (hset a ha) hne hlabel

end

/-- What a summary says of a grammar: FIRST and FOLLOW of each non-terminal, and whether it is nullable. -/
def Summarizes (g : Grammar) (W : FollowSets) (report : SummaryReport) : Prop :=
  List.Forall₂ (fun nt entry => entry.name = nt.name ∧ ∃ first follow, g.first.get? nt.index = some first ∧
    W.get? nt.index = some follow ∧ (entry.nullable ↔ epsilonIndex ∈ first) ∧ g.Lists first entry.first ∧
    g.Lists follow entry.follow) g.nonTerminals report

/-- **A summary of a well-formed grammar** has its sets in order. -/
theorem WellFormed.summarizes (hg : g.WellFormed) (hW : W.Exact g) {report : SummaryReport}
    (h : g.summaryReport g.first W = .ok report) : g.Summarizes W report := by
  refine (forall₂_of_mapM_eq_ok h).imp fun nt entry ⟨hnt, hentry⟩ => ?_
  obtain ⟨first, hfirst, hentry⟩ := bind_eq_ok.mp hentry
  obtain ⟨follow, hfollow, hentry⟩ := bind_eq_ok.mp hentry
  obtain rfl := Except.ok.inj hentry
  obtain ⟨F, hF, hltF⟩ := hg.exists_first hnt
  obtain ⟨V, hV, hltV⟩ := hg.exists_follow hW hnt
  rw [hF] at hfirst
  rw [hV] at hfollow
  exact ⟨rfl, F, V, hF, hV, by simp [FirstSets.nullable, hF], hg.lists hltF hfirst, hg.lists hltV hfollow⟩

end Grammar

/-! ## Reports as answers -/

/-- The JSON value of a report. -/
def Report.toJson : Report → JsonValue
  | .rules list => Rules.toJson list
  | .sets report => report.toJson
  | .summary report => report.toJson
  | .table T => T.toJson

theorem Report.render_json (report : Report) : report.render .json = report.toJson.render := by
  cases report <;> rfl

/-- The first field of a report is not an error. -/
theorem Report.toJson_ne_error (report : Report) :
    ∃ name value fields, report.toJson = .object ((name, value) :: fields) ∧ name ≠ "error" := by
  cases report <;> exact ⟨_, _, _, rfl, by decide⟩

namespace Service

variable {service : String → String} {words : List String} {steps : List Transformation} {kind : ReportKind}
  {text : String} {g : Grammar} {error : GrammarError}

/-- A function that reports on the grammar of a text after some transformations. -/
structure Reports (service : String → String) (steps : List Transformation) (kind : ReportKind) : Prop where
  /-- malformed text is answered for with the error -/
  failed : ∀ {text error}, Grammar.parse text = .error error → service text = (errorJson error).render
  /-- the report is the answer -/
  answered : ∀ {text g h W report}, Grammar.parse text = .ok g → g.transform steps = .ok h →
    h.follow h.first = .ok W → h.report h.first W kind = .ok report → service text = report.toJson.render

/-- The rules after one transformation are what a report on rules is about. -/
theorem rules_of_report {step : Transformation} {h : Grammar} {W : FollowSets} {report : Report}
    (htransform : g.transform [step] = .ok h) (hreport : h.report h.first W .rules = .ok report) :
    ∃ rules, step.apply g = .ok h ∧ h.rules = .ok rules ∧ report = .rules rules := by
  obtain ⟨h', happly, htransform⟩ := bind_eq_ok.mp htransform
  obtain rfl := Except.ok.inj htransform
  obtain ⟨rules, hrules, rfl⟩ := map_eq_ok.mp hreport
  exact ⟨rules, happly, hrules, rfl⟩

/-- The service for the elimination reports the rules behind it. -/
theorem reports_eliminateLeftRecursion : Reports eliminateLeftRecursion [.eliminateLeftRecursion] .rules where
  failed hparse := by
    rw [eliminateLeftRecursion, hparse]
    rfl
  answered {text g h W report} hparse htransform _ hreport := by
    obtain ⟨rules, happly, hrules, rfl⟩ := rules_of_report htransform hreport
    change g.withoutLeftRecursion = .ok _ at happly
    rw [eliminateLeftRecursion, hparse, Checked.ok_bind, happly, Checked.ok_bind, hrules]
    rfl

/-- The service for factoring reports the rules behind it. -/
theorem reports_factorLeft : Reports factorLeft [.factorLeft] .rules where
  failed hparse := by
    rw [factorLeft, hparse]
    rfl
  answered {text g h W report} hparse htransform _ hreport := by
    obtain ⟨rules, happly, hrules, rfl⟩ := rules_of_report htransform hreport
    change g.leftFactored = .ok _ at happly
    rw [factorLeft, hparse, Checked.ok_bind, happly, Checked.ok_bind, hrules]
    rfl

/-- The service for the summary reports it without a transformation. -/
theorem reports_summary : Reports summary [] .summary where
  failed hparse := by
    rw [summary, hparse]
    rfl
  answered {text g h W report} hparse htransform hfollow hreport := by
    obtain rfl := Except.ok.inj htransform
    obtain ⟨entries, hentries, rfl⟩ := map_eq_ok.mp hreport
    rw [summary, hparse, Checked.ok_bind]
    dsimp only
    rw [hfollow, Checked.ok_bind, hentries]
    rfl

/-- So does the service for the table. -/
theorem reports_table : Reports table [] .table where
  failed hparse := by
    rw [table, hparse]
    rfl
  answered {text g h W report} hparse htransform hfollow hreport := by
    obtain rfl := Except.ok.inj htransform
    obtain ⟨T, hT, rfl⟩ := map_eq_ok.mp hreport
    rw [table, hparse, Checked.ok_bind]
    dsimp only
    rw [hfollow, Checked.ok_bind, hT]
    rfl

/-! ## Faithful answers -/

/-- What a function of rule text answers, where `words` ask the command line for the same. A reader of JSON gets an
object from it: the message of an error exactly if the text is malformed, and otherwise what `data` says of the
grammar. -/
structure Faithful {α : Type} (service : String → String) (words : List String) (recover : JsonValue → Option α)
    (data : Grammar → α → Prop) (text : String) : Prop where
  /-- the answer is one object -/
  object : ∃ fields, JsonValue.read (service text) = some (.object fields)
  /-- it is a message exactly if the text is malformed -/
  message : ∀ message, JsonValue.read (service text) = some (.object [("error", .string message)]) ↔
    ∃ error, Grammar.parse text = .error error ∧ error.message = message
  /-- otherwise the data is recovered -/
  recovered : ∀ g, Grammar.parse text = .ok g → ∃ a, data g a ∧ (JsonValue.read (service text)).bind recover = some a
  /-- the command line prints the answer -/
  printed : ∀ g, Grammar.parse text = .ok g → ∀ read : CommandLine.Source → Except CommandLine.ReadError String,
    read .stdin = .ok text → CommandLine.respond words read = ⟨0, service text ++ "\n", ""⟩
  /-- or it fails with the same message -/
  refused : ∀ error, Grammar.parse text = .error error →
    ∀ read : CommandLine.Source → Except CommandLine.ReadError String, read .stdin = .ok text →
      CommandLine.respond words read = ⟨1, "", "error: " ++ error.message ++ "\n"⟩

section

variable {α : Type} {recover : JsonValue → Option α} {data : Grammar → α → Prop}

/-- Malformed text is answered for with the message of its error, which the command line prints too. -/
theorem Reports.faithful_of_error (hservice : Reports service steps kind)
    (hwords : CommandLine.Invocation.ofArguments words = .run ⟨steps, [kind], ⟨.json, none⟩, .stdin⟩)
    (hparse : Grammar.parse text = .error error) : Faithful service words recover data text := by
  have hread : JsonValue.read (service text) = some (errorJson error) := by
    rw [hservice.failed hparse, JsonValue.read_render]
  have hfailed : ∀ g, Grammar.parse text ≠ .ok g := fun g hg => by
    rw [hparse] at hg
    cases hg
  exact {
    object := ⟨_, hread⟩
    message := fun message => by
      rw [hread, hparse, errorJson]
      simp
    recovered := fun g hg => absurd hg (hfailed g)
    printed := fun g hg => absurd hg (hfailed g)
    refused := fun error' herror read hinput => by
      obtain rfl := Except.error.inj (hparse.symm.trans herror)
      rw [CommandLine.respond_eq_run hwords, hinput, CommandLine.Command.run, CommandLine.Command.grammar, hparse]
      rfl }

/-- Text that parses is answered for with the report on its grammar, which is recovered from the answer and which the
command line prints too. -/
theorem Reports.faithful_of_ok (hservice : Reports service steps kind)
    (hwords : CommandLine.Invocation.ofArguments words = .run ⟨steps, [kind], ⟨.json, none⟩, .stdin⟩)
    (hdata : ∀ {h : Grammar} {W : FollowSets} {report : Report}, g.transform steps = .ok h → h.WellFormed →
      h.follow h.first = .ok W → h.report h.first W kind = .ok report →
        ∃ a, data g a ∧ recover report.toJson = some a)
    (hparse : Grammar.parse text = .ok g) : Faithful service words recover data text := by
  -- the report is there, and the service and the command line make the same one
  obtain ⟨h, htransform, hh⟩ := (Grammar.Built.parse hparse).wellFormed.transform steps
  have hgrammar : CommandLine.Command.grammar ⟨steps, [kind], ⟨.json, none⟩, .stdin⟩ text = .ok h := by
    rw [CommandLine.Command.grammar, hparse, Checked.ok_bind]
    exact htransform
  obtain ⟨W, made, hfollow, hmade, hrun⟩ := CommandLine.Command.run_eq hgrammar hh
  have hanswer := hservice.answered hparse htransform hfollow (hmade kind)
  have hread : JsonValue.read (service text) = some (made kind).toJson := by rw [hanswer, JsonValue.read_render]
  -- it is an object that begins with another field than an error
  obtain ⟨name, value, fields, hobject, hname⟩ := (made kind).toJson_ne_error
  exact {
    object := ⟨_, hread.trans (congrArg some hobject)⟩
    message := fun message => by
      rw [hread, hparse, hobject]
      simp [hname]
    recovered := fun g' hg => by
      obtain rfl := Except.ok.inj (hparse.symm.trans hg)
      obtain ⟨a, ha, hrecover⟩ := hdata htransform hh hfollow (hmade kind)
      exact ⟨a, ha, by rw [hread, Option.bind_some, hrecover]⟩
    printed := fun _ _ read hinput => by
      rw [CommandLine.respond_eq_run hwords, hinput, hanswer, ← Report.render_json]
      refine (hrun [kind]).trans ?_
      simp
    refused := fun error herror => by
      rw [hparse] at herror
      cases herror }

/-- **A function that reports is faithful** if its reports are recovered. -/
theorem Reports.faithful (hservice : Reports service steps kind)
    (hwords : CommandLine.Invocation.ofArguments words = .run ⟨steps, [kind], ⟨.json, none⟩, .stdin⟩)
    (hdata : ∀ {g h : Grammar} {W : FollowSets} {report : Report}, g.transform steps = .ok h → h.WellFormed →
      h.follow h.first = .ok W → h.report h.first W kind = .ok report →
        ∃ a, data g a ∧ recover report.toJson = some a) (text : String) :
    Faithful service words recover data text := by
  rcases hparse : Grammar.parse text with error | g
  · exact hservice.faithful_of_error hwords hparse
  · exact hservice.faithful_of_ok hwords hdata hparse

end

/-- **The service answers every text with one JSON object.** It is the message of the error exactly if the text does
not parse. Otherwise a strict reader recovers from it the rules, the summary or the table that the library gives for
the grammar of the text, after the transformation if the function makes one. The command line, asked for the same with
`-j`, prints the very answer, or fails with the very message. -/
theorem answers_faithful (text : String) :
    Faithful eliminateLeftRecursion ["elf", "prod", "-j"] Rules.ofJson?
        (fun g rules => ∃ h, g.withoutLeftRecursion = .ok h ∧ h.rules = .ok rules) text ∧
      Faithful factorLeft ["lf", "prod", "-j"] Rules.ofJson?
        (fun g rules => ∃ h, g.leftFactored = .ok h ∧ h.rules = .ok rules) text ∧
      Faithful summary ["nff", "-j"] SummaryReport.ofJson?
        (fun g report => ∃ W, g.follow g.first = .ok W ∧ g.Summarizes W report) text ∧
      Faithful table ["ll1", "-j"] Table.ofJson?
        (fun g T => ∃ W, g.follow g.first = .ok W ∧ g.table g.first W = .ok T) text := by
  refine ⟨reports_eliminateLeftRecursion.faithful (by decide) ?_ text,
    reports_factorLeft.faithful (by decide) ?_ text, reports_summary.faithful (by decide) ?_ text,
    reports_table.faithful (by decide) ?_ text⟩
  -- the two functions that answer with rules
  · intro g h W report htransform _ _ hreport
    obtain ⟨rules, happly, hrules, rfl⟩ := rules_of_report htransform hreport
    exact ⟨rules, ⟨h, happly, hrules⟩, Rules.ofJson?_toJson rules⟩
  · intro g h W report htransform _ _ hreport
    obtain ⟨rules, happly, hrules, rfl⟩ := rules_of_report htransform hreport
    exact ⟨rules, ⟨h, happly, hrules⟩, Rules.ofJson?_toJson rules⟩
  -- the summary, whose sets are listed by name
  · intro g h W report htransform hh hfollow hreport
    obtain ⟨entries, hentries, rfl⟩ := map_eq_ok.mp hreport
    obtain rfl := Except.ok.inj htransform
    obtain ⟨W', hfollow', hW⟩ := hh.follow_eq
    obtain rfl := Except.ok.inj (hfollow.symm.trans hfollow')
    exact ⟨entries, ⟨W, hfollow, hh.summarizes hW hentries⟩, SummaryReport.ofJson?_toJson entries⟩
  -- the table
  · intro g h W report htransform _ hfollow hreport
    obtain ⟨T, hT, rfl⟩ := map_eq_ok.mp hreport
    obtain rfl := Except.ok.inj htransform
    exact ⟨T, ⟨W, hfollow, hT⟩, Table.ofJson?_toJson T⟩

end Service

end PredictiveGrammar
