import PredictiveGrammar.Main
import PredictiveGrammar.Proofs.Lists
import PredictiveGrammar.Proofs.Runs

/-!
# How arguments are written

The arguments that lead to a run are those that a form is written as (`ArgumentForm.words`): words for transformations,
words for reports, settings and perhaps a file. Settings are prefix-free, so what stands behind the reports is in one
way a list of settings with something behind it that begins with none (`exists_settings`, `settings_unique`), and
reading options goes through the settings and is decided by what is behind them (`readOptions_settings`). So a form is
found for all arguments that are run, there is only one, and everything else gets help (`arguments_accepted`). The
program reads the bytes of the source that a form names and does what `respond` does on their text (`reads_source`).
-/

namespace PredictiveGrammar

/-- The word for a transformation. -/
def Transformation.word : Transformation → String
  | .eliminateLeftRecursion => "elf"
  | .factorLeft => "lf"

/-- The word for a report. -/
def ReportKind.word : ReportKind → String
  | .rules => "prod"
  | .first => "first"
  | .follow => "follow"
  | .summary => "nff"
  | .table => "ll1"

/-! ## Words -/

namespace Transformation

/-- What is written as a word is read from this word. -/
theorem ofWord?_word (step : Transformation) : ofWord? step.word = some step := by
  cases step <;> rfl

/-- What is read from a word is written as this word. -/
theorem word_of_ofWord? {word : String} {step : Transformation} (h : ofWord? word = some step) : step.word = word := by
  unfold ofWord? at h
  split at h <;> cases h <;> rfl

/-- Words tell apart what they are written for. -/
theorem word_injective : Function.Injective word := fun step step' heq =>
  Option.some.inj (by rw [← ofWord?_word, heq, ofWord?_word])

end Transformation

namespace ReportKind

/-- What is written as a word is read from this word. -/
theorem ofWord?_word (kind : ReportKind) : ofWord? kind.word = some kind := by
  cases kind <;> rfl

/-- What is read from a word is written as this word. -/
theorem word_of_ofWord? {word : String} {kind : ReportKind} (h : ofWord? word = some kind) : kind.word = word := by
  unfold ofWord? at h
  split at h <;> cases h <;> rfl

/-- Words tell apart what they are written for. -/
theorem word_injective : Function.Injective word := fun kind kind' heq =>
  Option.some.inj (by rw [← ofWord?_word, heq, ofWord?_word])

/-- All other words mean nothing here. -/
theorem ofWord?_eq_none_iff {word : String} : ofWord? word = none ↔ ∀ kind : ReportKind, word ≠ kind.word := by
  refine ⟨?_, fun h => ?_⟩
  · rintro h kind rfl
    rw [ofWord?_word] at h
    cases h
  · rcases hword : ofWord? word with - | kind
    · rfl
    · exact absurd (word_of_ofWord? hword).symm (h kind)

end ReportKind

namespace CommandLine

/-! ## Forms -/

/-- An option that does not ask for help. -/
inductive Setting
  /-- write reports in TeX format -/
  | tex
  /-- write reports in JSON format -/
  | json
  /-- log more -/
  | verbose
  /-- log even more -/
  | moreVerbose
  /-- use this start symbol -/
  | start (name : String)
deriving DecidableEq

namespace Setting

/-- How a setting is written. A name may be any word. -/
def words : Setting → List String
  | .tex => ["-l"]
  | .json => ["-j"]
  | .verbose => ["-v"]
  | .moreVerbose => ["-vv"]
  | .start name => ["-s", name]

/-- The format that a setting asks for. -/
def format? : Setting → Option Format
  | .tex => some .tex
  | .json => some .json
  | _ => none

/-- The start symbol that a setting asks for. -/
def start? : Setting → Option String
  | .start name => some name
  | _ => none

end Setting

/-- What settings say: the last format counts, and the last start symbol. -/
def Options.ofSettings (settings : List Setting) : Options where
  format := (settings.filterMap Setting.format?).getLast?.getD .plain
  start := (settings.filterMap Setting.start?).getLast?

/-- The source that is read: the file, if there is one. -/
def Source.ofFile : Option String → Source
  | some path => .file path
  | none => .stdin

/-- The words that are options. -/
def optionWords : List String := ["-h", "--help", "-l", "-j", "-s", "-v", "-vv"]

/-- The words for help. -/
def helpWords : List String := ["-h", "--help"]

/-- What arguments consist of, in this order. -/
structure ArgumentForm where
  /-- the transformations -/
  transformations : List Transformation
  /-- the reports -/
  reports : List ReportKind
  /-- the options -/
  settings : List Setting
  /-- the file, if there is one -/
  file : Option String
deriving DecidableEq

namespace ArgumentForm

/-- How a form is written. -/
def words (form : ArgumentForm) : List String :=
  form.transformations.map Transformation.word ++
    (form.reports.map ReportKind.word ++ (form.settings.flatMap Setting.words ++ form.file.toList))

/-- What makes a form one of accepted arguments. -/
structure Valid (form : ArgumentForm) : Prop where
  /-- some report is asked for -/
  reports : form.reports ≠ []
  /-- a file is not named like an option -/
  file : ∀ path ∈ form.file, path ∉ optionWords
  /-- nor like a report, if it stands right behind the reports -/
  behind : form.settings = [] → ∀ path ∈ form.file, ∀ kind : ReportKind, path ≠ kind.word

/-- What a form asks for. -/
def command (form : ArgumentForm) : Command :=
  ⟨form.transformations, form.reports, .ofSettings form.settings, .ofFile form.file⟩

end ArgumentForm

/-- Behind the longest runs of words for transformations and then for reports there are settings, and behind them is a
word for help. -/
def AsksForHelp (arguments : List String) : Prop :=
  ∃ (settings : List Setting) (help : String) (rest : List String),
    otherWords arguments = settings.flatMap Setting.words ++ help :: rest ∧ help ∈ helpWords

/-- The program reads the bytes of a source and nothing else, and does what `respond` does on their text, or on what the
system says against reading. -/
def Reads (arguments : List String) (source : Source) : Prop :=
  ∀ world, match source.bytes world with
    | .ok bytes world' => outcomeOf arguments world = .ok (respond arguments fun _ => decode bytes) world'
    | .error error world' =>
      outcomeOf arguments world = .ok (respond arguments fun _ => .error (.ofSystem error)) world'

/-! ## Option words -/

/-- All other words are no options. -/
theorem OptionWord.ofWord?_eq_none_iff {word : String} : ofWord? word = none ↔ word ∉ optionWords := by
  unfold ofWord?
  split <;> simp_all [optionWords]

theorem OptionWord.ofWord?_eq_help_iff {word : String} : ofWord? word = some .help ↔ word ∈ helpWords := by
  unfold ofWord?
  split <;> simp_all [helpWords]

/-- The words of the longest run are those of what it asks for. -/
theorem map_word_transformationWords (arguments : List String) :
    ((transformationWords arguments).filterMap Transformation.ofWord?).map Transformation.word =
      transformationWords arguments := by
  rw [← map_eq_map_filterMap (f := id), List.map_id]
  intro word hword
  obtain ⟨step, hstep⟩ := Option.isSome_iff_exists.mp (isSome_of_mem_transformationWords word hword)
  exact ⟨step, hstep, (Transformation.word_of_ofWord? hstep).symm⟩

theorem map_word_reportWords (arguments : List String) :
    ((reportWords arguments).filterMap ReportKind.ofWord?).map ReportKind.word = reportWords arguments := by
  rw [← map_eq_map_filterMap (f := id), List.map_id]
  intro word hword
  obtain ⟨kind, hkind⟩ := Option.isSome_iff_exists.mp (isSome_of_mem_reportWords word hword)
  exact ⟨kind, hkind, (ReportKind.word_of_ofWord? hkind).symm⟩

/-! ## Settings -/

/-- No setting is written at the begin of some words. -/
def NoSetting (words : List String) : Prop := ∀ (setting : Setting) (more : List String), words ≠ setting.words ++ more

variable {setting setting' : Setting} {settings settings' : List Setting} {words words' rest rest' : List String}

/-- Settings are prefix-free. -/
theorem Setting.words_append_inj (h : setting.words ++ words = setting'.words ++ words') :
    setting = setting' ∧ words = words' := by
  cases setting <;> cases setting' <;> simp_all [Setting.words]

theorem Setting.length_words_pos (setting : Setting) : 0 < setting.words.length := by
  cases setting <;> exact Nat.succ_pos _

/-- Settings can be taken from the front of words until there is none. -/
theorem exists_settings (words : List String) :
    ∃ (settings : List Setting) (rest : List String),
      words = settings.flatMap Setting.words ++ rest ∧ NoSetting rest := by
  induction hlength : words.length using Nat.strong_induction_on generalizing words with
  | _ n ih =>
    by_cases hnone : NoSetting words
    · exact ⟨[], words, rfl, hnone⟩
    · simp only [NoSetting, ne_eq, not_forall, not_not] at hnone
      obtain ⟨setting, more, rfl⟩ := hnone
      have hpos := setting.length_words_pos
      rw [List.length_append] at hlength
      obtain ⟨settings, rest, hmore, hrest⟩ := ih more.length (by omega) more rfl
      refine ⟨setting :: settings, rest, ?_, hrest⟩
      rw [List.flatMap_cons, List.append_assoc, ← hmore]

/-- There is one way to do so. -/
theorem settings_unique (hrest : NoSetting rest) (hrest' : NoSetting rest')
    (h : settings.flatMap Setting.words ++ rest = settings'.flatMap Setting.words ++ rest') :
    settings = settings' ∧ rest = rest' := by
  induction settings generalizing settings' with
  | nil =>
    cases settings' with
    | nil => exact ⟨rfl, h⟩
    | cons setting' settings' =>
      rw [List.flatMap_cons, List.append_assoc] at h
      exact absurd h (hrest setting' _)
  | cons setting settings ih =>
    rw [List.flatMap_cons, List.append_assoc] at h
    cases settings' with
    | nil => exact absurd h.symm (hrest' setting _)
    | cons setting' settings' =>
      rw [List.flatMap_cons, List.append_assoc] at h
      obtain ⟨rfl, hmore⟩ := Setting.words_append_inj h
      obtain ⟨rfl, hsame⟩ := ih hmore
      exact ⟨rfl, hsame⟩

/-- A setting is read and changes what it sets. -/
theorem readOptions_words (options : Options) (setting : Setting) (more : List String) :
    readOptions options (setting.words ++ more) =
      readOptions ⟨setting.format?.getD options.format, setting.start?.or options.start⟩ more := by
  cases setting <;> rfl

/-- **Reading options goes through the settings**, and the last of each kind counts. -/
theorem readOptions_settings (options : Options) (settings : List Setting) (rest : List String) :
    readOptions options (settings.flatMap Setting.words ++ rest) =
      readOptions ⟨(settings.filterMap Setting.format?).getLast?.getD options.format,
        (settings.filterMap Setting.start?).getLast?.or options.start⟩ rest := by
  induction settings generalizing options with
  | nil => rfl
  | cons setting settings ih =>
    rw [List.flatMap_cons, List.append_assoc, readOptions_words, ih, getLast?_filterMap_cons, getLast?_filterMap_cons,
      Option.getD_or, Option.or_assoc]

theorem readOptions_ofSettings (settings : List Setting) (rest : List String) :
    readOptions ⟨.plain, none⟩ (settings.flatMap Setting.words ++ rest) = readOptions (.ofSettings settings) rest := by
  rw [readOptions_settings, Option.or_none]
  rfl

/-- Reading options ends in front of a word that is none. -/
theorem readOptions_other {word : String} (h : word ∉ optionWords) (options : Options) (more : List String) :
    readOptions options (word :: more) = .ok (options, word :: more) := by
  unfold readOptions
  rw [OptionWord.ofWord?_eq_none_iff.mpr h]

/-- Reading options is given up at a word for help, whatever stands behind it. -/
theorem readOptions_help {word : String} (h : word ∈ helpWords) (options : Options) (more : List String) :
    readOptions options (word :: more) = .error .asked := by
  unfold readOptions
  rw [OptionWord.ofWord?_eq_help_iff.mpr h]

/-- What is behind the settings asks for help, is an option without its name, or begins with no option. -/
theorem readOptions_cases (hrest : NoSetting rest) (options : Options) :
    (∃ help more, rest = help :: more ∧ help ∈ helpWords) ∧ readOptions options rest = .error .asked ∨
      readOptions options rest = .error .misused ∨
      (∀ word ∈ rest.head?, word ∉ optionWords) ∧ readOptions options rest = .ok (options, rest) := by
  rcases rest with - | ⟨word, more⟩
  · exact Or.inr (Or.inr ⟨by simp, rfl⟩)
  · by_cases hword : word ∈ optionWords
    · simp only [optionWords, List.mem_cons, List.not_mem_nil, or_false] at hword
      rcases hword with rfl | rfl | rfl | rfl | rfl | rfl | rfl
      · exact Or.inl ⟨⟨_, more, rfl, by decide⟩, rfl⟩
      · exact Or.inl ⟨⟨_, more, rfl, by decide⟩, rfl⟩
      · exact absurd rfl (hrest .tex more)
      · exact absurd rfl (hrest .json more)
      · cases more with
        | nil => exact Or.inr (Or.inl rfl)
        | cons name more => exact absurd rfl (hrest (.start name) more)
      · exact absurd rfl (hrest .verbose more)
      · exact absurd rfl (hrest .moreVerbose more)
    · exact Or.inr (Or.inr ⟨by simpa using hword, readOptions_other hword options more⟩)

/-- Help is asked for by a word for help behind settings. -/
theorem readOptions_eq_asked_iff (options : Options) :
    readOptions options words = .error .asked ↔ ∃ (settings : List Setting) (help : String) (rest : List String),
      words = settings.flatMap Setting.words ++ help :: rest ∧ help ∈ helpWords := by
  refine ⟨fun h => ?_, ?_⟩
  · obtain ⟨settings, rest, rfl, hrest⟩ := exists_settings words
    rw [readOptions_settings] at h
    rcases readOptions_cases hrest _ with ⟨⟨help, more, rfl, hhelp⟩, -⟩ | hmisused | ⟨-, hok⟩
    · exact ⟨settings, help, more, rfl, hhelp⟩
    · rw [hmisused] at h
      cases h
    · rw [hok] at h
      cases h
  · rintro ⟨settings, help, rest, rfl, hhelp⟩
    rw [readOptions_settings, readOptions_help hhelp]

/-! ## Valid forms -/

variable {form form' : ArgumentForm} {arguments : List String} {command : Command}

/-- The source of a file or none is found. -/
theorem ofWords?_toList (file : Option String) : Source.ofWords? file.toList = some (.ofFile file) := by
  cases file <;> rfl

/-- At most one word behind the settings is a file or none. -/
theorem exists_file {source : Source} (h : Source.ofWords? rest = some source) :
    ∃ file : Option String, rest = file.toList ∧ source = .ofFile file := by
  match rest with
  | [] => exact ⟨none, rfl, (Option.some.inj h).symm⟩
  | [path] => exact ⟨some path, rfl, (Option.some.inj h).symm⟩
  | _ :: _ :: _ => cases h

theorem toList_inj {file file' : Option String} (h : file.toList = file'.toList) : file = file' := by
  cases file <;> cases file' <;> simp_all

/-- Behind the settings of a valid form there is none. -/
theorem noSetting_toList {file : Option String} (h : ∀ path ∈ file, path ∉ optionWords) : NoSetting file.toList := by
  intro setting more heq
  cases file with
  | none => cases setting <;> cases heq
  | some path =>
    have hpath := h path rfl
    cases setting <;> simp_all [Setting.words, optionWords]

namespace ArgumentForm.Valid

variable (h : form.Valid)
include h

/-- Right behind the words for reports there is none. -/
theorem takeWhile_behind : (form.settings.flatMap Setting.words ++ form.file.toList).takeWhile
    (ReportKind.ofWord? · |>.isSome) = [] := by
  rcases hsettings : form.settings with - | ⟨setting, settings⟩
  · rcases hfile : form.file with - | path
    · rfl
    · have hnone := ReportKind.ofWord?_eq_none_iff.mpr (h.behind hsettings path hfile)
      simp [hnone]
  · cases setting <;> rfl

/-- The longest run of words for transformations of a valid form is its own, since a report stands behind it. -/
theorem transformationWords_words : transformationWords form.words = form.transformations.map Transformation.word := by
  obtain ⟨kind, kinds, hkinds⟩ := List.exists_cons_of_ne_nil h.reports
  have hknown : ∀ word ∈ form.transformations.map Transformation.word, (Transformation.ofWord? word).isSome := by
    simp [Transformation.ofWord?_word]
  have hnone : Transformation.ofWord? kind.word = none := ofWord?_eq_none (by rw [ReportKind.ofWord?_word]; rfl)
  rw [transformationWords, words, List.takeWhile_append_of_pos hknown, hkinds]
  simp [hnone]

/-- The longest run of words for reports is its own, since no word for a report stands behind it. -/
theorem reportWords_words : reportWords form.words = form.reports.map ReportKind.word := by
  have hknown : ∀ word ∈ form.reports.map ReportKind.word, (ReportKind.ofWord? word).isSome := by
    simp [ReportKind.ofWord?_word]
  have hsplit : transformationWords form.words ++ form.words.dropWhile (Transformation.ofWord? · |>.isSome) =
      form.words := List.takeWhile_append_dropWhile
  rw [h.transformationWords_words] at hsplit
  have hrest : form.words.dropWhile (Transformation.ofWord? · |>.isSome) =
      form.reports.map ReportKind.word ++ (form.settings.flatMap Setting.words ++ form.file.toList) :=
    List.append_cancel_left hsplit
  rw [reportWords, hrest, List.takeWhile_append_of_pos hknown, h.takeWhile_behind, List.append_nil]

/-- So the rest is what is behind its reports. -/
theorem otherWords_words : otherWords form.words = form.settings.flatMap Setting.words ++ form.file.toList := by
  have hsplit := words_append form.words
  rw [h.transformationWords_words, h.reportWords_words, List.append_assoc] at hsplit
  exact List.append_cancel_left (List.append_cancel_left hsplit)

/-- **Valid forms are accepted** for what they ask for. -/
theorem ofArguments_words : Invocation.ofArguments form.words = .run form.command := by
  rw [ofArguments_eq_run, h.transformationWords_words, h.reportWords_words, h.otherWords_words,
    readOptions_ofSettings]
  refine ⟨?_, ?_, h.reports, form.file.toList, ?_, ?_⟩
  · simp [command, List.filterMap_map, Transformation.ofWord?_word]
  · simp [command, List.filterMap_map, ReportKind.ofWord?_word]
  · rcases hfile : form.file with - | path
    · rfl
    · exact readOptions_other (h.file path hfile) _ []
  · exact ofWords?_toList form.file

end ArgumentForm.Valid

/-- **A valid form is known by how it is written.** -/
theorem ArgumentForm.Valid.eq_of_words (h : form.Valid) (h' : form'.Valid) (hwords : form.words = form'.words) :
    form = form' := by
  have htransformations : form.transformations.map Transformation.word =
      form'.transformations.map Transformation.word := by
    rw [← h.transformationWords_words, ← h'.transformationWords_words, hwords]
  have hreports : form.reports.map ReportKind.word = form'.reports.map ReportKind.word := by
    rw [← h.reportWords_words, ← h'.reportWords_words, hwords]
  have hothers : form.settings.flatMap Setting.words ++ form.file.toList =
      form'.settings.flatMap Setting.words ++ form'.file.toList := by
    rw [← h.otherWords_words, ← h'.otherWords_words, hwords]
  obtain ⟨hsettings, hfile⟩ := settings_unique (noSetting_toList h.file) (noSetting_toList h'.file) hothers
  obtain ⟨transformations, reports, settings, file⟩ := form
  obtain ⟨transformations', reports', settings', file'⟩ := form'
  rw [ArgumentForm.mk.injEq]
  exact ⟨List.map_injective_iff.mpr Transformation.word_injective htransformations,
    List.map_injective_iff.mpr ReportKind.word_injective hreports, hsettings, toList_inj hfile⟩

/-- What is run was written as a valid form. -/
theorem exists_form (h : Invocation.ofArguments arguments = .run command) :
    ∃ form : ArgumentForm, form.Valid ∧ form.words = arguments ∧ form.command = command := by
  obtain ⟨htransformations, hreports, hne, rest, hoptions, hsource⟩ := ofArguments_eq_run.mp h
  obtain ⟨settings, behind, hothers, hbehind⟩ := exists_settings (otherWords arguments)
  rw [hothers, readOptions_ofSettings] at hoptions
  rcases readOptions_cases hbehind (.ofSettings settings) with ⟨-, hasked⟩ | hmisused | ⟨hhead, hok⟩
  -- behind the settings help is not asked for, and no name is missing
  · rw [hasked] at hoptions
    cases hoptions
  · rw [hmisused] at hoptions
    cases hoptions
  -- so a file or nothing is behind them
  · rw [hok] at hoptions
    obtain ⟨hsettled, rfl⟩ := Prod.mk.inj (Except.ok.inj hoptions)
    obtain ⟨file, rfl, hfile⟩ := exists_file hsource
    have hmem : ∀ path ∈ file, path ∈ file.toList.head? := by
      rintro path rfl
      rfl
    refine ⟨⟨command.transformations, command.reports, settings, file⟩, ⟨hne, ?_, ?_⟩, ?_, ?_⟩
    · exact fun path hpath => hhead path (hmem path hpath)
    -- right behind the reports, since the run of words for reports was the longest
    · rintro rfl path rfl
      have hnone : (otherWords arguments).takeWhile (ReportKind.ofWord? · |>.isSome) = [] := takeWhile_otherWords
      rw [hothers] at hnone
      refine ReportKind.ofWord?_eq_none_iff.mp ?_
      simpa using hnone
    · rw [ArgumentForm.words, htransformations, hreports, map_word_transformationWords, map_word_reportWords, ← hothers,
        ← List.append_assoc, words_append]
    · rw [ArgumentForm.command, hsettled, ← hfile]

/-- Help is printed as asked for exactly if it is asked for. -/
theorem ofArguments_eq_asked_iff : Invocation.ofArguments arguments = .help .asked ↔ AsksForHelp arguments := by
  rw [AsksForHelp, ← readOptions_eq_asked_iff ⟨.plain, none⟩]
  simp only [Invocation.ofArguments, readRun_eq]
  rw [← otherWords]
  rcases readOptions ⟨.plain, none⟩ (otherWords arguments) with reason | ⟨options, rest⟩
  · simp
  -- behind options that are read, help is printed for misuse only
  · refine iff_of_false (fun h => ?_) (fun h => by cases h)
    dsimp only at h
    split at h
    · cases h
    · split at h <;> cases h

/-! ## The program -/

/-- An action that is tried goes on with its result, whether it failed or not. -/
theorem toBaseIO_bind {α β ε : Type} (action : EIO ε α) (f : Except ε α → EIO ε β) (world : Void IO.RealWorld) :
    (do f (← action.toBaseIO) : EIO ε β) world =
      match action world with
      | .ok a world => f (.ok a) world
      | .error error world => f (.error error) world := by
  change EST.bind (BaseIO.toEIO action.toBaseIO) f world = _
  unfold EST.bind BaseIO.toEIO EIO.toBaseIO
  cases action world <;> rfl

/-- Reading a source never fails: what the system says against it is an answer like the text. -/
theorem Source.read_eq (source : Source) (world : Void IO.RealWorld) :
    source.read world =
      match source.bytes world with
      | .ok bytes world => .ok (decode bytes) world
      | .error error world => .ok (.error (.ofSystem error)) world := by
  rw [read, toBaseIO_bind]
  cases source.bytes world <;> rfl

/-- The program goes on with what reading its source gave. -/
theorem outcomeOf_of_read {world world' : Void IO.RealWorld} {input : Except ReadError String}
    (h : Invocation.ofArguments arguments = .run command) (hread : command.source.read world = .ok input world') :
    outcomeOf arguments world = .ok (respond arguments fun _ => input) world' := by
  rw [respond, outcomeOf, h]
  change EST.bind command.source.read _ world = _
  unfold EST.bind
  rw [hread]
  rfl

/-- **The bytes of the source are read**, and nothing else. -/
theorem reads_source (h : Invocation.ofArguments arguments = .run command) : Reads arguments command.source := by
  intro world
  have hread := command.source.read_eq world
  cases hbytes : command.source.bytes world with
  | ok bytes world' =>
    rw [hbytes] at hread
    exact outcomeOf_of_read h hread
  | error error world' =>
    rw [hbytes] at hread
    exact outcomeOf_of_read h hread

/-! ## All arguments -/

/-- A valid form is run on what its source gives. If that is an error, the source is named. -/
theorem respond_words {source : Source} (hform : form.Valid) (hsource : Source.ofFile form.file = source)
    (read : Source → Except ReadError String) :
    respond form.words read = form.command.run (read source) ∧ ∀ error, read source = .error error →
      respond form.words read = .failure ("failed to read " ++ source.name ++ ": " ++ error.message) := by
  have hrun : respond form.words read = form.command.run (read source) := by
    rw [respond_eq_run hform.ofArguments_words, ← hsource]
    rfl
  refine ⟨hrun, fun error herror => ?_⟩
  rw [hrun, herror, Command.run, ArgumentForm.command, hsource]

/-- Arguments that are no valid form get help, and nothing is read. -/
theorem respond_of_no_form (h : ∀ form : ArgumentForm, form.Valid → form.words ≠ arguments)
    (read : Source → Except ReadError String) :
    outcomeOf arguments = (return respond arguments read) ∧
      (AsksForHelp arguments → respond arguments read = ⟨0, helpText, ""⟩) ∧
      (¬AsksForHelp arguments → respond arguments read = ⟨1, helpText, ""⟩) := by
  rw [← ofArguments_eq_asked_iff, respond, outcomeOf]
  rcases hinvoked : Invocation.ofArguments arguments with reason | command
  · refine ⟨rfl, ?_⟩
    cases reason with
    | asked => exact ⟨fun _ => rfl, fun hnot => absurd rfl hnot⟩
    | misused => exact ⟨fun hasked => by simp at hasked, fun _ => rfl⟩
  · obtain ⟨form, hform, hwords, -⟩ := exists_form hinvoked
    exact absurd hwords (h form hform)

/-- **Which arguments are accepted.** Arguments are run if they are written as a valid form, and for what it asks for.
There is no other such form. Its file is read if it has one and standard input if not, and nothing else: whatever the
sources give, the outcome is that of running the command on what this one gave, and a source that cannot be read is
named. All other arguments print the help text, whatever the sources give, and nothing is read; the exit code is zero if
help is asked for among the options, and one if not. The bytes of a file are those that the system has for its path, and
standard input is read to its end. -/
theorem arguments_accepted (arguments : List String) :
    (∀ command, Invocation.ofArguments arguments = .run command ↔
      ∃ form : ArgumentForm, form.Valid ∧ form.words = arguments ∧ form.command = command) ∧
    (∀ form form' : ArgumentForm, form.Valid → form.words = arguments → form'.Valid → form'.words = arguments →
      form = form') ∧
    (∀ form : ArgumentForm, form.Valid → form.words = arguments →
      (∀ path ∈ form.file, Reads arguments (.file path) ∧ ∀ read,
        respond arguments read = form.command.run (read (.file path)) ∧
        ∀ error, read (.file path) = .error error →
          respond arguments read = .failure ("failed to read " ++ path ++ ": " ++ error.message)) ∧
      (form.file = none → Reads arguments .stdin ∧ ∀ read,
        respond arguments read = form.command.run (read .stdin) ∧
        ∀ error, read .stdin = .error error →
          respond arguments read = .failure ("failed to read " ++ "stdin" ++ ": " ++ error.message))) ∧
    ((∀ form : ArgumentForm, form.Valid → form.words ≠ arguments) → ∀ read,
      outcomeOf arguments = (return respond arguments read) ∧
      (AsksForHelp arguments → respond arguments read = ⟨0, helpText, ""⟩) ∧
      (¬AsksForHelp arguments → respond arguments read = ⟨1, helpText, ""⟩)) ∧
    (∀ path, Source.bytes (.file path) = IO.FS.readBinFile path) ∧
    Source.bytes .stdin = (do (← IO.getStdin).readBinToEnd) := by
  refine ⟨fun command => ⟨exists_form, ?_⟩, ?_, ?_, respond_of_no_form, fun _ => rfl, rfl⟩
  · rintro ⟨form, hform, rfl, rfl⟩
    exact hform.ofArguments_words
  · exact fun form form' hform hwords hform' hwords' => hform.eq_of_words hform' (hwords.trans hwords'.symm)
  · rintro form hform rfl
    have hreads : Reads form.words (.ofFile form.file) := reads_source hform.ofArguments_words
    refine ⟨fun path hpath => ?_, fun hfile => ?_⟩
    · have hsource : Source.ofFile form.file = .file path := by rw [hpath]; rfl
      exact ⟨hsource ▸ hreads, respond_words hform hsource⟩
    · have hsource : Source.ofFile form.file = .stdin := by rw [hfile]; rfl
      exact ⟨hsource ▸ hreads, respond_words hform hsource⟩

/-- Only one source can be read. -/
def readOnly (source : Source) (text : String) (wanted : Source) : Except ReadError String :=
  if wanted = source then .ok text else .error .notUtf8

/-- A name may look like an option and a file like a report. Without a file standard input is read. Help can be asked
for without a report and with words behind it that do not fit, but an option without its name is misuse. -/
theorem arguments_accepted_lookalikes :
    respond ["lf", "ll1", "-l", "-s", "-h", "-j", "first"]
        (readOnly (.file "first") "S -> -h d\n-h -> a b | a c | ε") =
      ⟨0, "\x7b\"terminals\":[\"d\",\"a\",\"b\",\"c\",\"$\"],\"rows\":[" ++
        "\x7b\"non_terminal\":\"S\",\"cells\":[[\"-h\",\"d\"],[\"-h\",\"d\"],null,null,null]\x7d," ++
        "\x7b\"non_terminal\":\"-h\",\"cells\":[[\"ε\"],[\"a\",\"-h_LF1\"],null,null,[\"ε\"]]\x7d," ++
        "\x7b\"non_terminal\":\"-h_LF1\",\"cells\":[null,null,[\"b\"],[\"c\"],null]\x7d],\"conflicts\":[]\x7d\n", ""⟩ ∧
    respond ["lf", "ll1", "-l", "-s", "-h", "-j", "first"] (readOnly .stdin "-h -> a") =
      ⟨1, "", "error: failed to read first: stream did not contain valid UTF-8\n"⟩ ∧
    respond ["prod"] (readOnly .stdin "S -> a") = ⟨0, "S -> a\n", ""⟩ ∧
    respond ["elf", "-s", "-s", "--help", "-x", "y"] (readOnly (.file "y") "S -> a") = ⟨0, helpText, ""⟩ ∧
    respond ["prod", "-s"] (readOnly .stdin "S -> a") = ⟨1, helpText, ""⟩ := by
  have hrefused : ∀ {arguments reason}, Invocation.ofArguments arguments = .help reason →
      ∀ form : ArgumentForm, form.Valid → form.words ≠ arguments := by
    intro arguments reason hhelp form hform hwords
    have hrun := ((arguments_accepted arguments).1 form.command).mpr ⟨form, hform, hwords, rfl⟩
    rw [hhelp] at hrun
    cases hrun
  let form : ArgumentForm := ⟨[.factorLeft], [.table], [.tex, .start "-h", .json], some "first"⟩
  have hform : form.Valid := by
    refine ⟨List.cons_ne_nil _ _, ?_, fun h => by cases h⟩
    rintro path ⟨⟩
    decide
  obtain ⟨-, -, haccepted, -, -⟩ := arguments_accepted form.words
  obtain ⟨-, hread⟩ := (haccepted form hform rfl).1 "first" rfl
  let piped : ArgumentForm := ⟨[], [.rules], [], none⟩
  have hpiped : piped.Valid := by
    refine ⟨List.cons_ne_nil _ _, ?_, ?_⟩
    · rintro path ⟨⟩
    · rintro - path ⟨⟩
  obtain ⟨-, -, haccepted', -, -⟩ := arguments_accepted piped.words
  obtain ⟨-, hinput⟩ := (haccepted' piped hpiped rfl).2 rfl
  refine ⟨?_, ?_, ?_, ?_, ?_⟩
  -- read from the file
  · refine (hread (readOnly (.file "first") "S -> -h d\n-h -> a b | a c | ε")).1.trans ?_
    decide +kernel
  -- which cannot be read
  · refine ((hread (readOnly .stdin "-h -> a")).2 .notUtf8 (by decide)).trans ?_
    decide +kernel
  -- read from standard input
  · refine (hinput (readOnly .stdin "S -> a")).1.trans ?_
    decide +kernel
  · have hasked : Invocation.ofArguments ["elf", "-s", "-s", "--help", "-x", "y"] = .help .asked := by decide
    obtain ⟨-, -, -, hhelp, -⟩ := arguments_accepted ["elf", "-s", "-s", "--help", "-x", "y"]
    obtain ⟨-, hzero, -⟩ := hhelp (hrefused hasked) (readOnly (.file "y") "S -> a")
    exact hzero (ofArguments_eq_asked_iff.mp hasked)
  · have hmisused : Invocation.ofArguments ["prod", "-s"] = .help .misused := by decide
    obtain ⟨-, -, -, hhelp, -⟩ := arguments_accepted ["prod", "-s"]
    obtain ⟨-, -, hone⟩ := hhelp (hrefused hmisused) (readOnly .stdin "S -> a")
    refine hone fun hasks => ?_
    rw [← ofArguments_eq_asked_iff, hmisused] at hasks
    cases hasks

end CommandLine

end PredictiveGrammar
