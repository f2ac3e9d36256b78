import PredictiveGrammar.Report.Kinds
import PredictiveGrammar.Transform.Sequence

/-!
# Command-line arguments

Arguments stand in the order transformations, reports, options, file. Each of the first three is the
longest run of words of its kind. The last option of a kind counts, `-s` takes the next argument whatever
it is, and without a file standard input is read. A help option asks for help as soon as it is met;
arguments that do not fit, or that ask for no report, get help as well.
-/

namespace PredictiveGrammar

/-- The transformation that a word asks for. -/
def Transformation.ofWord? : String → Option Transformation
  | "elf" => some .eliminateLeftRecursion
  | "lf" => some .factorLeft
  | _ => none

/-- The report that a word asks for. -/
def ReportKind.ofWord? : String → Option ReportKind
  | "prod" => some .rules
  | "first" => some .first
  | "follow" => some .follow
  | "nff" => some .summary
  | "ll1" => some .table
  | _ => none

namespace CommandLine

/-- An option word. -/
inductive OptionWord
  /-- print the help text -/
  | help
  /-- write reports in this format -/
  | format (format : Format)
  /-- use the next argument as start symbol -/
  | start
  /-- log more. The lines, which go to standard error, are left out here; nothing else depends on this option -/
  | verbose
deriving DecidableEq

/-- The option that a word is. -/
def OptionWord.ofWord? : String → Option OptionWord
  | "-h" => some .help
  | "--help" => some .help
  | "-l" => some (.format .tex)
  | "-j" => some (.format .json)
  | "-s" => some .start
  | "-v" => some .verbose
  | "-vv" => some .verbose
  | _ => none

/-- Reads the longest run of words that `read` knows; what is left comes second. -/
def readRun {α : Type} (read : String → Option α) : List String → List α × List String
  | [] => ([], [])
  | word :: words =>
    match read word with
    | some found =>
      let (more, rest) := readRun read words
      (found :: more, rest)
    | none => ([], word :: words)

/-- What the options say. -/
structure Options where
  /-- the format of the reports -/
  format : Format
  /-- the name of the start symbol, if not the first one declared -/
  start : Option String
deriving DecidableEq

/-- Why help is printed. -/
inductive HelpReason
  /-- it was asked for -/
  | asked
  /-- the arguments do not fit -/
  | misused
deriving DecidableEq

/-- Reads options as long as there are any; what is left comes second. -/
def readOptions (options : Options) : List String → Except HelpReason (Options × List String)
  | [] => .ok (options, [])
  | word :: words =>
    match OptionWord.ofWord? word with
    | none => .ok (options, word :: words)
    | some .help => .error .asked
    | some (.format format) => readOptions { options with format } words
    | some .verbose => readOptions options words
    | some .start =>
      match words with
      | [] => .error .misused
      | name :: words => readOptions { options with start := some name } words

/-- Where rule text is read from. -/
inductive Source
  /-- standard input -/
  | stdin
  /-- the file with this path -/
  | file (path : String)
deriving DecidableEq

/-- What a run is to do. -/
structure Command where
  /-- the transformations, in order -/
  transformations : List Transformation
  /-- the reports, in order -/
  reports : List ReportKind
  /-- what the options say -/
  options : Options
  /-- where the rule text is -/
  source : Source
deriving DecidableEq

/-- What the arguments ask for. -/
inductive Invocation
  /-- print the help text -/
  | help (reason : HelpReason)
  /-- read rule text and report -/
  | run (command : Command)
deriving DecidableEq

/-- Reads the arguments. -/
def Invocation.ofArguments (arguments : List String) : Invocation :=
  let (transformations, arguments) := readRun Transformation.ofWord? arguments
  let (reports, arguments) := readRun ReportKind.ofWord? arguments
  match readOptions ⟨.plain, none⟩ arguments with
  | .error reason => .help reason
  | .ok (options, rest) =>
    if reports.isEmpty then .help .misused
    else
      match rest with
      | [] => .run ⟨transformations, reports, options, .stdin⟩
      | [path] => .run ⟨transformations, reports, options, .file path⟩
      | _ => .help .misused

end CommandLine

end PredictiveGrammar
