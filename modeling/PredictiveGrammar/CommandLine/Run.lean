import PredictiveGrammar.CommandLine.Arguments
import PredictiveGrammar.Grammar.RuleText

/-!
# Running a command

A run reads rule text, chooses the start symbol, transforms the grammar and prints the reports asked for, each
before the next one is made (`Command.run`). What fails on the way is told on standard error, and the exit code is
one; what was printed until then stays printed (`printReports`).
-/

namespace PredictiveGrammar

namespace CommandLine

/-- What the help option prints. -/
def helpText : String :=
  "Usage: ll1-grammar-helper [actions] outputs [options] [grammar file]\n" ++
  "actions:\n" ++
  "  elf: Eliminate left recursion\n" ++
  "  lf: Left factoring\n" ++
  "outputs:\n" ++
  "  prod: Productions\n" ++
  "  first: FIRST sets\n" ++
  "  follow: FOLLOW sets\n" ++
  "  nff: Nullable first and follow\n" ++
  "  ll1: LL(1) parsing table\n" ++
  "options:\n" ++
  "  -h: Print this help\n" ++
  "  -l: Print in LaTeX format\n" ++
  "  -j: Print in JSON format\n" ++
  "  -s <symbol>: Use <symbol> as the start symbol\n" ++
  "  -v: Log analysis steps to stderr (-vv for more)\n"

/-! ## Reading -/

/-- Why rule text could not be read. -/
inductive ReadError
  /-- the system refused, with its code and description -/
  | system (code : Nat) (description : String)
  /-- the bytes are no UTF-8 text -/
  | notUtf8
deriving DecidableEq

/-- The wording of the cause. -/
def ReadError.message : ReadError → String
  | .system code description => description ++ s!" (os error {code})"
  | .notUtf8 => "stream did not contain valid UTF-8"

/-- The text that some bytes encode. -/
def decode (bytes : ByteArray) : Except ReadError String :=
  match String.fromUTF8? bytes with
  | some text => .ok text
  | none => .error .notUtf8

/-- How a source is named in messages. -/
def Source.name : Source → String
  | .stdin => "stdin"
  | .file path => path

/-! ## Running -/

/-- What a run leaves behind. -/
structure Outcome where
  /-- the exit code -/
  exitCode : Nat
  /-- what is printed on standard output -/
  stdout : String
  /-- what is printed on standard error, without the log lines that `-v` and `-vv` add there -/
  stderr : String
deriving DecidableEq

/-- A grammar with the start symbol that the options ask for. -/
def Options.started (options : Options) (g : Grammar) : Except GrammarError Grammar :=
  match options.start with
  | some name => g.withStart name
  | none => .ok g

/-- The grammar that a command reports on: read from rule text, with the start symbol that was asked for, and
transformed. -/
def Command.grammar (command : Command) (text : String) : Except GrammarError Grammar := do
  let g ← command.options.started (← Grammar.parse text)
  g.transform command.transformations

/-- The run that fails with a message. -/
def Outcome.failure (message : String) : Outcome := ⟨1, "", "error: " ++ message ++ "\n"⟩

/-- Prints reports one by one, behind what is `printed`. The first one that cannot be made ends the run. -/
def printReports (g : Grammar) (F : FirstSets) (W : FollowSets) (format : Format) (printed : String) :
    List ReportKind → Outcome
  | [] => ⟨0, printed, ""⟩
  | kind :: kinds =>
    match g.report F W kind with
    | .ok report => printReports g F W format (printed ++ report.render format ++ "\n") kinds
    | .error error => { Outcome.failure error.message with stdout := printed }

/-- Runs a command on what reading its source gave. -/
def Command.run (command : Command) (input : Except ReadError String) : Outcome :=
  match input with
  | .error error => .failure ("failed to read " ++ command.source.name ++ ": " ++ error.message)
  | .ok text =>
    match command.grammar text with
    | .error error => .failure error.message
    | .ok g =>
      let F := g.first
      match g.follow F with
      | .error error => .failure error.message
      | .ok W => printReports g F W command.options.format "" command.reports

/-- Prints the help text. It is an error if it was not asked for. -/
def HelpReason.outcome : HelpReason → Outcome
  | .asked => ⟨0, helpText, ""⟩
  | .misused => ⟨1, helpText, ""⟩

/-- Runs the program on some arguments, where `read` gives the text of a source. -/
def respond (arguments : List String) (read : Source → Except ReadError String) : Outcome :=
  match Invocation.ofArguments arguments with
  | .help reason => reason.outcome
  | .run command => command.run (read command.source)

end CommandLine

end PredictiveGrammar
