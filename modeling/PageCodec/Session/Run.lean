import PageCodec.CommandLine.Options

/-!
# Runs of the program

A run reads its arguments, measures the files that they name one after another and shows the totals
of each.  The first file that fails ends the run.

This is `main` of `wkdm`, with the notes that `init_wk_opts` of `wkdm::tools::cli` makes.

* `Machine` — what a run needs of its surroundings: a way to open files, a way to print and a
  clock.
* `Session.run` — a run on any machine.
-/

namespace PageCodec

/-- What a run needs of its surroundings. -/
structure Machine (m : Type → Type) extends Stopwatch m where
  /-- Opens a file. -/
  openFile : String → m (Except InputFailure Source)
  /-- Prints text. -/
  print : String → m Unit

/-- How a run ends. -/
structure Exit where
  /-- The exit code. -/
  code : Nat
  /-- What is said about a failure. -/
  complaint : String
  deriving DecidableEq

namespace Session

/-! ## Texts -/

/-- The name of the program. -/
def programName : String := "wkdm"

/-- The answer to a request for the version. -/
def versionText : String := programName ++ " 0.1.0\n"

/-- How the program is used. -/
def helpText : String :=
  versionText
    ++ "Measure WKdm page compression on files\n\n"
    ++ "USAGE:\n    " ++ programName ++ " [OPTIONS] <FILES>...\n\n"
    ++ "ARGS:\n    <FILES>...    Files to measure\n\n"
    ++ "OPTIONS:\n"
    ++ "        --algorithm-id <ALGORITHM_ID>    Algorithm identifier stamped into header word 0 "
    ++ "of each compressed page\n"
    ++ "    -h, --help                           Print help information\n"
    ++ "    -n, --limit <LIMIT>                  Stop after this many pages of each file\n"
    ++ "        --per-page                       Print one line for every page\n"
    ++ "    -v                                   Sets verbosity. No -v shows only warnings, -vvv "
    ++ "is chatty\n"
    ++ "    -V, --version                        Print version information\n"

/-- What is said about arguments that make no sense. -/
def usageComplaint : UsageError → String
  | .helpRequested | .versionRequested => ""
  | .unknownOption => "error: Found an argument which wasn't expected\n"
  | .unwantedValue => "error: An option that takes no value was given one\n"
  | .missingValue => "error: An option requires a value but none was supplied\n"
  | .noFiles => "error: The required files were not provided\n"
  | .badValue => "error: Invalid value for an option\n"
  | .repeatedOption => "error: An option was provided more than once\n"

/-- The notes about what a run is asked to do (`init_wk_opts`). -/
def opening (o : Options) : List Note :=
  [.settingUp, .verbosity o.level, .inputs o.files.length]
    ++ (o.settings.limit.map Note.pageLimit).toList
    ++ (o.settings.algorithmId.map Note.algorithm).toList
    ++ [.setUp]

/-- How a run ends after a failed measurement. -/
def failed : Measure.Failure → Exit
  | .input reason => ⟨1, s!"Error: {reason.text}\n"⟩
  | .fault _ => ⟨101, ""⟩

/-! ## Running -/

section

variable {m : Type → Type} [Monad m] (machine : Machine m)

/-- Prints a text and ends the line. -/
def printLine (text : String) : m Unit := machine.print (text ++ "\n")

/-- Prints what a measurement let out, as far as the level goes. -/
def display (level : Level) : List Measure.Emission → m Unit
  | [] => pure ()
  | .line text :: rest => do
    printLine machine text
    display level rest
  | .note n :: rest => do
    if n.level.rank ≤ level.rank then printLine machine n.line
    display level rest

/-- Measures one file and shows its totals. -/
def runFile (o : Options) (name : String) : m (Except Measure.Failure Unit) := do
  match ← machine.openFile name with
  | .error reason => return .error (.input reason)
  | .ok source =>
    let measured ← measure machine.toStopwatch name o.settings source
    display machine o.level measured.emitted
    match measured.result with
    | .error e => return .error e
    | .ok totals =>
      printLine machine totals.text
      return .ok ()

/-- Measures files in order, up to the first that fails. -/
def runFiles (o : Options) : List String → m (Except Measure.Failure Unit)
  | [] => return .ok ()
  | name :: names => do
    match ← runFile machine o name with
    | .error e => return .error e
    | .ok () => runFiles o names

/-- Does what options ask for (`main`). -/
def runOptions (o : Options) : m Exit := do
  display machine o.level ((opening o).map .note)
  match ← runFiles machine o o.files with
  | .error e => return failed e
  | .ok () =>
    display machine o.level [.note .done]
    return ⟨0, ""⟩

/-- Does what arguments ask for. -/
def run (args : List String) : m Exit :=
  match Options.ofArguments args with
  | .ok o => runOptions machine o
  | .error .helpRequested => do
    machine.print helpText
    return ⟨0, ""⟩
  | .error .versionRequested => do
    machine.print versionText
    return ⟨0, ""⟩
  | .error e => return ⟨2, usageComplaint e⟩

end

end Session

end PageCodec
