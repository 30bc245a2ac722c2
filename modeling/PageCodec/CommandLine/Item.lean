/-!
# Reading arguments one by one

The arguments of a run are files and options.  An argument that starts with a dash, other than a
dash alone, is an option or a cluster of one-letter options; all others are files, and after `--`
everything is a file.  An option that takes a value takes it from its own argument or from the next
one, unless that is an option itself.

Reading stops at the first argument that makes no sense, and at a request for help or for the
version.  Whether the options that were read make sense together is not asked here.

The options are those of `Args` in `wkdm::tools::cli`, and arguments are split the way its parser
splits them.

* `UsageError` — why arguments are not carried out, here or later.
* `CommandLine.Item` — what an argument says.
* `CommandLine.readCluster`, `CommandLine.readLong` — the two kinds of options.
* `CommandLine.readAll` — all arguments, and the option that still waits for its value at their
  end.
-/

namespace PageCodec

/-- Why arguments are not carried out. -/
inductive UsageError where
  /-- Help is asked for. -/
  | helpRequested
  /-- The version is asked for. -/
  | versionRequested
  /-- There is no such option. -/
  | unknownOption
  /-- An option that takes no value is given one. -/
  | unwantedValue
  /-- An option that takes a value is given none. -/
  | missingValue
  /-- There are no files. -/
  | noFiles
  /-- A value is not a number in range. -/
  | badValue
  /-- An option is given more than once. -/
  | repeatedOption
  deriving DecidableEq, Repr

namespace CommandLine

/-- The options that take a value. -/
inductive ValueOption where
  /-- The number of pages to stop at. -/
  | limit
  /-- The identifier to stamp on pages. -/
  | algorithmId
  deriving DecidableEq, Repr

/-- What an argument, or a part of one, says. -/
inductive Item where
  /-- A file. -/
  | file (name : String)
  /-- A request to say more. -/
  | verbose
  /-- A request for a line for every page. -/
  | perPage
  /-- An option that takes a value, with its value if it has one. -/
  | valued (option : ValueOption) (value : Option String)
  deriving DecidableEq, Repr

/-- What arguments say, and the option at their end that still waits for its value. -/
abbrev Reading := List Item × Option ValueOption

/-! ## Short options -/

/-- One equals sign may stand between a one-letter option and its value. -/
def dropEquals : List Char → List Char
  | '=' :: cs => cs
  | cs => cs

/-- Reads the letters behind a single dash.  The rest of the letters is the value of an option that
takes one. -/
def readCluster : List Char → Except UsageError Reading
  | [] => .ok ([], none)
  | 'v' :: cs => do
    let (items, waiting) ← readCluster cs
    return (.verbose :: items, waiting)
  | ['n'] => .ok ([], some .limit)
  | 'n' :: cs => .ok ([.valued .limit (some (String.ofList (dropEquals cs)))], none)
  | 'h' :: _ => .error .helpRequested
  | 'V' :: _ => .error .versionRequested
  | _ => .error .unknownOption

/-! ## Long options -/

/-- Reads an option that takes no value. -/
def readBare (value : Option String) (reading : Except UsageError Reading) :
    Except UsageError Reading :=
  match value with
  | none => reading
  | some _ => .error .unwantedValue

/-- Reads an option that takes a value. -/
def readValued (option : ValueOption) : Option String → Except UsageError Reading
  | none => .ok ([], some option)
  | some value => .ok ([.valued option (some value)], none)

/-- The text behind the first equals sign, if there is one. -/
def attachedValue : List Char → Option String
  | [] => none
  | '=' :: cs => some (String.ofList cs)
  | _ :: cs => attachedValue cs

/-- Reads what stands behind two dashes. -/
def readLong (cs : List Char) : Except UsageError Reading :=
  let value := attachedValue cs
  match String.ofList (cs.takeWhile (· ≠ '=')) with
  | "per-page" => readBare value (.ok ([.perPage], none))
  | "help" => readBare value (.error .helpRequested)
  | "version" => readBare value (.error .versionRequested)
  | "limit" => readValued .limit value
  | "algorithm-id" => readValued .algorithmId value
  | _ => .error .unknownOption

/-! ## All arguments -/

/-- An argument that is not taken for a file or a value. -/
def isOption (arg : String) : Bool :=
  match arg.toList with
  | '-' :: _ :: _ => true
  | _ => false

/-- Reads an argument that is an option. -/
def readOption (arg : String) : Except UsageError Reading :=
  match arg.toList with
  | '-' :: '-' :: cs => readLong cs
  | '-' :: cs => readCluster cs
  | _ => .error .unknownOption

/-- An option that waited for a value in vain. -/
def unmet : Option ValueOption → List Item
  | some option => [.valued option none]
  | none => []

/-- Reads arguments in order, the first of them with an option before it that may wait for its
value.  An option that waits goes on waiting past `--` if nothing follows. -/
def readFrom : Option ValueOption → List String → Except UsageError Reading
  | waiting, [] => .ok (unmet waiting, waiting)
  | waiting, arg :: args =>
    if arg = "--" then
      .ok (unmet waiting ++ args.map .file, if args.isEmpty then waiting else none)
    else if isOption arg then do
      let (items, next) ← readOption arg
      let (rest, last) ← readFrom next args
      return (unmet waiting ++ items ++ rest, last)
    else do
      let (rest, last) ← readFrom none args
      match waiting with
      | some option => return (.valued option (some arg) :: rest, last)
      | none => return (.file arg :: rest, last)

/-- Reads all arguments. -/
def readAll (args : List String) : Except UsageError Reading := readFrom none args

end CommandLine

end PageCodec
