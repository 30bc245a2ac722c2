import PageCodec.CommandLine.Item
import PageCodec.Log
import PageCodec.Measure.Run

/-!
# Options of a run

What the arguments say is put together into the options of a run.  Options that cannot be put
together are turned down, for the first of these reasons that applies: the arguments end with an
option that has no value, there is no file, or there is something wrong with one of the options.
Options are looked at one by one, in the order in which they first appear; what can be wrong with
one is that it has no value, has a bad value, or comes more than once.  A value counts wherever the
option has it, so an option that comes twice has one if it has one at either place.

* `Options` — what a run is asked to do.
* `CommandLine.readNumber` — the numbers that options take.
* `CommandLine.check`, `CommandLine.argsOf` — whether arguments make sense together, and what they
  come to then.
* `Options.ofArguments` — the options that a list of arguments asks for.
-/

namespace PageCodec

/-- What a run is asked to do (`WkOpts`). -/
structure Options where
  /-- The files to measure, in order. -/
  files : List String
  /-- How much to say. -/
  level : Level
  /-- How to measure them. -/
  settings : Measure.Settings
  deriving DecidableEq

/-- What arguments that make sense come to (`Args`). -/
structure Args where
  /-- The files, in order. -/
  files : List String
  /-- Number of requests to say more, counted in a byte. -/
  verbosity : UInt8
  /-- Lines for pages are asked for. -/
  perPage : Bool
  /-- The identifier to stamp on pages. -/
  algorithmId : Option Word
  /-- The number of pages to stop at. -/
  limit : Option Nat
  deriving DecidableEq

/-- The options that arguments come to. -/
def Options.ofArgs (a : Args) : Options :=
  ⟨a.files, .ofVerbosity a.verbosity, ⟨a.perPage, a.algorithmId, a.limit⟩⟩

namespace CommandLine

/-! ## Numbers -/

/-- The number that a list of decimal digits stands for, if there are no other characters. -/
def readDigits : Nat → List Char → Option Nat
  | n, [] => some n
  | n, c :: cs => if c.isDigit then readDigits (10 * n + (c.toNat - '0'.toNat)) cs else none

/-- Reads a number of at most `largest`: digits, one at least, with a plus sign before them or
without. -/
def readNumber (largest : Nat) (text : String) : Option Nat :=
  let digits := match text.toList with
    | '+' :: cs => cs
    | cs => cs
  if digits.isEmpty then none
  else (readDigits 0 digits).filter (· ≤ largest)

/-- The largest value of an option. -/
def ValueOption.largest : ValueOption → Nat
  | .limit => UInt64.size - 1
  | .algorithmId => UInt32.size - 1

/-- Reads the value of an option. -/
def ValueOption.read (option : ValueOption) (text : String) : Option Nat :=
  readNumber option.largest text

/-! ## What the items say -/

/-- The options that may come only once. -/
inductive Single where
  /-- A line for every page. -/
  | perPage
  /-- An option with a value. -/
  | valued (option : ValueOption)
  deriving DecidableEq, Repr

/-- The option of an item, if it may come only once. -/
def Item.single? : Item → Option Single
  | .perPage => some .perPage
  | .valued option _ => some (.valued option)
  | .file _ | .verbose => none

/-- The file of an item. -/
def Item.file? : Item → Option String
  | .file name => some name
  | _ => none

/-- The value that an item gives an option. -/
def Item.valueOf? (option : ValueOption) : Item → Option String
  | .valued o value => if o = option then value else none
  | _ => none

/-- The values given to an option. -/
def values (items : List Item) (option : ValueOption) : List String :=
  items.filterMap (·.valueOf? option)

/-- The options that may come only once, in the order in which they first appear. -/
def singles (items : List Item) : List Single := (items.filterMap Item.single?).eraseDups

/-- Looks for values of an option, one at least and no bad ones. -/
def checkValues (items : List Item) (option : ValueOption) : Except UsageError Unit :=
  if (values items option).isEmpty then .error .missingValue
  else if (values items option).all fun text => (option.read text).isSome then .ok ()
  else .error .badValue

/-- Looks at the values of an option, if it takes one, and then for a second appearance. -/
def checkSingle (items : List Item) (s : Single) : Except UsageError Unit := do
  match s with
  | .perPage => pure ()
  | .valued option => checkValues items option
  if 1 < (items.filterMap Item.single?).count s then throw .repeatedOption

/-- The number given to an option. -/
def number? (items : List Item) (option : ValueOption) : Option Nat :=
  ((values items option).head?).bind option.read

/-- Looks at all that arguments say. -/
def check : Reading → Except UsageError Unit := fun (items, waiting) =>
  if waiting.any fun option => (values items option).isEmpty then .error .missingValue
  else if (items.filterMap Item.file?).isEmpty then .error .noFiles
  else (singles items).forM (checkSingle items)

/-- What arguments that pass come to. -/
def argsOf (items : List Item) : Args where
  files := items.filterMap Item.file?
  verbosity := UInt8.ofNat (items.count .verbose)
  perPage := items.contains .perPage
  algorithmId := (number? items .algorithmId).map UInt32.ofNat
  limit := number? items .limit

end CommandLine

/-- The options that a list of arguments asks for. -/
def Options.ofArguments (args : List String) : Except UsageError Options := do
  let reading ← CommandLine.readAll args
  CommandLine.check reading
  return .ofArgs (CommandLine.argsOf reading.1)

end PageCodec
