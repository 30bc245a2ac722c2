import PageCodec.Session.Run

/-!
# The command line

The program on a real machine: files are read up to the page limit, text goes to standard output
and complaints to standard error.
-/

namespace PageCodec

namespace CommandLine

/-- The failure of an input that an error of the machine amounts to. -/
def failureOf : IO.Error → InputFailure
  | .noFileOrDirectory .. => .notFound
  | .inappropriateType _ 20 _ => .notADirectory
  | .inappropriateType _ 21 _ => .isADirectory
  | .inappropriateType _ code details => ⟨.other, details, some code.toNat⟩
  | .invalidArgument _ 36 _ => .nameTooLong
  | .permissionDenied _ code details => ⟨.permissionDenied, details, some code.toNat⟩
  | e => ⟨.other, toString e, none⟩

/-- The most that is read at once. -/
def chunkBytes : Nat := 1048576

/-- Reads a file up to its end, a failure, or a number of bytes if there is one. -/
partial def readUpTo (handle : IO.FS.Handle) (most : Option Nat) (read : ByteArray) :
    IO (List Event) := do
  let wanted := match most with
    | some n => min (n - read.size) chunkBytes
    | none => chunkBytes
  if wanted = 0 then
    return [.data read.toList]
  match ← (handle.read (USize.ofNat wanted)).toBaseIO with
  | .error e =>
    let failure := Event.failure (failureOf e)
    return if read.isEmpty then [failure] else [.data read.toList, failure]
  | .ok bytes =>
    if bytes.isEmpty then
      return [.data read.toList]
    readUpTo handle most (read ++ bytes)

/-- Opens a file and reads what a run will need of it.  A failure to read is kept for the run to
meet. -/
def openFile (limit : Option Nat) (name : String) : IO (Except InputFailure Source) := do
  match ← (IO.FS.Handle.mk name .read).toBaseIO with
  | .error e => return .error (failureOf e)
  | .ok handle =>
    let events ← readUpTo handle (limit.map (· * Layout.pageBytes)) .empty
    return .ok (.ofEvents events)

/-- The machine that the program runs on. -/
def machine (limit : Option Nat) : Machine IO where
  openFile := openFile limit
  print text := do
    (← IO.getStdout).putStr text
    (← IO.getStdout).flush
  now := do return (Duration.ofNanos? (← IO.monoNanosNow)).getD .zero
  work f := IO.lazyPure f

/-- The page limit that arguments ask for. -/
def limitOf (args : List String) : Option Nat :=
  match Options.ofArguments args with
  | .ok o => o.settings.limit
  | .error _ => none

end CommandLine

end PageCodec

/-- Runs the program. -/
def main (args : List String) : IO UInt32 := do
  let ending ← PageCodec.Session.run (PageCodec.CommandLine.machine
    (PageCodec.CommandLine.limitOf args)) args
  (← IO.getStderr).putStr ending.complaint
  return UInt32.ofNat ending.code
