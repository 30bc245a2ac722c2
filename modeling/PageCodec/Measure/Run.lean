import PageCodec.Input.Pager
import PageCodec.Log
import PageCodec.Measure.Totals

/-!
# Measuring an input

To measure an input is to draw its pages one after another, compress each of them into the same
buffer and add up what comes of them, with the time that it took.  On the way notes are made and,
if asked for, a line is shown for every page.  A failure of the input ends the measurement; what was
shown before it stays shown.

This is `measure` of `wkdm::tools::report`.

* `Stopwatch` — what a measurement needs to find out how long a compression takes.
* `Measure.Settings` — how inputs are measured.
* `Measure.takeIn` — what becomes of a page that has been compressed.
* `Measure.pages` — the loop over the pages.
* `measure` — a whole input, with what was let out on the way and the source as it was left.
-/

namespace PageCodec

/-- A way to find out how long work takes, on a machine that may do other things as well. -/
structure Stopwatch (m : Type → Type) where
  /-- Reads the clock. -/
  now : m Duration
  /-- Does some work between two readings. -/
  work : {α : Type} → (Unit → α) → m α

/-- Does some work and says how long it took. -/
def Stopwatch.timed {m : Type → Type} [Monad m] {α : Type} (watch : Stopwatch m)
    (f : Unit → α) : m (α × Duration) := do
  let start ← watch.now
  let a ← watch.work f
  let stop ← watch.now
  return (a, stop.since start)

/-- A page that is turned down is bad data as far as its input is concerned. -/
def InputFailure.ofRejection (r : Rejection) : InputFailure := ⟨.invalidData, r.message, none⟩

namespace Measure

/-- How inputs are measured. -/
structure Settings where
  /-- Show a line for every page. -/
  perPage : Bool
  /-- The identifier to stamp on every page. -/
  algorithmId : Option Word
  /-- The number of pages to stop at. -/
  limit : Option Nat
  deriving DecidableEq

/-- What a measurement lets out while it goes on. -/
inductive Emission where
  /-- A note for the log. -/
  | note (n : Note)
  /-- A line for the reader. -/
  | line (text : String)

/-- Why a measurement did not complete. -/
inductive Failure where
  /-- The input failed, or held bad data. -/
  | input (reason : InputFailure)
  /-- The work itself broke off. -/
  | fault (reason : Stop)
  deriving DecidableEq

/-- The failure that a stop amounts to. -/
def Failure.ofStop : Stop → Failure
  | .rejected r => .input (.ofRejection r)
  | stop => .fault stop

/-- A measurement at work. -/
structure Progress where
  /-- The input being cut into pages. -/
  pager : Pager
  /-- The totals of the pages so far. -/
  totals : Totals
  /-- The buffer that pages are compressed into. -/
  buffer : Buffer
  /-- What was let out so far. -/
  emitted : Array Emission

namespace Progress

/-- A measurement before its first page. -/
def start (name : String) (source : Source) : Progress :=
  ⟨.ofSource source, .start name, List.replicate Layout.maxWords 0, #[]⟩

/-- Draws the next page, if there is one. -/
def draw : EStateM Failure Progress (Option (List Word)) := fun p =>
  match p.pager.next with
  | (none, pager) => .ok none { p with pager }
  | (some (.ok words), pager) => .ok (some words) { p with pager }
  | (some (.error reason), pager) => .error (.input reason) { p with pager }

/-- Works on the buffer. -/
def onBuffer {α : Type} (act : EStateM Stop Buffer α) : EStateM Failure Progress α := fun p =>
  match act p.buffer with
  | .ok a buffer => .ok a { p with buffer }
  | .error e buffer => .error (.ofStop e) { p with buffer }

/-- Works on the totals. -/
def onTotals {α : Type} (act : EStateM Stop Totals α) : EStateM Failure Progress α := fun p =>
  match act p.totals with
  | .ok a totals => .ok a { p with totals }
  | .error e totals => .error (.ofStop e) { p with totals }

/-- Lets something out. -/
def emit (es : List Emission) : EStateM Failure Progress Unit := fun p =>
  .ok () { p with emitted := p.emitted ++ es }

end Progress

/-! ## One page -/

/-- Stamps the buffer with an identifier. -/
def stamp (algorithm : Word) : EStateM Stop Buffer Unit := fun b =>
  match Header.stamp algorithm b with
  | .ok b => .ok () b
  | .error r => .error (.rejected r) b

/-- Reads the header of the page in the buffer. -/
def readHeader : EStateM Stop Buffer Header := fun b =>
  match Header.read b with
  | .ok h => .ok h b
  | .error r => .error (.rejected r) b

/-- The line about a page. -/
def pageLine (index : Nat) (h : Header) (t : Tally) : String :=
  let column (n : Nat) : String := Text.alignRight 5 (toString n)
  s!"{Text.alignRight 8 (toString index)} {Text.hexWord h.algorithm.toNat} "
    ++ s!"{column h.compressedLength} words  full{column h.fullWordCount} z{column t.zero} "
    ++ s!"e{column t.exactMatch} p{column t.partialMatch} m{column t.miss}"

/-- Takes in what came of compressing a page, and the time that it took: stamps the page, reads its
header back, shows its line and adds it to the totals. -/
def takeIn (settings : Settings) (compressed : EStateM.Result Stop Buffer Encoded)
    (elapsed : Duration) : EStateM Failure Progress Unit := do
  let index := (← get).totals.pages
  let encoded ← Progress.onBuffer fun _ => compressed
  Progress.emit ((Note.ofEncoded encoded).map .note)
  if let some id := settings.algorithmId then
    Progress.onBuffer (stamp id)
  let header ← Progress.onBuffer readHeader
  Progress.emit [.note (.pageHeader index header)]
  if settings.perPage then
    Progress.emit [.line (pageLine index header encoded.tally)]
  Progress.onTotals (Totals.addPage header.compressedLength encoded.tally elapsed)

/-! ## All pages -/

/-- Measures pages, as many as are allowed, up to the first failure among them.  A page is
compressed and taken in before the next one is drawn. -/
def pages {m : Type → Type} [Monad m] (watch : Stopwatch m) (settings : Settings) :
    Nat → Progress → m (EStateM.Result Failure Progress Unit)
  | 0, p => return .ok () p
  | n + 1, p =>
    match Progress.draw p with
    | .error e p => return .error e p
    | .ok none p => return .ok () p
    | .ok (some words) p => do
      let (compressed, elapsed) ← watch.timed fun _ => Encoder.encode words p.buffer
      match takeIn settings compressed elapsed p with
      | .error e p => return .error e p
      | .ok () p => pages watch settings n p

end Measure

/-- What comes of measuring an input. -/
structure Measured where
  /-- The totals, or why there are none. -/
  result : Except Measure.Failure Totals
  /-- What was let out on the way. -/
  emitted : List Measure.Emission
  /-- The input as it was left. -/
  source : Source

/-- The page limit where none is asked for. -/
def Measure.noLimit : Nat := UInt64.size - 1

/-- Measures an input.  Nothing past the page limit is read. -/
def measure {m : Type → Type} [Monad m] (watch : Stopwatch m) (name : String)
    (settings : Measure.Settings) (source : Source) : m Measured := do
  let limit := settings.limit.getD Measure.noLimit
  match ← Measure.pages watch settings limit (.start name source) with
  | .ok () p =>
    let stopped := if p.totals.pages = limit then [.note (.stoppedAt name limit)] else []
    return {
      result := .ok p.totals
      emitted := p.emitted.toList ++ stopped ++ [.note (.bytesRead name p.pager.bytesRead)]
      source := p.pager.source }
  | .error e p =>
    return {
      result := .error e
      emitted := p.emitted.toList
      source := p.pager.source }

end PageCodec
