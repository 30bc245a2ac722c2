import PageCodec.Page.Encoder
import PageCodec.Text.Numeral

/-!
# The log

The codec and the measurement of inputs say what they do in notes.  A note has a level; a run shows
the notes up to the level chosen for it.  Debugging notes are shown together with the part of the
program that they come from.
-/

namespace PageCodec

/-- How much a run says about what it does. -/
inductive Level where
  /-- Nothing but results. -/
  | warn
  /-- What a run is about to do. -/
  | info
  /-- What becomes of every page. -/
  | debug
  /-- What becomes of every area of a page. -/
  | trace
  deriving DecidableEq, Repr

namespace Level

/-- Position of a level, from the quietest up. -/
def rank : Level → Nat
  | warn => 0
  | info => 1
  | debug => 2
  | trace => 3

/-- The name of a level. -/
def name : Level → String
  | warn => "WARN"
  | info => "INFO"
  | debug => "DEBUG"
  | trace => "TRACE"

/-- The level for a number of requests to say more, which is counted in one byte (`level_for`). -/
def ofVerbosity (n : UInt8) : Level :=
  match n.toNat with
  | 0 => warn
  | 1 => info
  | 2 => debug
  | _ => trace

end Level

/-- A remark about what is being done. -/
inductive Note where
  /-- A page has been scanned. -/
  | scanned (tally : Tally)
  /-- A run of symbols has been packed. -/
  | packed (packing : Packing) (symbols words : Nat)
  /-- A page has been compressed. -/
  | compressed (page : Encoded)
  /-- The header of a compressed page has been read back. -/
  | pageHeader (index : Nat) (header : Header)
  /-- An input has been left off at the page limit. -/
  | stoppedAt (name : String) (pages : Nat)
  /-- An input has been read. -/
  | bytesRead (name : String) (bytes : Nat)
  /-- A run is being set up. -/
  | settingUp
  /-- The level of the run. -/
  | verbosity (level : Level)
  /-- Number of inputs of the run. -/
  | inputs (count : Nat)
  /-- The page limit of the run. -/
  | pageLimit (pages : Nat)
  /-- The identifier that the run gives to every page. -/
  | algorithm (id : Word)
  /-- A run has been set up. -/
  | setUp
  /-- A run is over. -/
  | done

namespace Note

/-- The notes that packing a run of symbols into some number of words gives rise to. -/
def ofPacking (packing : Packing) (words : Nat) : Note :=
  packed packing (words * packing.group) words

/-- The notes that compressing a page gives rise to, in order. -/
def ofEncoded (e : Encoded) : List Note :=
  [scanned e.tally,
    ofPacking .tags Layout.tagWords,
    ofPacking .positions (e.positionsEnd - e.fullWordsEnd),
    ofPacking .patterns (e.patternsEnd - e.positionsEnd),
    compressed e]

/-- The level of a note. -/
def level : Note → Level
  | scanned _ | packed .. => .trace
  | compressed _ | pageHeader .. | bytesRead .. => .debug
  | stoppedAt .. | settingUp | verbosity _ | inputs _ | pageLimit _ | algorithm _ | setUp
  | done => .info

/-- The wording of a note. -/
def text : Note → String
  | scanned t =>
    s!"Modeled page: {t.zero} zero, {t.exactMatch} exact, {t.partialMatch} partial, {t.miss} miss"
  | packed packing symbols words => s!"Packed {symbols} {packing.symbolName} into {words} words"
  | compressed e =>
    s!"Compressed page to {e.length} words (full words end {e.fullWordsEnd}, "
      ++ s!"queue positions end {e.positionsEnd})"
  | pageHeader index header => s!"Page {index} header {header.text}"
  | stoppedAt name pages => s!"Stopped {name} after {pages} pages"
  | bytesRead name bytes => s!"Read {bytes} bytes from {name}"
  | settingUp => "---- WKdm Initialization Start ----"
  | verbosity level => s!"Verbosity set to {level.name}"
  | inputs count => s!"Measuring {count} file(s)"
  | pageLimit pages => s!"Reading at most {pages} pages per file"
  | algorithm id => s!"Stamping algorithm id {Text.hex id.toNat}"
  | setUp => "---- WKdm Initialization End ----\n"
  | done => "Done.\n"

/-- The part of the program that a note comes from. -/
def origin : Note → String
  | scanned _ | compressed _ => "wkdm::compression::compress"
  | packed .. => "wkdm::bitstream::packers"
  | pageHeader .. | stoppedAt .. | bytesRead .. => "wkdm::tools::report"
  | settingUp | verbosity _ | inputs _ | pageLimit _ | algorithm _ | setUp => "wkdm::tools::cli"
  | done => "wkdm"

/-- The note as a run prints it.  Its origin is told from the debugging level on. -/
def line (n : Note) : String :=
  if n.level.rank ≤ Level.info.rank then s!"[{n.level.name}] {n.text}"
  else s!"[{n.level.name}] (1) {n.origin}: {n.text}"

end Note

end PageCodec
