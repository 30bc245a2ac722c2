import PageCodec.Measure.Duration
import PageCodec.Page.Layout
import PageCodec.Scan.Tally
import PageCodec.Text.Decimal

/-!
# Totals of an input

The totals of an input grow page by page: the number of pages, the length of their compressed forms,
their tags and the time that compressing them took.  They are shown in two lines, with the
compressed size in percent of the input and the speed in binary megabytes a second.

The totals are the `Report` of `wkdm::tools::report`.
-/

namespace PageCodec

/-- What there is to say about the pages of an input (`Report`). -/
structure Totals where
  /-- The name of the input. -/
  name : String
  /-- Number of pages. -/
  pages : Nat
  /-- Length of all compressed pages in words. -/
  compressedWords : Nat
  /-- The tags of all pages. -/
  tally : Tally
  /-- The time that compression took. -/
  elapsed : Duration
  deriving DecidableEq

namespace Totals

/-- The totals of an input before its first page. -/
def start (name : String) : Totals := ⟨name, 0, 0, .empty, .zero⟩

/-- The totals with one more page, but for its time. -/
def countPage (t : Totals) (compressedLength : Nat) (tally : Tally) : Totals :=
  { t with
    pages := t.pages + 1
    compressedWords := t.compressedWords + compressedLength
    tally := t.tally + tally }

/-- Adds a page (`Report::add_page`).  Its time is added last, and where the sum does not fit, the
page is counted but its time is not. -/
def addPage (compressedLength : Nat) (tally : Tally) (elapsed : Duration) :
    EStateM Stop Totals Unit := fun t =>
  let t := t.countPage compressedLength tally
  match t.elapsed.add? elapsed with
  | some elapsed => .ok () { t with elapsed }
  | none => .error .timeOverflow t

/-- Length of the input in words (`Report::input_words`). -/
def inputWords (t : Totals) : Nat := t.pages * Layout.pageWords

/-- The compressed size in percent of the input, 0 if there is no input
(`Report::ratio_percent`). -/
def ratioPercent (t : Totals) : Float :=
  if t.pages = 0 then 0.0
  else Float.ofNat t.compressedWords * 100.0 / Float.ofNat t.inputWords

/-- Binary megabytes of input a second, 0 if no time has passed (`Report::throughput_mb_s`). -/
def throughput (t : Totals) : Float :=
  let seconds := t.elapsed.toSeconds
  if seconds == 0.0 then 0.0
  else Float.ofNat (t.inputWords * Word.byteCount) / seconds / (1024.0 * 1024.0)

/-- The totals in two lines, as a `Report` is displayed. -/
def text (t : Totals) : String :=
  s!"{t.name}: {t.pages} pages, {t.inputWords} -> {t.compressedWords} words "
    ++ s!"({Decimal.text t.ratioPercent}%), {Decimal.text t.throughput} MB/s\n"
    ++ s!"    zero {t.tally.zero}, exact {t.tally.exactMatch}, "
    ++ s!"partial {t.tally.partialMatch}, miss {t.tally.miss}"

end Totals

end PageCodec
