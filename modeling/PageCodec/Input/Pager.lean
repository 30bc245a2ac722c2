import PageCodec.Input.PageBuffer
import PageCodec.Input.Source

/-!
# Cutting a source into pages

A pager reads a source until it has the bytes of a whole page, and turns them into words.  How the
source splits its bytes over reads does not show in the pages.  The last page is filled up with
zeros; after it, or after a failure, there are no more pages and the source is left alone.

A pager is the `PageReader` of `wkdm::tools::pages`.  It has one buffer for all pages.

* `Source.fill` — reads until a buffer is full (`PageReader::fill_buffer`).  It comes to an end
  because every read that does not end it either delivers bytes or uses up an event.
* `Pager.next` — the next page, with the number of bytes that went into pages
  (`PageReader::next`).
-/

namespace PageCodec

namespace Source

/-- Reads into a buffer behind the `filled` bytes that are there, until it is full or the source is
at its end, and says how many bytes are there then.  Interrupted reads are tried again.  Bytes that
were read before a failure stay in the buffer, but nobody is told how many they are. -/
def fill (filled : Nat) (b : PageBuffer) (s : Source) :
    Except InputFailure Nat × PageBuffer × Source :=
  if filled < Layout.pageBytes then
    match _h : s.read (Layout.pageBytes - filled) with
    | (.error reason, s') =>
      if reason.kind = .interrupted then fill filled b s' else (.error reason, b, s')
    | (.ok [], s') => (.ok filled, b, s')
    | (.ok (x :: xs), s') => fill (filled + (x :: xs).length) (b.overlay filled (x :: xs)) s'
  else (.ok filled, b, s)
termination_by Layout.pageBytes - filled + s.events.length
decreasing_by
  · have := length_events_read_lt (congrArg Prod.fst _h)
    rw [_h] at this
    exact Nat.add_lt_add_left this _
  · have := length_events_read_le (Layout.pageBytes - filled) s
    simp only [_h] at this
    simp only [List.length_cons]
    omega

end Source

/-- A source being cut into pages. -/
structure Pager where
  /-- The source. -/
  source : Source
  /-- The bytes of the last page, or of as much of it as was read. -/
  buffer : PageBuffer
  /-- There are no more pages. -/
  finished : Bool
  /-- Number of bytes that went into pages. -/
  bytesRead : Nat
  deriving DecidableEq

namespace Pager

/-- A pager at the start of a source. -/
def ofSource (source : Source) : Pager := ⟨source, .zeros, false, 0⟩

/-- The next page, or the failure met on the way to it; neither after the last page.  Bytes of an
earlier page behind the bytes of a short one are cleared. -/
def next (p : Pager) : Option (Except InputFailure (List Word)) × Pager :=
  if p.finished then (none, p)
  else
    match p.source.fill 0 p.buffer with
    | (.error reason, buffer, source) =>
      (some (.error reason), { p with source, buffer, finished := true })
    | (.ok filled, buffer, source) =>
      if filled = 0 then (none, { p with source, buffer, finished := true })
      else
        let buffer := buffer.clearFrom filled
        (some (.ok buffer.words),
          { source
            buffer
            finished := filled < Layout.pageBytes
            bytesRead := p.bytesRead + filled })

end Pager

end PageCodec
