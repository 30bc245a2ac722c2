import PageCodec.Input.Failure

/-!
# Byte sources

A source hands out bytes when it is read.  What it will do is laid out in advance as a list of
events, one for each read: some bytes, the end, or a failure.  A read that asks for fewer bytes than
an event holds takes what it asked for and leaves the rest to the next read, and a source with no
events left is at its end for good.  That is all that `PageReader::fill_buffer` can tell of what it
reads from.

* `Event` — what happens at a read.
* `Source` — the events to come and the number of bytes handed out.
* `Source.read` — one read.  It leaves no more events than there were
  (`Source.length_events_read_le`), and fewer if it failed (`Source.length_events_read_lt`).
-/

namespace PageCodec

/-- What happens when a source is read. -/
inductive Event where
  /-- There are bytes to hand out; if there are none, the reader takes it for the end. -/
  | data (bytes : List UInt8)
  /-- The end is reported. -/
  | endOfInput
  /-- The read fails. -/
  | failure (reason : InputFailure)
  deriving DecidableEq

/-- A source with the events it still holds and the number of bytes it has handed out. -/
structure Source where
  /-- The events to come. -/
  events : List Event
  /-- Number of bytes handed out so far. -/
  consumed : Nat
  deriving DecidableEq

namespace Source

/-- A source of which nothing has been read. -/
def ofEvents (events : List Event) : Source := ⟨events, 0⟩

/-- Takes at most `want` bytes in one read.  No bytes at all mean the end. -/
def read (want : Nat) (s : Source) : Except InputFailure (List UInt8) × Source :=
  match s.events with
  | [] => (.ok [], s)
  | .endOfInput :: rest => (.ok [], { s with events := rest })
  | .failure reason :: rest => (.error reason, { s with events := rest })
  | .data bytes :: rest =>
    let taken := bytes.take want
    let left := bytes.drop want
    let events := if left.isEmpty then rest else .data left :: rest
    (.ok taken, ⟨events, s.consumed + taken.length⟩)

/-- A source is never longer after a read, and shorter if the read failed. -/
theorem length_events_read_le (want : Nat) (s : Source) :
    (s.read want).2.events.length ≤ s.events.length := by
  unfold read
  split
  · exact Nat.le_refl _
  · simp_all
  · simp_all
  · rename_i bytes rest h
    simp only [h]
    split <;> simp

theorem length_events_read_lt {want : Nat} {s : Source} {reason : InputFailure}
    (h : (s.read want).1 = .error reason) :
    (s.read want).2.events.length < s.events.length := by
  revert h
  unfold read
  split <;> simp_all

end Source

end PageCodec
