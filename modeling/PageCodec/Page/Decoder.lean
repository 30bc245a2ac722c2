import PageCodec.Page.Header
import PageCodec.Scan.Streams

/-!
# Reading a compressed page

A compressed page is read by going through its tags with a dictionary of the reader's own.  A tag
says where the next word comes from: it is zero, it is remembered at the next queue position, it is
remembered there but for the next pattern, or it is the next full word.  The reader remembers the
words that the writer remembered, so both dictionaries stay the same.

The program itself only writes compressed pages.  A reader needs no more than the layout that is
described at the head of `wkdm::compression::format`.

* `Decoder.Supply` — the symbols and full words that are still to be read.
* `Decoder.replay` — goes through tags from any dictionary and any supply.
* `Decoder.decode` — takes the tags and the supply out of a compressed page and replays them from a
  new dictionary.
-/

namespace PageCodec

namespace Decoder

/-- The symbols and full words still to be read. -/
structure Supply where
  /-- Slots, one for each exact or partial match. -/
  positions : List Slot
  /-- Patterns, one for each partial match. -/
  patterns : List Pattern
  /-- Full words, one for each miss. -/
  fullWords : List Word
  deriving DecidableEq

/-- The word that a tag stands for, with the dictionary and the supply after it.  There is none if
the supply has run out of what the tag asks for. -/
def step (d : Dictionary) (s : Supply) : Tag → Option (Word × Dictionary × Supply)
  | .zero => some (0, d, s)
  | .exactMatch =>
    match s.positions with
    | slot :: positions => some (d.get slot, d, { s with positions })
    | [] => none
  | .partialMatch =>
    match s.positions, s.patterns with
    | slot :: positions, p :: patterns =>
      let w := (d.get slot).withPattern p
      some (w, d.set slot w, { s with positions, patterns })
    | _, _ => none
  | .miss =>
    match s.fullWords with
    | w :: fullWords => some (w, d.set w.slot w, { s with fullWords })
    | [] => none

/-- The words that a list of tags stands for, with the dictionary and the supply after them. -/
def replay (d : Dictionary) (s : Supply) : List Tag → Option (List Word × Dictionary × Supply)
  | [] => some ([], d, s)
  | t :: ts => do
    let (w, d, s) ← step d s t
    let (ws, d, s) ← replay d s ts
    return (w :: ws, d, s)

/-- The tags of a compressed page. -/
def tags (b : Buffer) : List Tag :=
  (Packing.tags.unpack (b.area Layout.tagsStart Layout.fullWordsStart)).map Tag.ofCode

/-- The slots, patterns and full words of a compressed page with the given header. -/
def supply (h : Header) (b : Buffer) : Supply where
  positions := (Packing.positions.unpack
    (b.area h.fullWordsEnd.toNat h.positionsEnd.toNat)).map Slot.ofNat
  patterns := (Packing.patterns.unpack
    (b.area h.positionsEnd.toNat h.patternsEnd.toNat)).map Pattern.ofNat
  fullWords := b.area Layout.fullWordsStart h.fullWordsEnd.toNat

/-- The page that a buffer holds in compressed form, and what its page does not use of the symbols.
There is none if the header does not fit the buffer or a stream is too short. -/
def decode (b : Buffer) : Option (List Word × Supply) :=
  match Header.read b with
  | .error _ => none
  | .ok h =>
    if h.WellFormed ∧ h.compressedLength ≤ b.length then do
      let (page, _, rest) ← replay .new (supply h b) (tags b)
      return (page, rest)
    else none

end Decoder

end PageCodec
