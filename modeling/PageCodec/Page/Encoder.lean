import PageCodec.Page.Header
import PageCodec.Scan.Page

/-!
# Compressing a page

A page is compressed on its own, from a new dictionary.  Its full words are written where they
belong while it is scanned; the tags, queue positions and patterns are packed around them
afterwards, and the header is written last.  The identifier in the header and the words behind the
compressed page keep what they held.

This is `wkdm::compression::compress`.

* `Encoded` — the tags of a compressed page and the ends of its areas.
* `Encoder.writeAreas` — the writing phases, for a page and a buffer of the right lengths.
* `Encoder.encode`, `Encoder.encodeLength` — compress a page into a buffer.
-/

namespace PageCodec

/-- What there is to say about a compressed page. -/
structure Encoded where
  /-- The tags of the page. -/
  tally : Tally
  /-- Where the full words end. -/
  fullWordsEnd : Nat
  /-- Where the queue positions end. -/
  positionsEnd : Nat
  /-- Where the patterns end. -/
  patternsEnd : Nat
  deriving DecidableEq, Repr

namespace Encoded

/-- Length of the compressed page in words. -/
def length (e : Encoded) : Nat := e.patternsEnd

end Encoded

namespace Encoder

/-- Scans a page from a new dictionary, with a buffer for its full words. -/
def scan (page : List Word) : EStateM Stop Buffer (Tally × Streams) := fun b =>
  match Scan.page page ⟨.new, .empty, b⟩ with
  | .ok tally ws => .ok (tally, ws.streams) ws.fullWords
  | .error e ws => .error e ws.fullWords

/-- Packs a run into the words from `start` up to the end of the buffer and returns where the
packed words end.  A run that is not there, for want of room to fill it up, is a stop. -/
def packFrom (packing : Packing) (start : Nat) : Option (List Nat) → EStateM Stop Buffer Nat
  | none => throw .outOfRange
  | some run => do
    let b ← get
    let count ← Buffer.onArea start b.length (packing.pack run)
    return start + count

/-- Writes the areas of a compressed page into a buffer and then their ends into its header.  The
full words come first, since only they say where the other areas start. -/
def writeAreas (page : List Word) : EStateM Stop Buffer Encoded := do
  let b ← get
  let (tally, streams) ← Buffer.onArea Layout.fullWordsStart b.length (scan page)
  let fullWordsEnd := Layout.fullWordsStart + tally.miss
  let _ ← Buffer.onArea Layout.tagsStart Layout.fullWordsStart (Packing.tags.pack streams.tagCodes)
  let positionsEnd ← packFrom .positions fullWordsEnd streams.paddedPositions?
  let patternsEnd ← packFrom .patterns positionsEnd streams.paddedPatterns?
  Buffer.put 1 (UInt32.ofNat fullWordsEnd)
  Buffer.put 2 (UInt32.ofNat positionsEnd)
  Buffer.put 3 (UInt32.ofNat patternsEnd)
  return { tally, fullWordsEnd, positionsEnd, patternsEnd }

/-- Compresses a page into the front of a buffer (`compress_with_counts`).  The length of the page
is looked at before the room in the buffer, and a buffer with room for any page is asked for. -/
def encode (page : List Word) : EStateM Stop Buffer Encoded := fun b =>
  if page.length ≠ Layout.pageWords then
    .error (.rejected (.pageLength Layout.pageWords page.length)) b
  else if b.length < Layout.maxWords then
    .error (.rejected (.capacity Layout.maxWords b.length)) b
  else writeAreas page b

/-- Compresses a page for those who ask for no more than its length (`compress`). -/
def encodeLength (page : List Word) : EStateM Stop Buffer Nat := Encoded.length <$> encode page

end Encoder

end PageCodec
