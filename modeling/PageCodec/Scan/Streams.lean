import PageCodec.Dictionary.Basic
import PageCodec.Page.Layout
import PageCodec.Scan.Tag

/-!
# Symbol streams

While a page is scanned, its tags, the slots it points to and the patterns it writes down are
collected in three streams.  A stream has room for one page and for the zeros that fill it up to
whole words; a symbol for which there is no room left stops the scan.

The streams are the `Staging` of `wkdm::compression::model`, without the bytes that are left over in
its arrays behind the symbols.
-/

namespace PageCodec

/-- The symbols of a page in page order (`Staging`). -/
structure Streams where
  /-- One tag for each word. -/
  tags : Array Tag
  /-- The slot of each exact or partial match. -/
  positions : Array Slot
  /-- The low bits of each partial match. -/
  patterns : Array Pattern
  deriving DecidableEq

namespace Streams

/-- Streams without symbols. -/
def empty : Streams := ⟨#[], #[], #[]⟩

instance : Inhabited Streams := ⟨empty⟩

/-! ## Room -/

/-- Room for tags; a page of tags always fills whole words. -/
def tagRoom : Nat := Layout.pageWords

/-- Room for slots, filled up to whole words (`MAX_QPOS`). -/
def positionRoom : Nat := Layout.roundUp Layout.pageWords Packing.positions.group

/-- Room for patterns, filled up to whole words (`MAX_LOW_BITS`). -/
def patternRoom : Nat := Layout.roundUp Layout.pageWords Packing.patterns.group

/-- The streams with one more tag, if there is room for it (`Staging::push_tag`). -/
def pushTag? (s : Streams) (t : Tag) : Option Streams :=
  if s.tags.size < tagRoom then some { s with tags := s.tags.push t } else none

/-- The streams with one more slot, if there is room for it (`Staging::push_qpos`). -/
def pushPosition? (s : Streams) (slot : Slot) : Option Streams :=
  if s.positions.size < positionRoom then some { s with positions := s.positions.push slot }
  else none

/-- The streams with one more pattern, if there is room for it (`Staging::push_low_bits`). -/
def pushPattern? (s : Streams) (p : Pattern) : Option Streams :=
  if s.patterns.size < patternRoom then some { s with patterns := s.patterns.push p } else none

/-! ## The streams as runs of symbols -/

/-- The codes of the tags. -/
def tagCodes (s : Streams) : List Nat := s.tags.toList.map Tag.code

/-- The numbers of the slots. -/
def positionNumbers (s : Streams) : List Nat := s.positions.toList.map Fin.val

/-- The patterns as numbers. -/
def patternNumbers (s : Streams) : List Nat := s.patterns.toList.map Fin.val

/-- The slots filled up with zeros to whole words, if there is room for that
(`Staging::padded_queue_positions`). -/
def paddedPositions? (s : Streams) : Option (List Nat) :=
  Layout.pad? positionRoom Packing.positions.group s.positionNumbers

/-- The patterns filled up with zeros to whole words, if there is room for that
(`Staging::padded_low_bits`). -/
def paddedPatterns? (s : Streams) : Option (List Nat) :=
  Layout.pad? patternRoom Packing.patterns.group s.patternNumbers

end Streams

end PageCodec
