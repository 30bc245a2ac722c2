import PageCodec.Scan.Tag

/-!
# Tallies

A tally counts the tags of a page, or of many pages.
-/

namespace PageCodec

/-- How often each tag was given (`TagCounts`). -/
structure Tally where
  /-- Number of zero words. -/
  zero : Nat
  /-- Number of exact matches. -/
  exactMatch : Nat
  /-- Number of partial matches. -/
  partialMatch : Nat
  /-- Number of misses. -/
  miss : Nat
  deriving DecidableEq, Repr

namespace Tally

/-- The tally of no words. -/
def empty : Tally := ⟨0, 0, 0, 0⟩

instance : Inhabited Tally := ⟨empty⟩

/-- The tally with one more word of the given tag (`TagCounts::record`). -/
def record (c : Tally) : Tag → Tally
  | .zero => { c with zero := c.zero + 1 }
  | .exactMatch => { c with exactMatch := c.exactMatch + 1 }
  | .partialMatch => { c with partialMatch := c.partialMatch + 1 }
  | .miss => { c with miss := c.miss + 1 }

/-- Number of words counted (`TagCounts::total`). -/
def total (c : Tally) : Nat := c.zero + c.exactMatch + c.partialMatch + c.miss

/-- Number of words that point into the dictionary (`TagCounts::queue_positions`). -/
def positions (c : Tally) : Nat := c.exactMatch + c.partialMatch

/-- Two tallies taken together (`TagCounts::add_assign`). -/
protected def add (a b : Tally) : Tally :=
  ⟨a.zero + b.zero, a.exactMatch + b.exactMatch, a.partialMatch + b.partialMatch, a.miss + b.miss⟩

instance : Add Tally := ⟨Tally.add⟩

end Tally

end PageCodec
