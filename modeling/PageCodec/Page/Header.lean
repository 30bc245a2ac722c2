import PageCodec.Page.Layout

/-!
# Headers

The header of a compressed page says who it is for and where its areas end.

* `Header.read` — takes the header off a buffer.
* `Header.stamp` — sets the identifier, which changes nothing else (`Header.read_stamp`).
* `Header.WellFormed` — the areas follow each other in layout order.
-/

namespace PageCodec

/-- The four words at the front of a compressed page (`Header`). -/
structure Header where
  /-- An identifier chosen by whoever stores the page. -/
  algorithm : Word
  /-- Where the full words end and the queue positions start. -/
  fullWordsEnd : Word
  /-- Where the queue positions end and the low-bit patterns start. -/
  positionsEnd : Word
  /-- Where the low-bit patterns end, and with them the compressed page. -/
  patternsEnd : Word
  deriving DecidableEq, Repr

namespace Header

/-- Reads the header off the front of a buffer (`Header::read`). -/
def read : Buffer → Except Rejection Header
  | a :: f :: q :: l :: _ => .ok ⟨a, f, q, l⟩
  | b => .error (.capacity Layout.headerWords b.length)

/-- Sets the identifier (`Header::stamp_algorithm`).  One word is enough to stamp, though a header
has four. -/
def stamp (algorithm : Word) : Buffer → Except Rejection Buffer
  | _ :: rest => .ok (algorithm :: rest)
  | [] => .error (.capacity Layout.headerWords 0)

/-- Length of the compressed page in words (`Header::compressed_len`). -/
def compressedLength (h : Header) : Nat := h.patternsEnd.toNat

/-- Number of full words, none where their end is put before their start
(`Header::full_word_count`). -/
def fullWordCount (h : Header) : Nat := h.fullWordsEnd.toNat - Layout.fullWordsStart

/-- The areas follow each other in layout order (`Header::is_well_formed`). -/
def WellFormed (h : Header) : Prop :=
  Layout.fullWordsStart ≤ h.fullWordsEnd.toNat ∧ h.fullWordsEnd ≤ h.positionsEnd
    ∧ h.positionsEnd ≤ h.patternsEnd

instance : DecidablePred WellFormed :=
  fun h => inferInstanceAs (Decidable (Layout.fullWordsStart ≤ h.fullWordsEnd.toNat
    ∧ h.fullWordsEnd ≤ h.positionsEnd ∧ h.positionsEnd ≤ h.patternsEnd))

/-- The header spelled out field by field. -/
def text (h : Header) : String :=
  s!"Header \x7b algorithm: {h.algorithm.toNat}, full_words_end: {h.fullWordsEnd.toNat}"
    ++ s!", queue_positions_end: {h.positionsEnd.toNat}, low_bits_end: {h.patternsEnd.toNat} \x7d"

/-- Stamping changes the identifier and nothing else. -/
theorem read_stamp {b : Buffer} {h : Header} (hb : read b = .ok h) (algorithm : Word) :
    (stamp algorithm b).bind read = .ok { h with algorithm } := by
  match b, hb with
  | a :: f :: q :: l :: rest, hb =>
    cases hb
    rfl

end Header

end PageCodec
