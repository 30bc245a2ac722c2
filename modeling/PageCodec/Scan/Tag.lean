import PageCodec.Word.Basic

/-!
# Tags

Every word of a page gets one of four tags, by comparing it with the word that the dictionary
remembers at its slot.  A tag is written down as a two-bit code; reading a code back gives the tag
it was written for (`Tag.ofCode_code`).

Tags and their codes are those of `wkdm::compression::format`.
-/

namespace PageCodec

/-- What the dictionary says about a word (`Tag`). -/
inductive Tag where
  /-- The word is zero. -/
  | zero
  /-- The remembered word has the same high part. -/
  | partialMatch
  /-- The remembered word has another high part. -/
  | miss
  /-- The word is the remembered word. -/
  | exactMatch
  deriving DecidableEq, Repr, Inhabited

namespace Tag

/-- The two-bit code of a tag (`Tag::code`). -/
def code : Tag → Nat
  | zero => 0
  | partialMatch => 1
  | miss => 2
  | exactMatch => 3

/-- The tag of a code, of which only the low two bits count (`Tag::from_code`). -/
def ofCode (n : Nat) : Tag :=
  match n % 4 with
  | 0 => zero
  | 1 => partialMatch
  | 2 => miss
  | _ => exactMatch

/-- The tag of `word` where the dictionary remembers `cached`, by the comparisons of `model_page`.
Equality is looked at first, so a zero word is an exact match where zero is remembered. -/
def classify (cached word : Word) : Tag :=
  if word = cached then exactMatch
  else if word = 0 then zero
  else if word.high = cached.high then partialMatch
  else miss

theorem code_lt (t : Tag) : t.code < 4 := by
  cases t <;> decide

@[simp]
theorem ofCode_code (t : Tag) : ofCode t.code = t := by
  cases t <;> rfl

end Tag

end PageCodec
