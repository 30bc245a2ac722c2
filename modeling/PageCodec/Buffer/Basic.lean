import PageCodec.Word.Basic
import PageCodec.Buffer.Rejection

/-!
# Buffers

A buffer is a list of words of fixed length that is written in place, as the callers of
`compress_with_counts` lend it.  Writing over the front of a buffer does not change its length
(`Buffer.length_overlay`), and an operation on an area of a buffer leaves the words around the area
alone (`Buffer.onArea`).
-/

namespace PageCodec

/-- Words that are written in place. -/
abbrev Buffer := List Word

namespace Buffer

/-- The buffer with `words` written over its front. -/
def overlay (b : Buffer) (words : List Word) : Buffer := words ++ b.drop words.length

theorem length_overlay {b : Buffer} {words : List Word} (h : words.length ≤ b.length) :
    (b.overlay words).length = b.length := by
  simp only [overlay, List.length_append, List.length_drop]
  omega

/-- Writes one word at place `i`. -/
def put (i : Nat) (w : Word) : EStateM Stop Buffer Unit := fun b =>
  if i < b.length then .ok () (b.set i w) else .error .outOfRange b

/-- The words from `start` up to `stop`. -/
def area (b : Buffer) (start stop : Nat) : List Word := (b.take stop).drop start

/-- The buffer with `area` in place of the words from `start` up to `stop`. -/
def splice (b : Buffer) (start stop : Nat) (area : List Word) : Buffer :=
  b.take start ++ area ++ b.drop stop

/-- Runs an operation on the words from `start` up to `stop` and puts back what it leaves of them,
whether or not it completes. -/
def onArea {α : Type} (start stop : Nat) (act : EStateM Stop Buffer α) : EStateM Stop Buffer α :=
  fun b =>
    if start ≤ stop ∧ stop ≤ b.length then
      match act (b.area start stop) with
      | .ok a area => .ok a (b.splice start stop area)
      | .error e area => .error e (b.splice start stop area)
    else .error .outOfRange b

end Buffer

end PageCodec
