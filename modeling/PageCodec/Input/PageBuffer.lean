import PageCodec.Page.Layout

/-!
# The bytes of a page

Bytes are read into a buffer of the size of a page, which is used for one page after another.  Bytes
are laid over what the buffer held, so behind the bytes of a short page it still has bytes of the
page before; they have to be cleared before the buffer is taken for a page.

* `PageBuffer` — the `buffer` of a `PageReader`.
* `PageBuffer.overlay`, `PageBuffer.clearFrom` — bytes laid over the buffer, and zeros.
* `PageBuffer.words` — the words of the page in the buffer.
* `PageBuffer.toList_overlay` — what is laid over a buffer is there, and nothing else changes.
-/

namespace PageCodec

/-- Room for the bytes of a page. -/
structure PageBuffer where
  /-- The bytes. -/
  bytes : Vector UInt8 Layout.pageBytes
  deriving DecidableEq

namespace PageBuffer

/-- A buffer of zeros. -/
def zeros : PageBuffer := ⟨Vector.replicate Layout.pageBytes 0⟩

instance : Inhabited PageBuffer := ⟨zeros⟩

/-- The buffer with bytes laid over it from place `start` on. -/
def overlay (b : PageBuffer) (start : Nat) : List UInt8 → PageBuffer
  | [] => b
  | x :: xs => overlay ⟨b.bytes.setIfInBounds start x⟩ (start + 1) xs

/-- The buffer with zeros from place `start` on. -/
def clearFrom (b : PageBuffer) (start : Nat) : PageBuffer :=
  b.overlay start (List.replicate (Layout.pageBytes - start) 0)

/-- The words of the page in the buffer, each made of four bytes. -/
def words (b : PageBuffer) : List Word := Word.listOfBytes b.bytes.toList

/-! ## What is laid over a buffer -/

theorem overlay_append (b : PageBuffer) (start : Nat) (xs ys : List UInt8) :
    b.overlay start (xs ++ ys) = (b.overlay start xs).overlay (start + xs.length) ys := by
  induction xs generalizing b start with
  | nil => rfl
  | cons x xs ih =>
    rw [List.cons_append, overlay, ih, List.length_cons, Nat.add_right_comm, Nat.add_assoc]
    rfl

/-- What is laid over a buffer stands at its place, and the bytes around it stay. -/
theorem toList_overlay (b : PageBuffer) {start : Nat} {xs : List UInt8}
    (h : start + xs.length ≤ Layout.pageBytes) : (b.overlay start xs).bytes.toList
      = b.bytes.toList.take start ++ xs ++ b.bytes.toList.drop (start + xs.length) := by
  induction xs generalizing b start with
  | nil => simp [overlay]
  | cons x xs ih =>
    rw [List.length_cons] at h ⊢
    have hstart : start < b.bytes.toList.length := by
      rw [Vector.length_toList]
      omega
    rw [overlay, ih ⟨b.bytes.setIfInBounds start x⟩ (by omega), Vector.toList_setIfInBounds,
      List.take_set, List.drop_set_of_lt (by omega), List.take_add_one,
      List.getElem?_eq_getElem hstart, Option.toList_some,
      List.set_append_right _ _ (List.length_take_le ..),
      List.length_take_of_le (Nat.le_of_lt hstart), Nat.sub_self, List.set_cons_zero,
      List.append_assoc, List.append_assoc, List.append_assoc, Nat.add_right_comm, Nat.add_assoc]
    rfl

end PageBuffer

end PageCodec
