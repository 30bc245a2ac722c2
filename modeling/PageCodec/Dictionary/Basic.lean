import PageCodec.Dictionary.Slot

/-!
# The dictionary

The dictionary remembers one word per slot: the last one stored there.  It starts with the same
nonzero word in every slot, so a zero word never matches a dictionary that has not been given one.
Reading a slot after a store gives the stored word at that slot and the old one elsewhere
(`Dictionary.get_set`).

This is `wkdm::dictionary::dictionary`.
-/

namespace PageCodec

/-- One remembered word for each slot (`Dictionary`). -/
structure Dictionary where
  /-- The remembered words in slot order. -/
  words : Vector Word Slot.count
  deriving DecidableEq

namespace Dictionary

/-- The word in every slot of a new dictionary (`SENTINEL`). -/
def sentinel : Word := 1

/-- The dictionary that has seen nothing yet. -/
def new : Dictionary := ⟨Vector.replicate Slot.count sentinel⟩

instance : Inhabited Dictionary := ⟨new⟩

/-- The word remembered at a slot. -/
def get (d : Dictionary) (s : Slot) : Word := d.words[s]

/-- The dictionary with `w` remembered at `s`. -/
def set (d : Dictionary) (s : Slot) (w : Word) : Dictionary := ⟨d.words.set s w⟩

/-- The slot of a word and the word remembered there (`Dictionary::probe`). -/
def probe (d : Dictionary) (w : Word) : Slot × Word := (w.slot, d.get w.slot)

/-- The word remembered at a slot given by number (`Dictionary::lookup`); there is none past the
last slot. -/
def lookup? (d : Dictionary) (n : Nat) : Option Word :=
  if h : n < Slot.count then some (d.get ⟨n, h⟩) else none

/-- A store at a slot given by number (`Dictionary::update`); there is none past the last slot. -/
def update? (d : Dictionary) (n : Nat) (w : Word) : Option Dictionary :=
  if h : n < Slot.count then some (d.set ⟨n, h⟩ w) else none

/-! ## Reading after a store -/

@[simp]
theorem get_new (s : Slot) : new.get s = sentinel := by
  simp [get, new]

theorem get_set (d : Dictionary) (s t : Slot) (w : Word) :
    (d.set s w).get t = if t = s then w else d.get t := by
  simp only [get, set, Fin.getElem_fin, Vector.getElem_set, Fin.ext_iff, eq_comm]

/-- Two dictionaries that remember the same words are the same. -/
theorem ext_get {d e : Dictionary} (h : ∀ s, d.get s = e.get s) : d = e := by
  cases d with | mk v =>
  cases e with | mk w =>
  congr 1
  apply Vector.ext
  intro i hi
  exact h ⟨i, hi⟩

end Dictionary

end PageCodec
