import PageCodec.Word.Basic

/-!
# Slots

A word has one place in the dictionary, its **slot**.  The slot is read off a fixed table by the
**key** of the word, the eight bits above its pattern, so words with the same high part share a
slot whatever their patterns are (`Word.slot_eq_of_high_eq`).

This is `wkdm::dictionary::hash_table`.
-/

set_option maxRecDepth 4000

namespace PageCodec

/-- Number of slots (`DICTIONARY_SIZE`). -/
def Slot.count : Nat := 16

/-- A place in the dictionary. -/
abbrev Slot := Fin Slot.count

namespace Slot

/-- The slot in the low bits of a number. -/
def ofNat (n : Nat) : Slot := ⟨n % count, Nat.mod_lt _ (by decide)⟩

/-- Number of keys. -/
def keyCount : Nat := 256

/-- The place of each key in the dictionary, counted in bytes (`HASH_LOOKUP_TABLE`).  Place 0
belongs to key 0 alone; the other keys are spread over the other places. -/
def offsets : Vector Nat keyCount := #v[
  0, 52, 8, 56, 16, 12, 28, 20, 4, 36, 48, 24, 44, 40, 32, 60,
  8, 12, 28, 20, 4, 60, 16, 36, 24, 48, 44, 32, 52, 56, 40, 12,
  8, 48, 16, 52, 60, 28, 56, 32, 20, 24, 36, 40, 44, 4, 8, 40,
  60, 32, 20, 44, 4, 36, 52, 24, 16, 56, 48, 12, 28, 16, 8, 40,
  36, 28, 32, 12, 4, 44, 52, 20, 24, 48, 60, 56, 40, 48, 8, 32,
  28, 36, 4, 44, 20, 56, 60, 24, 52, 16, 12, 12, 4, 48, 20, 8,
  52, 16, 60, 24, 36, 44, 28, 56, 40, 32, 36, 20, 24, 60, 40, 44,
  52, 16, 32, 4, 48, 8, 28, 56, 12, 28, 32, 40, 52, 36, 16, 20,
  48, 8, 4, 60, 24, 56, 44, 12, 8, 36, 24, 28, 16, 60, 20, 56,
  32, 40, 48, 12, 4, 44, 52, 44, 40, 12, 56, 8, 36, 24, 60, 28,
  48, 4, 32, 20, 16, 52, 60, 12, 24, 36, 8, 4, 16, 56, 48, 44,
  40, 52, 32, 20, 28, 32, 12, 36, 28, 24, 56, 40, 16, 52, 44, 4,
  20, 60, 8, 48, 48, 52, 12, 20, 32, 44, 36, 28, 4, 40, 24, 8,
  56, 60, 16, 36, 32, 8, 40, 4, 52, 24, 44, 20, 12, 28, 48, 56,
  16, 60, 4, 52, 60, 48, 20, 16, 56, 44, 24, 8, 40, 12, 32, 28,
  36, 24, 32, 12, 4, 20, 16, 60, 36, 28, 8, 52, 40, 48, 44, 56]

/-- Every place lies in the dictionary. -/
theorem offset_lt : ∀ k : Fin keyCount, offsets[k] / Word.byteCount < count := by
  decide +kernel

/-- The slot of a key. -/
def ofKey (k : Fin keyCount) : Slot := ⟨offsets[k] / Word.byteCount, offset_lt k⟩

end Slot

namespace Word

/-- The eight bits above the pattern (`hash_key`). -/
def key (w : Word) : Fin Slot.keyCount := ⟨w.high % Slot.keyCount, Nat.mod_lt _ (by decide)⟩

/-- The place of a word in the dictionary (`hash`). -/
def slot (w : Word) : Slot := .ofKey w.key

theorem key_eq_of_high_eq {v w : Word} (h : v.high = w.high) : v.key = w.key :=
  Fin.ext (congrArg (· % Slot.keyCount) h)

theorem slot_eq_of_high_eq {v w : Word} (h : v.high = w.high) : v.slot = w.slot :=
  congrArg Slot.ofKey (key_eq_of_high_eq h)

end Word

end PageCodec
