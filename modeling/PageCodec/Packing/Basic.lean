import PageCodec.Buffer.Basic
import PageCodec.Packing.Digits

/-!
# Packing symbols into words

The symbols of a page are smaller than a word and are packed several to a word: tags 16 to a word,
queue positions 8, low-bit patterns 3.  The first symbol of a group takes the lowest bits, and bits
that no symbol takes are zero.  A run of symbols is packed only if it fills whole words and there
is room for them; otherwise nothing is written (`Packing.pack`).

The three packings are the functions of `wkdm::bitstream::packers`, which are one function but for
their numbers and names.
-/

namespace PageCodec

/-- A way to put symbols of one width side by side in words. -/
structure Packing where
  /-- The name of the packing in messages. -/
  name : String
  /-- What its symbols are called. -/
  symbolName : String
  /-- Number of bits of a symbol. -/
  width : Nat
  /-- Number of symbols in a word. -/
  group : Nat
  /-- A word holds a symbol at least. -/
  group_pos : 0 < group
  /-- A group fits into a word. -/
  fits : width * group ≤ 32

namespace Packing

/-- Two-bit tags, 16 to a word (`pack_2bits`). -/
def tags : Packing := ⟨"pack_2bits", "tags", 2, 16, by decide, by decide⟩

/-- Four-bit queue positions, 8 to a word (`pack_4bits`). -/
def positions : Packing := ⟨"pack_4bits", "queue positions", 4, 8, by decide, by decide⟩

/-- Ten-bit low-bit patterns, 3 to a word (`pack_3_tenbits`); the top two bits of a word stay
zero. -/
def patterns : Packing := ⟨"pack_3_tenbits", "low-bit patterns", 10, 3, by decide, by decide⟩

/-- One more than the largest symbol. -/
def base (p : Packing) : Nat := Nat.pow 2 p.width

/-- The mask that cuts a symbol down to its low bits. -/
def mask (p : Packing) : Word := UInt32.ofNat (p.base - 1)

/-- The low bits of a symbol, shifted to place `i` of a word. -/
def shifted (p : Packing) (i symbol : Nat) : Word :=
  (UInt32.ofNat symbol &&& p.mask) <<< UInt32.ofNat (p.width * i)

/-- The word that holds a group of symbols: the low bits of each are set at its place. -/
def word (p : Packing) (symbols : List Nat) : Word :=
  symbols.zipIdx.foldl (fun w (symbol, i) => w ||| p.shifted i symbol) 0

/-- The symbols that a word holds. -/
def symbols (p : Packing) (w : Word) : List Nat :=
  Digits.split p.base p.group w.toNat

/-- The first `n` words that a run of symbols fills. -/
def words (p : Packing) : Nat → List Nat → List Word
  | 0, _ => []
  | n + 1, run => p.word (run.take p.group) :: p.words n (run.drop p.group)

/-- The symbols that a list of words holds. -/
def unpack (p : Packing) (words : List Word) : List Nat :=
  words.flatMap p.symbols

/-- Packs a run of symbols into the front of a buffer and returns the number of words written.
Whether the run fills whole words is asked before whether there is room for them (`check_run`). -/
def pack (p : Packing) (run : List Nat) : EStateM Stop Buffer Nat := fun b =>
  let count := run.length / p.group
  if run.length % p.group ≠ 0 then
    .error (.rejected (.unevenRun p.name p.group run.length)) b
  else if b.length < count then
    .error (.rejected (.capacity count b.length)) b
  else
    .ok count (b.overlay (p.words count run))

@[simp]
theorem length_words (p : Packing) (n : Nat) (run : List Nat) : (p.words n run).length = n := by
  induction n generalizing run with
  | zero => rfl
  | succ n ih => rw [words, List.length_cons, ih]

end Packing

end PageCodec
