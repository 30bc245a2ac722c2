/-!
# Words

A page is made of 32-bit words.  The codec sees a word in two parts: the **high part**, its upper
22 bits, and the **pattern**, its lower 10 bits.  Two words with the same high part differ in their
patterns only (`Word.eq_of_parts`), so a word can be recovered from any word that shares its high
part together with its own pattern (`Word.withPattern_pattern`).
Words are made of four bytes each, the least significant first (`Word.listOfBytes`), and bytes that
fill whole words are got back from them (`Word.flatMap_bytes_listOfBytes`).

The constants are those of `wkdm::compression::format`.
-/

namespace PageCodec

/-- The unit of a page. -/
abbrev Word := UInt32

namespace Word

/-- Number of bits in a pattern (`NUM_LOW_BITS`). -/
def patternWidth : Nat := 10

/-- Number of patterns. -/
def patternCount : Nat := Nat.pow 2 patternWidth

/-- The mask that cuts a word down to its pattern (`LOW_BITS_MASK`). -/
def patternMask : Word := 0x3ff

/-- Number of bytes in a word (`BYTES_PER_WORD`). -/
def byteCount : Nat := 4

end Word

/-- The low bits of a word, the part that a partial match writes down. -/
abbrev Pattern := Fin Word.patternCount

/-- The pattern in the low bits of a number. -/
def Pattern.ofNat (n : Nat) : Pattern :=
  ⟨n % Word.patternCount, Nat.mod_lt _ (by decide)⟩

namespace Word

/-! ## The two parts of a word -/

/-- The upper 22 bits. -/
def high (w : Word) : Nat := (w >>> UInt32.ofNat patternWidth).toNat

/-- The lower 10 bits. -/
def pattern (w : Word) : Pattern := .ofNat (w &&& patternMask).toNat

/-- The word with the high part of `w` and the pattern `p`. -/
def withPattern (w : Word) (p : Pattern) : Word :=
  UInt32.ofNat (patternCount * w.high + p.val)

theorem toNat_patternMask : patternMask.toNat = patternCount - 1 := rfl

theorem high_eq (w : Word) : w.high = w.toNat / 1024 := Nat.shiftRight_eq_div_pow ..

theorem val_pattern (w : Word) : w.pattern.val = w.toNat % 1024 := by
  have hmask : w.toNat &&& (patternCount - 1) = w.toNat % patternCount :=
    Nat.and_two_pow_sub_one_eq_mod _ patternWidth
  show (w &&& patternMask).toNat % patternCount = w.toNat % patternCount
  rw [UInt32.toNat_and, toNat_patternMask, hmask, Nat.mod_mod]

theorem toNat_eq_parts (w : Word) : w.toNat = 1024 * w.high + w.pattern.val := by
  rw [high_eq, val_pattern, Nat.div_add_mod]

theorem eq_of_parts {v w : Word} (hh : v.high = w.high) (hp : v.pattern = w.pattern) : v = w := by
  apply UInt32.toNat_inj.1
  rw [toNat_eq_parts v, toNat_eq_parts w, hh, hp]

theorem toNat_withPattern (w : Word) (p : Pattern) :
    (w.withPattern p).toNat = 1024 * w.high + p.val := by
  have hw : w.toNat < 2 ^ 32 := w.toNat_lt
  have hp : p.val < 1024 := p.isLt
  have hhigh := w.high_eq
  rw [withPattern, UInt32.toNat_ofNat']
  refine Nat.mod_eq_of_lt ?_
  show 1024 * w.high + p.val < 2 ^ 32
  omega

@[simp]
theorem high_withPattern (w : Word) (p : Pattern) : (w.withPattern p).high = w.high := by
  have hp : p.val < 1024 := p.isLt
  rw [high_eq, toNat_withPattern]
  omega

@[simp]
theorem pattern_withPattern (w : Word) (p : Pattern) : (w.withPattern p).pattern = p := by
  have hp : p.val < 1024 := p.isLt
  apply Fin.ext
  rw [val_pattern, toNat_withPattern]
  omega

/-- A word is recovered from its pattern and any word that shares its high part. -/
theorem withPattern_pattern {cached w : Word} (h : w.high = cached.high) :
    cached.withPattern w.pattern = w :=
  eq_of_parts (by rw [high_withPattern, h]) (pattern_withPattern ..)

/-! ## Words and their bytes -/

/-- The word whose bytes are `a`, `b`, `c`, `d`, least significant first. -/
def ofBytes (a b c d : UInt8) : Word :=
  UInt32.ofNat (a.toNat + 256 * (b.toNat + 256 * (c.toNat + 256 * d.toNat)))

/-- Four bytes at a time; the one to three bytes left over at the end give no word. -/
def listOfBytes : List UInt8 → List Word
  | a :: b :: c :: d :: rest => ofBytes a b c d :: listOfBytes rest
  | _ => []

theorem length_listOfBytes (bytes : List UInt8) :
    (listOfBytes bytes).length = bytes.length / 4 := by
  fun_induction listOfBytes bytes with
  | case1 a b c d rest ih => simp only [List.length_cons, ih]; omega
  | case2 bytes h =>
    match bytes, h with
    | [], _ => simp
    | [_], _ => simp
    | [_, _], _ => simp
    | [_, _, _], _ => simp
    | a :: b :: c :: d :: rest, h => exact absurd rfl (h a b c d rest)

/-- The bytes of a word, least significant first. -/
def bytes (w : Word) : List UInt8 :=
  [UInt8.ofNat w.toNat, UInt8.ofNat (w.toNat / 256), UInt8.ofNat (w.toNat / 65536),
    UInt8.ofNat (w.toNat / 16777216)]

theorem toNat_ofBytes (a b c d : UInt8) : (ofBytes a b c d).toNat
    = a.toNat + 256 * (b.toNat + 256 * (c.toNat + 256 * d.toNat)) := by
  have ha := a.toNat_lt
  have hb := b.toNat_lt
  have hc := c.toNat_lt
  have hd := d.toNat_lt
  rw [ofBytes, UInt32.toNat_ofNat']
  omega

theorem bytes_ofBytes (a b c d : UInt8) : (ofBytes a b c d).bytes = [a, b, c, d] := by
  have ha := a.toNat_lt
  have hb := b.toNat_lt
  have hc := c.toNat_lt
  have hd := d.toNat_lt
  simp only [bytes, toNat_ofBytes, List.cons.injEq, and_true, ← UInt8.toNat_inj,
    UInt8.toNat_ofNat']
  omega

/-- Bytes that fill whole words are the bytes of the words made of them. -/
theorem flatMap_bytes_listOfBytes {l : List UInt8} (h : 4 ∣ l.length) :
    (listOfBytes l).flatMap bytes = l := by
  fun_induction listOfBytes l with
  | case1 a b c d rest ih =>
    simp only [List.length_cons] at h
    rw [List.flatMap_cons, bytes_ofBytes, ih (by omega)]
    rfl
  | case2 l hl =>
    match l, hl, h with
    | [], _, _ => rfl
    | [_], _, h => simp at h
    | [_, _], _, h => simp at h
    | [_, _, _], _, h => simp at h
    | a :: b :: c :: d :: rest, hl, _ => exact absurd rfl (hl a b c d rest)

end Word

end PageCodec
