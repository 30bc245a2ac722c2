import PageCodec.Proofs.Packing

/-!
# Packing bit by bit

A word of a packed run has the low bits of its symbols set, each at its place, and no others.  A
symbol is read by shifting its place down and masking it out, and what is read is the low bits of
what was packed.

* `Packing.setBits`, `Packing.readBits` — packing and reading in terms of bits.
* `Packing.symbols_eq_readBits` — the symbols of a word are read bit by bit.
* `Packing.Packs` — a buffer after a run has been packed into it.
* `Packing.Exact` — the answers to packing a run, and the buffers that come with them.
* `Packing.pack_exact` — the three packings of a page answer in this way.
-/

namespace PageCodec

namespace Digits

/-- The digits of a number, each at its place. -/
theorem split_eq_map (base n x : Nat) :
    split base n x = (List.range n).map fun i => x / base ^ i % base := by
  induction n generalizing x with
  | zero => rfl
  | succ n ih =>
    rw [split, ih, List.range_succ_eq_map, List.map_cons, List.map_map, pow_zero, Nat.div_one]
    congr 1
    refine List.map_congr_left fun i _ => ?_
    rw [Function.comp_apply, Nat.div_div_eq_div_mul, pow_succ, Nat.mul_comm]

end Digits

namespace Packing

variable (p : Packing)

/-! ## Bits -/

/-- The word in which the low `width` bits of each symbol are set at its place. -/
def setBits (width : Nat) (symbols : List Nat) : Word :=
  symbols.zipIdx.foldl (fun w (symbol, i) =>
    w ||| (UInt32.ofNat symbol &&& UInt32.ofNat (2 ^ width - 1)) <<< UInt32.ofNat (width * i)) 0

/-- The symbol at place `i` of a word. -/
def readBits (w : Word) (i : Nat) : Nat := ((w >>> UInt32.ofNat (p.width * i)) &&& p.mask).toNat

theorem setBits_eq_word (symbols : List Nat) : setBits p.width symbols = p.word symbols := rfl

theorem toNat_readBits {i : Nat} (h : i < p.group) (w : Word) :
    p.readBits w i = w.toNat / p.base ^ i % p.base := by
  rw [readBits, UInt32.toNat_and, UInt32.toNat_shiftRight, p.toNat_place h, p.toNat_mask,
    Nat.and_two_pow_sub_one_eq_mod, Nat.shiftRight_eq_div_pow, base_pow, base_eq]

/-- The symbols of a word are read bit by bit. -/
theorem symbols_eq_readBits (w : Word) :
    p.symbols w = (List.range p.group).map (p.readBits w) := by
  rw [symbols, Digits.split_eq_map]
  refine List.map_congr_left fun i hi => ?_
  rw [p.toNat_readBits (List.mem_range.1 hi)]

/-! ## Packing a run -/

/-- The buffer `b'` is the buffer `b` with a run packed into it: `count` words in front hold the
symbols, `group` to a word, of which `width` bits each are kept, and the others are as they were. -/
structure Packs (p : Packing) (width group : Nat) (run : List Nat) (count : Nat) (b b' : Buffer) :
    Prop where
  /-- The buffer does not grow or shrink. -/
  length : b'.length = b.length
  /-- A word is the sum of its symbols, each at its place. -/
  sum : ∀ j < count, b'[j]?.map UInt32.toNat = some
    (∑ i ∈ Finset.range group, run.getD (group * j + i) 0 % 2 ^ width * 2 ^ (width * i))
  /-- A word has the bits of its symbols set and no others. -/
  bits : ∀ j < count, b'[j]? = some (setBits width ((run.drop (group * j)).take group))
  /-- Nothing is written behind the packed words. -/
  beyond : ∀ j, count ≤ j → b'[j]? = b[j]?
  /-- The symbols are read back in order. -/
  reads : ((b'.take count).flatMap fun w => (List.range group).map (p.readBits w))
    = run.map (· % 2 ^ width)

/-- The answers to packing runs of symbols of `width` bits, `group` to a word. -/
structure Exact (p : Packing) (width group : Nat) (run : List Nat) (b : Buffer) : Prop where
  /-- A run that does not fill whole words is turned down, whatever the room. -/
  uneven : ¬ group ∣ run.length →
    p.pack run b = .error (.rejected (.unevenRun p.name group run.length)) b
  /-- So is a run whose words do not fit. -/
  short : group ∣ run.length → b.length < run.length / group →
    p.pack run b = .error (.rejected (.capacity (run.length / group) b.length)) b
  /-- All other runs are packed. -/
  packs : group ∣ run.length → run.length / group ≤ b.length → ∃ b',
    p.pack run b = .ok (run.length / group) b' ∧ Packs p width group run (run.length / group) b b'

theorem overlay_packs {run : List Nat} {b : Buffer} (h : p.group ∣ run.length)
    (hroom : run.length / p.group ≤ b.length) :
    Packs p p.width p.group run (run.length / p.group) b
      (b.overlay (p.words (run.length / p.group) run)) := by
  have hrun : run.length = p.group * (run.length / p.group) := (Nat.mul_div_cancel' h).symm
  generalize run.length / p.group = count at *
  have hget : ∀ j < count, (b.overlay (p.words count run))[j]?
      = some (p.word ((run.drop (p.group * j)).take p.group)) := by
    intro j hj
    rw [Buffer.overlay, List.getElem?_append_left (by simpa), p.getElem?_words run hj]
  have hshort : ∀ j, ((run.drop (p.group * j)).take p.group).length ≤ p.group := fun j =>
    List.length_take_le ..
  constructor
  · exact Buffer.length_overlay (by simpa)
  · intro j hj
    rw [hget j hj, Option.map_some, p.toNat_word (hshort j)]
    congr 1
    refine Finset.sum_congr rfl fun i hi => ?_
    rw [base_pow, base_eq]
    simp [List.getD_eq_getElem?_getD, Finset.mem_range.1 hi]
  · intro j hj
    rw [hget j hj, p.setBits_eq_word]
  · intro j hj
    rw [Buffer.overlay, List.getElem?_append_right (by simpa), p.length_words,
      List.getElem?_drop, Nat.add_sub_cancel' hj]
  · have hsymbols : (fun w => (List.range p.group).map (p.readBits w)) = p.symbols :=
      funext fun w => (p.symbols_eq_readBits w).symm
    rw [hsymbols, Buffer.overlay, List.take_left' (p.length_words ..)]
    exact p.unpack_words hrun

theorem exact_pack (run : List Nat) (b : Buffer) : Exact p p.width p.group run b := by
  constructor
  · intro h
    rw [pack, if_pos (mt Nat.dvd_of_mod_eq_zero h)]
  · intro h hroom
    rw [pack, if_neg (not_not.2 (Nat.mod_eq_zero_of_dvd h)), if_pos hroom]
  · intro h hroom
    refine ⟨_, ?_, p.overlay_packs h hroom⟩
    rw [pack, if_neg (not_not.2 (Nat.mod_eq_zero_of_dvd h)), if_neg (Nat.not_lt.2 hroom)]

/-- **Packing is exact.**  Tags, queue positions and low-bit patterns of any size are packed into
any buffer with room for them, each cut down to its bits, and read back from there. -/
theorem pack_exact (run : List Nat) (b : Buffer) :
    Exact tags 2 16 run b ∧ Exact positions 4 8 run b ∧ Exact patterns 10 3 run b :=
  ⟨exact_pack tags run b, exact_pack positions run b, exact_pack patterns run b⟩

end Packing

end PageCodec
