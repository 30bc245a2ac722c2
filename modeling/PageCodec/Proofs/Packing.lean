import Mathlib.Algebra.BigOperators.Ring.Finset
import Mathlib.Algebra.Order.Floor.Div
import Mathlib.Data.List.GetD
import Mathlib.Tactic.Ring
import PageCodec.Page.Layout

/-!
# What packed words hold

A group of symbols is packed by setting the low bits of each symbol at its place in the word.  No
symbol reaches into the place of another, so the bits that are set amount to a sum: a packed word is
the number whose digits are its symbols, each cut down to the base, and a run of symbols can be read
off its words again.

* `Digits.join` — the number with given digits; splitting it gives them back (`Digits.split_join`).
* `Packing.toNat_foldl_shifted` — setting the bits of symbols adds them up.
* `Packing.toNat_word` — a word as the sum of its symbols at their places.
* `Packing.unpack_words` — the words of a run hold the symbols of the run, cut down to the base.
* `Packing.fill` — the words of a run filled up with zeros, and what stands in them:
  `Packing.toNat_getElem?_fill` place by place, `Packing.unpack_fill_map` as a whole.
* `Packing.pack_pad` — packing a filled run writes those words and completes.
* `Packing.fill_map_eq` — words that read as a run and zeros are the words of the run.
-/

namespace PageCodec

namespace Digits

/-- The number with the given digits, each of them cut down to the base. -/
def join (base : Nat) : List Nat → Nat
  | [] => 0
  | d :: ds => d % base + base * join base ds

/-- Splitting a joined number gives its digits, cut down to the base. -/
theorem split_join {base : Nat} (hb : 0 < base) (ds : List Nat) :
    split base ds.length (join base ds) = ds.map (· % base) := by
  induction ds with
  | nil => rfl
  | cons d ds ih =>
    have hd : d % base < base := Nat.mod_lt _ hb
    rw [List.length_cons, split, join, List.map_cons, Nat.add_mul_mod_self_left,
      Nat.mod_eq_of_lt hd, Nat.add_mul_div_left _ _ hb, Nat.div_eq_of_lt hd, Nat.zero_add, ih]

theorem join_lt {base : Nat} (hb : 0 < base) (ds : List Nat) :
    join base ds < base ^ ds.length := by
  induction ds with
  | nil => simp [join]
  | cons d ds ih =>
    have hd : d % base < base := Nat.mod_lt _ hb
    calc join base (d :: ds) < base + base * join base ds := by rw [join]; omega
      _ = base * (join base ds + 1) := by ring
      _ ≤ base * base ^ ds.length := Nat.mul_le_mul_left _ ih
      _ = base ^ (d :: ds).length := by rw [List.length_cons, pow_succ, Nat.mul_comm]

/-- A joined number is the sum of its digits at their places, where digits that are not there
count as zero. -/
theorem join_eq_sum (base : Nat) {ds : List Nat} {n : Nat} (h : ds.length ≤ n) :
    join base ds = ∑ i ∈ Finset.range n, ds.getD i 0 % base * base ^ i := by
  induction ds generalizing n with
  | nil => simp [join]
  | cons d ds ih =>
    obtain ⟨m, rfl⟩ : ∃ m, n = m + 1 := ⟨n - 1, by simp only [List.length_cons] at h; omega⟩
    rw [Finset.sum_range_succ', join, ih (Nat.le_of_succ_le_succ h), Finset.mul_sum, Nat.add_comm]
    congr 1
    · refine Finset.sum_congr rfl fun i _ => ?_
      rw [List.getD_cons_succ, pow_succ]
      ring
    · simp

/-- Joining the digits of a number gives the number, if there are enough of them. -/
theorem join_split {base : Nat} (hb : 0 < base) {n x : Nat} (h : x < base ^ n) :
    join base (split base n x) = x := by
  induction n generalizing x with
  | zero =>
    rw [pow_zero, Nat.lt_one_iff] at h
    rw [h, split, join]
  | succ n ih =>
    have hdiv : x / base < base ^ n := by
      rw [Nat.div_lt_iff_lt_mul hb, ← pow_succ]
      exact h
    rw [split, join, ih hdiv, Nat.mod_mod, Nat.mod_add_div]

end Digits

namespace Packing

variable (p : Packing)

theorem base_pos : 0 < p.base := Nat.pow_pos (by decide)

/-! ## Places in a word -/

theorem base_eq : p.base = 2 ^ p.width := rfl

theorem base_pow (i : Nat) : p.base ^ i = 2 ^ (p.width * i) := (pow_mul 2 p.width i).symm

/-- The places of a group lie within the bits of a word. -/
theorem width_mul_le {i : Nat} (h : i ≤ p.group) : p.width * i ≤ 32 :=
  (Nat.mul_le_mul_left _ h).trans p.fits

theorem width_le : p.width ≤ 32 := by simpa using p.width_mul_le p.group_pos

theorem base_dvd : p.base ∣ 2 ^ 32 := pow_dvd_pow 2 p.width_le

/-- A shift to a place of a group goes no further than a word. -/
theorem toNat_place {i : Nat} (h : i < p.group) :
    (UInt32.ofNat (p.width * i)).toNat % 32 = p.width * i := by
  have hend : p.width * i + p.width ≤ 32 := p.width_mul_le (Nat.succ_le_of_lt h)
  rw [UInt32.toNat_ofNat', Nat.mod_mod_of_dvd _ (by decide)]
  rcases Nat.eq_zero_or_pos p.width with hw | hw
  · rw [hw, Nat.zero_mul]
  · exact Nat.mod_eq_of_lt (by omega)

theorem base_pow_group_le : p.base ^ p.group ≤ 2 ^ 32 := by
  have h : p.base ^ p.group = 2 ^ (p.width * p.group) := (pow_mul 2 p.width p.group).symm
  rw [h]
  exact Nat.pow_le_pow_right (by decide) p.fits

/-! ## One word -/

theorem toNat_mask : p.mask.toNat = 2 ^ p.width - 1 := by
  have hle : p.base ≤ 2 ^ 32 := Nat.le_of_dvd (by decide) p.base_dvd
  have hpos := p.base_pos
  rw [mask, UInt32.toNat_ofNat']
  exact Nat.mod_eq_of_lt (by omega)

theorem toNat_shifted {i : Nat} (h : i < p.group) (symbol : Nat) :
    (p.shifted i symbol).toNat = symbol % p.base * p.base ^ i := by
  have hlow : (UInt32.ofNat symbol &&& p.mask).toNat = symbol % p.base := by
    rw [UInt32.toNat_and, p.toNat_mask, Nat.and_two_pow_sub_one_eq_mod, UInt32.toNat_ofNat',
      ← base_eq, Nat.mod_mod_of_dvd _ p.base_dvd]
  have hfits : symbol % p.base * p.base ^ i < 2 ^ 32 := by
    calc symbol % p.base * p.base ^ i < p.base * p.base ^ i :=
          Nat.mul_lt_mul_of_pos_right (Nat.mod_lt _ p.base_pos) (Nat.pow_pos p.base_pos)
      _ = p.base ^ (i + 1) := by rw [pow_succ, Nat.mul_comm]
      _ ≤ p.base ^ p.group := Nat.pow_le_pow_right p.base_pos h
      _ ≤ 2 ^ 32 := p.base_pow_group_le
  rw [shifted, UInt32.toNat_shiftLeft, p.toNat_place h, hlow, Nat.shiftLeft_eq, ← base_pow,
    Nat.mod_eq_of_lt hfits]

/-- Setting the bits of symbols from place `k` on in a word that ends before that place adds the
symbols to it.  The induction is on the symbols, and with each of them the word grows by a place. -/
theorem toNat_foldl_shifted {symbols : List Nat} {k : Nat} {w : Word}
    (h : k + symbols.length ≤ p.group) (hw : w.toNat < p.base ^ k) :
    ((symbols.zipIdx k).foldl (fun w (symbol, i) => w ||| p.shifted i symbol) w).toNat
      = w.toNat + p.base ^ k * Digits.join p.base symbols := by
  induction symbols generalizing k w with
  | nil => simp [Digits.join]
  | cons symbol symbols ih =>
    rw [List.length_cons] at h
    have hk : k < p.group := by omega
    have hset : (w ||| p.shifted k symbol).toNat = w.toNat + symbol % p.base * p.base ^ k := by
      rw [UInt32.toNat_or, p.toNat_shifted hk]
      rw [base_pow] at hw ⊢
      rw [Nat.or_comm, ← Nat.shiftLeft_eq, ← Nat.shiftLeft_add_eq_or_of_lt hw, Nat.add_comm]
    have hnext : (w ||| p.shifted k symbol).toNat < p.base ^ (k + 1) := by
      have hsymbol : symbol % p.base + 1 ≤ p.base := Nat.mod_lt _ p.base_pos
      calc (w ||| p.shifted k symbol).toNat < p.base ^ k + symbol % p.base * p.base ^ k := by
            rw [hset]; omega
        _ = (symbol % p.base + 1) * p.base ^ k := by ring
        _ ≤ p.base * p.base ^ k := Nat.mul_le_mul_right _ hsymbol
        _ = p.base ^ (k + 1) := by rw [pow_succ, Nat.mul_comm]
    rw [List.zipIdx_cons, List.foldl_cons, ih (by omega) hnext, hset, Digits.join, pow_succ]
    ring

/-- A word is the number whose digits are its symbols. -/
theorem toNat_word_eq_join {symbols : List Nat} (h : symbols.length ≤ p.group) :
    (p.word symbols).toNat = Digits.join p.base symbols := by
  have hsum := p.toNat_foldl_shifted (k := 0) (w := 0) (by rwa [Nat.zero_add]) (by simp)
  rw [word, hsum]
  simp

/-- A word is the sum of its symbols at their places. -/
theorem toNat_word {symbols : List Nat} (h : symbols.length ≤ p.group) :
    (p.word symbols).toNat
      = ∑ i ∈ Finset.range p.group, symbols.getD i 0 % p.base * p.base ^ i := by
  rw [p.toNat_word_eq_join h, Digits.join_eq_sum p.base h]

theorem symbols_word {symbols : List Nat} (h : symbols.length = p.group) :
    p.symbols (p.word symbols) = symbols.map (· % p.base) := by
  rw [Packing.symbols, p.toNat_word_eq_join (Nat.le_of_eq h), ← h, Digits.split_join p.base_pos]

/-! ## The words of a run -/

theorem getElem?_words {n k : Nat} (run : List Nat) (hk : k < n) :
    (p.words n run)[k]? = some (p.word ((run.drop (p.group * k)).take p.group)) := by
  induction n generalizing k run with
  | zero => omega
  | succ n ih =>
    cases k with
    | zero => simp [words]
    | succ k =>
      rw [words, List.getElem?_cons_succ, ih _ (by omega), List.drop_drop, Nat.mul_succ,
        Nat.add_comm p.group]

/-- The words of a run hold the symbols of the run, cut down to the base. -/
theorem unpack_words {n : Nat} {run : List Nat} (h : run.length = p.group * n) :
    p.unpack (p.words n run) = run.map (· % p.base) := by
  induction n generalizing run with
  | zero =>
    have hrun : run = [] := List.length_eq_zero_iff.1 (by omega)
    subst hrun
    rfl
  | succ n ih =>
    rw [Nat.mul_succ] at h
    have hhead : (run.take p.group).length = p.group := by rw [List.length_take]; omega
    have htail : (run.drop p.group).length = p.group * n := by rw [List.length_drop]; omega
    have hunpack : p.unpack (p.words (n + 1) run)
        = p.symbols (p.word (run.take p.group)) ++ p.unpack (p.words n (run.drop p.group)) := rfl
    rw [hunpack, p.symbols_word hhead, ih htail, ← List.map_append, List.take_append_drop]

/-! ## Runs filled up to whole words -/

/-- The words of a run of symbols that is filled up with zeros to whole words. -/
def fill (run : List Nat) : List Word :=
  p.words (run.length ⌈/⌉ p.group) (Layout.pad p.group run)

@[simp]
theorem length_fill (run : List Nat) : (p.fill run).length = run.length ⌈/⌉ p.group :=
  p.length_words _ _

theorem length_pad_eq (run : List Nat) :
    (Layout.pad p.group run).length = p.group * (run.length ⌈/⌉ p.group) := by
  rw [Layout.length_pad p.group_pos, Layout.roundUp, Nat.ceilDiv_eq_add_pred_div, Nat.mul_comm]

/-- A run of whole groups needs no filling. -/
theorem pad_of_dvd {group : Nat} (hg : 0 < group) {run : List Nat} (h : group ∣ run.length) :
    Layout.pad group run = run := by
  rw [Layout.pad, Layout.roundUp_of_dvd hg h, Nat.sub_self, List.replicate_zero, List.append_nil]

/-- Filling up adds symbols that a reader would take for zero anyway. -/
theorem getD_pad (group : Nat) (run : List Nat) (i : Nat) :
    (Layout.pad group run).getD i 0 = run.getD i 0 := by
  rw [Layout.pad]
  by_cases hi : i < run.length
  · rw [List.getD_append _ _ _ _ hi]
  · rw [List.getD_append_right _ _ _ _ (Nat.not_lt.1 hi),
      List.getD_eq_default _ _ (Nat.not_lt.1 hi), List.getD_eq_getElem?_getD,
      List.getElem?_getD_replicate_default_eq]

/-- What stands in the words of a filled run, place by place. -/
theorem toNat_getElem?_fill {run : List Nat} {k : Nat} (hk : k < run.length ⌈/⌉ p.group) :
    (p.fill run)[k]?.map UInt32.toNat
      = some (∑ i ∈ Finset.range p.group, run.getD (p.group * k + i) 0 % p.base * p.base ^ i) := by
  rw [fill, p.getElem?_words _ hk, Option.map_some, p.toNat_word (by simp)]
  congr 1
  refine Finset.sum_congr rfl fun i hi => ?_
  have hget : (((Layout.pad p.group run).drop (p.group * k)).take p.group).getD i 0
      = (Layout.pad p.group run).getD (p.group * k + i) 0 := by
    simp [List.getD_eq_getElem?_getD, Finset.mem_range.1 hi]
  rw [hget, getD_pad]

/-- The words of a filled run hold the run, cut down to the base, and then zeros. -/
theorem unpack_fill (run : List Nat) :
    p.unpack (p.fill run) = run.map (· % p.base)
      ++ List.replicate (p.group * (run.length ⌈/⌉ p.group) - run.length) 0 := by
  rw [fill, p.unpack_words (p.length_pad_eq run), Layout.pad, List.map_append, List.map_replicate,
    Nat.zero_mod, Layout.roundUp, Nat.ceilDiv_eq_add_pred_div, Nat.mul_comm]

/-- Symbols of any kind are read back from the words of their numbers, if none is cut down. -/
theorem unpack_fill_map {α : Type} {number : α → Nat} {ofNumber : Nat → α} {run : List α}
    (h : ∀ a ∈ run, ofNumber (number a % p.base) = a) :
    (p.unpack (p.fill (run.map number))).map ofNumber
      = run ++ List.replicate (p.group * (run.length ⌈/⌉ p.group) - run.length) (ofNumber 0) := by
  rw [unpack_fill, List.length_map, List.map_append, List.map_map, List.map_map,
    List.map_replicate]
  congr 1
  exact (List.map_congr_left h).trans (List.map_id _)

/-- Packing a filled run completes wherever its words fit. -/
theorem pack_pad {run : List Nat} {b : Buffer} (h : run.length ⌈/⌉ p.group ≤ b.length) :
    p.pack (Layout.pad p.group run) b
      = .ok (run.length ⌈/⌉ p.group) (b.overlay (p.fill run)) := by
  have hdiv : (Layout.pad p.group run).length / p.group = run.length ⌈/⌉ p.group := by
    rw [p.length_pad_eq, Nat.mul_div_cancel_left _ p.group_pos]
  have hmod : (Layout.pad p.group run).length % p.group = 0 := by
    rw [p.length_pad_eq, Nat.mul_mod_right]
  simp only [pack, hdiv, hmod, ne_eq, not_true_eq_false, if_false, if_neg (Nat.not_lt.2 h)]
  rfl

/-! ## Words packed again -/

theorem length_symbols (w : Word) : (p.symbols w).length = p.group := Digits.length_split ..

theorem length_unpack (words : List Word) : (p.unpack words).length = p.group * words.length := by
  induction words with
  | nil => rfl
  | cons w words ih =>
    have hcons : p.unpack (w :: words) = p.symbols w ++ p.unpack words := rfl
    rw [hcons, List.length_append, p.length_symbols, ih, List.length_cons, Nat.mul_succ,
      Nat.add_comm]

theorem lt_of_mem_unpack {words : List Word} {n : Nat} (h : n ∈ p.unpack words) : n < p.base := by
  obtain ⟨w, -, hw⟩ := List.mem_flatMap.1 h
  exact Digits.lt_of_mem_split p.base_pos hw

/-- A word whose bits all belong to symbols is the word of its symbols. -/
theorem word_symbols {w : Word} (h : w.toNat < p.base ^ p.group) : p.word (p.symbols w) = w := by
  rw [← UInt32.toNat_inj, p.toNat_word_eq_join (Nat.le_of_eq (p.length_symbols w)), symbols,
    Digits.join_split p.base_pos h]

theorem words_unpack {words : List Word} (h : ∀ w ∈ words, w.toNat < p.base ^ p.group) :
    p.words words.length (p.unpack words) = words := by
  induction words with
  | nil => rfl
  | cons w words ih =>
    have hcons : p.unpack (w :: words) = p.symbols w ++ p.unpack words := rfl
    rw [hcons, List.length_cons, Packing.words, List.take_left' (p.length_symbols w),
      List.drop_left' (p.length_symbols w), p.word_symbols (h w List.mem_cons_self),
      ih fun v hv => h v (List.mem_cons_of_mem w hv)]

/-- No bit of a packed word is set that belongs to no symbol. -/
theorem toNat_lt_of_mem_words {n : Nat} {run : List Nat} {w : Word} (h : w ∈ p.words n run) :
    w.toNat < p.base ^ p.group := by
  induction n generalizing run with
  | zero => cases h
  | succ n ih =>
    rcases List.mem_cons.1 h with rfl | h
    · have hlen : (run.take p.group).length ≤ p.group := List.length_take_le ..
      rw [p.toNat_word_eq_join hlen]
      exact (Digits.join_lt p.base_pos _).trans_le (Nat.pow_le_pow_right p.base_pos hlen)
    · exact ih h

/-- Words are those of a filled run if they read as the run and zeros, they are not too many, and no
bit is set in them that belongs to no symbol. -/
theorem fill_map_eq {α : Type} {number : α → Nat} {ofNumber : Nat → α} {run rest : List α}
    {words : List Word} (hnumber : ∀ n < p.base, number (ofNumber n) = n)
    (hlen : words.length = run.length ⌈/⌉ p.group)
    (hbits : ∀ w ∈ words, w.toNat < p.base ^ p.group)
    (hread : (p.unpack words).map ofNumber = run ++ rest) (hrest : ∀ a ∈ rest, number a = 0) :
    p.fill (run.map number) = words := by
  have hunpack : p.unpack words = run.map number ++ rest.map number := by
    rw [← List.map_append, ← hread, List.map_map]
    exact ((List.map_congr_left fun n hn => hnumber n (p.lt_of_mem_unpack hn)).trans
      (List.map_id _)).symm
  have hzeros : rest.map number = List.replicate rest.length 0 := by
    rw [List.eq_replicate_iff]
    refine ⟨List.length_map _, fun n hn => ?_⟩
    obtain ⟨a, ha, rfl⟩ := List.mem_map.1 hn
    exact hrest a ha
  have hpad : Layout.pad p.group (run.map number) = p.unpack words := by
    have hall := p.length_unpack words
    rw [hunpack, hlen, List.length_append, List.length_map, List.length_map] at hall
    have hcount : Layout.roundUp run.length p.group - run.length = rest.length := by
      rw [Layout.roundUp, ← Nat.ceilDiv_eq_add_pred_div, Nat.mul_comm]
      omega
    rw [Layout.pad, List.length_map, hcount, hunpack, hzeros]
  rw [fill, hpad, List.length_map, ← hlen, p.words_unpack hbits]

end Packing

end PageCodec
