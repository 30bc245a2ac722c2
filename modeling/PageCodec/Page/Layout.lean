import PageCodec.Packing.Basic

/-!
# The layout of a compressed page

A compressed page is a list of words in five areas:

* words 0 to 3, the header: an identifier that belongs to whoever stores the page, and then the
  ends of the last three areas;
* words 4 to 67, the tags, one for each word of the page;
* the full words, one for each miss;
* the queue positions, one for each exact or partial match, filled up to whole words;
* the low-bit patterns, one for each partial match, filled up to whole words.

Filling up to whole words is rounding a length up to a multiple (`Layout.roundUp`): a multiple
(`Layout.dvd_roundUp`) that is not below the length (`Layout.le_roundUp`), and the least of those
(`Layout.roundUp_le`).

The numbers are the constants of `wkdm::compression::format`.
-/

namespace PageCodec

namespace Layout

/-- Number of words in a page (`PAGE_SIZE_IN_WORDS`). -/
def pageWords : Nat := 1024

/-- Number of bytes in a page (`PAGE_SIZE_IN_BYTES`). -/
def pageBytes : Nat := pageWords * Word.byteCount

/-- Number of words in the header (`HEADER_SIZE_IN_WORDS`). -/
def headerWords : Nat := 4

/-- Where the tags start (`TAGS_AREA_OFFSET`). -/
def tagsStart : Nat := headerWords

/-- Number of words that the tags take (`TAGS_AREA_SIZE`). -/
def tagWords : Nat := pageWords / Packing.tags.group

/-- Where the full words start (`FULL_WORDS_OFFSET`). -/
def fullWordsStart : Nat := tagsStart + tagWords

/-- Room for every compressed page (`MAX_COMPRESSED_WORDS`): the areas at their longest, added up as
if they could all be at their longest in one page. -/
def maxWords : Nat :=
  fullWordsStart + pageWords + pageWords / Packing.positions.group
    + (pageWords + 2) / Packing.patterns.group

theorem pageWords_eq : pageWords = 1024 := rfl

theorem pageBytes_eq : pageBytes = 4096 := rfl

theorem tagWords_eq : tagWords = 64 := rfl

theorem fullWordsStart_eq : fullWordsStart = 68 := rfl

theorem maxWords_eq : maxWords = 1562 := rfl

/-! ## Whole groups -/

/-- The least multiple of `group` that is not below `n` (`padded_len`). -/
def roundUp (n group : Nat) : Nat := (n + group - 1) / group * group

/-- A run filled up with zeros to whole groups. -/
def pad (group : Nat) (run : List Nat) : List Nat :=
  run ++ List.replicate (roundUp run.length group - run.length) 0

/-- A run filled up with zeros to whole groups, if there is room for that. -/
def pad? (room group : Nat) (run : List Nat) : Option (List Nat) :=
  if roundUp run.length group ≤ room then some (pad group run) else none

theorem le_roundUp {group : Nat} (hg : 0 < group) (n : Nat) : n ≤ roundUp n group := by
  have h := Nat.div_add_mod (n + group - 1) group
  have hm := Nat.mod_lt (n + group - 1) hg
  rw [roundUp, Nat.mul_comm]
  omega

theorem dvd_roundUp (n group : Nat) : group ∣ roundUp n group :=
  Nat.dvd_mul_left ..

/-- No smaller multiple will do. -/
theorem roundUp_le {n group q : Nat} (hg : 0 < group) (hn : n ≤ q) (hq : group ∣ q) :
    roundUp n group ≤ q := by
  obtain ⟨k, rfl⟩ := hq
  have hlt : n + group - 1 < group * (k + 1) := by
    rw [Nat.mul_add]
    omega
  have hk : (n + group - 1) / group ≤ k :=
    Nat.le_of_lt_succ ((Nat.div_lt_iff_lt_mul hg).2 (by rwa [Nat.mul_comm]))
  calc roundUp n group = group * ((n + group - 1) / group) := Nat.mul_comm ..
    _ ≤ group * k := Nat.mul_le_mul_left _ hk

theorem roundUp_of_dvd {n group : Nat} (hg : 0 < group) (h : group ∣ n) : roundUp n group = n := by
  obtain ⟨k, rfl⟩ := h
  have hk : (group * k + group - 1) / group = k := by
    rw [show group * k + group - 1 = group - 1 + group * k by omega,
      Nat.add_mul_div_left _ _ hg, Nat.div_eq_of_lt (by omega), Nat.zero_add]
  rw [roundUp, hk, Nat.mul_comm]

theorem length_pad {group : Nat} (hg : 0 < group) (run : List Nat) :
    (pad group run).length = roundUp run.length group := by
  have h := le_roundUp hg run.length
  simp only [pad, List.length_append, List.length_replicate]
  omega

end Layout

end PageCodec
