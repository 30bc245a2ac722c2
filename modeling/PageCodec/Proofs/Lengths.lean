import PageCodec.Proofs.History
import PageCodec.Proofs.Image

/-!
# How long a compressed page can be

The length of a compressed page follows from its tally.  A miss costs a whole word, which is more
than a match costs, but slots and patterns fill up whole words of their own: one partial match among
misses opens a word for its slot and another for its pattern and saves only one.  So the longest
pages are not those without a match.

* `Tally.compressedLength` — the length as a function of the tally, with its bounds and the tallies
  that reach them.
* `Dictionary.tags_trace_of_new_highs` — words whose high parts have not been seen are missed.
* `Encoder.Bounded` — the bounds on what compressing a page answers, and pages that reach them.
* `Encoder.length_bounds` — every page lies within them.
-/

namespace PageCodec

/-! ## Lengths from tallies -/

namespace Tally

/-- Length in words of a compressed page with this tally. -/
def compressedLength (c : Tally) : Nat :=
  Layout.fullWordsStart + c.miss + c.positions ⌈/⌉ Packing.positions.group
    + c.partialMatch ⌈/⌉ Packing.patterns.group

theorem compressedLength_eq (c : Tally) : c.compressedLength
    = 68 + c.miss + (c.exactMatch + c.partialMatch + 7) / 8 + (c.partialMatch + 2) / 3 := by
  simp only [compressedLength, positions, Nat.ceilDiv_eq_add_pred_div, Layout.fullWordsStart_eq,
    Packing.positions, Packing.patterns]
  omega

theorem le_compressedLength (c : Tally) : 68 ≤ c.compressedLength := by
  rw [compressedLength_eq]
  omega

variable {c : Tally} (h : c.total = 1024)

include h

/-- Eight matches share a word and three partial matches share another, so a match never costs more
than the miss in its place, but for the first that opens both words. -/
theorem compressedLength_le : c.compressedLength ≤ 1093 := by
  rw [compressedLength_eq]
  rw [total] at h
  omega

theorem compressedLength_eq_least_iff : c.compressedLength = 68 ↔ c.zero = 1024 := by
  rw [compressedLength_eq]
  rw [total] at h
  omega

theorem compressedLength_eq_greatest_iff :
    c.compressedLength = 1093 ↔ c.partialMatch = 1 ∧ c.miss = 1023 := by
  rw [compressedLength_eq]
  rw [total] at h
  omega

end Tally

theorem Tally.count_replicate_miss (n : Nat) : count (List.replicate n .miss) = ⟨0, 0, 0, n⟩ := by
  simp [count, List.count_replicate]

theorem Trace.length_encoded_eq (t : Trace) :
    t.encoded.length = t.encoded.tally.compressedLength := by
  rw [length_encoded, length_missed, length_positionArea, length_patternArea, length_positions,
    length_patterns]
  rfl

/-! ## Pages that reach the bounds -/

namespace Dictionary

/-- Words are missed if none of them has the high part of a remembered word or of another one. -/
theorem tags_trace_of_new_highs {d : Dictionary} {ws : List Word}
    (hd : ∀ s, (d.get s).high ∉ ws.map Word.high) (hws : (ws.map Word.high).Nodup)
    (h0 : ∀ w ∈ ws, w ≠ 0) : (d.trace ws).tags = List.replicate ws.length .miss := by
  induction ws generalizing d with
  | nil => rfl
  | cons w ws ih =>
    rw [List.map_cons, List.nodup_cons] at hws
    have hhigh : w.high ≠ (d.get w.slot).high := by
      intro h
      exact hd w.slot (h ▸ List.mem_cons_self)
    have hne : w ≠ d.get w.slot := fun h => hhigh (congrArg Word.high h)
    have htag : d.tag w = .miss := by
      rw [tag, Tag.classify, if_neg hne, if_neg (h0 w List.mem_cons_self), if_neg hhigh]
    have hrest : ∀ s, ((d.see w).get s).high ∉ ws.map Word.high := by
      intro s
      rw [get_see]
      split
      · exact hws.1
      · exact fun hs => hd s (List.mem_cons_of_mem _ hs)
    have htags := ih hrest hws.2 (fun v hv => h0 v (List.mem_cons_of_mem _ hv))
    rw [List.length_cons, List.replicate_succ, ← htags, ← htag]
    rfl

end Dictionary

namespace Encoder

/-- Words with the high parts 1, 2 and so on. -/
def climb (n : Nat) : List Word := (List.range n).map fun i => UInt32.ofNat (1024 * (i + 1))

theorem length_climb (n : Nat) : (climb n).length = n := by
  simp [climb]

theorem map_high_climb {n : Nat} (h : n ≤ 1024) :
    (climb n).map Word.high = (List.range n).map (· + 1) := by
  rw [climb, List.map_map]
  apply List.map_congr_left
  intro i hi
  rw [List.mem_range] at hi
  simp only [Function.comp, Word.high_eq, UInt32.toNat_ofNat']
  omega

/-- A dictionary that holds no high part but zero foresees none of these words. -/
theorem tags_trace_climb {d : Dictionary} {n : Nat} (h : n ≤ 1024)
    (hd : ∀ s, (d.get s).high = 0) : (d.trace (climb n)).tags = List.replicate n .miss := by
  have hmem : 0 ∉ (climb n).map Word.high := by
    rw [map_high_climb h]
    simp
  have hnodup : ((climb n).map Word.high).Nodup := by
    rw [map_high_climb h]
    exact List.nodup_range.map (Nat.succ_injective)
  have hne : ∀ w ∈ climb n, w ≠ 0 := by
    rintro w hw rfl
    exact hmem (List.mem_map_of_mem hw)
  have htags := Dictionary.tags_trace_of_new_highs (fun s => by rwa [hd s]) hnodup hne
  rwa [length_climb] at htags

/-- The page without a match is missed from end to end. -/
theorem tags_trace_missed : (trace (climb 1024)).tags = List.replicate 1024 .miss :=
  tags_trace_climb (Nat.le_refl _) (fun s => by rw [Dictionary.get_new]; rfl)

/-- A small word in front is a partial match with the word of a new dictionary, and all others are
missed still. -/
theorem tags_trace_longest :
    (trace (2 :: climb 1023)).tags = .partialMatch :: List.replicate 1023 .miss := by
  have htag : Dictionary.new.tag 2 = .partialMatch := by
    rw [Dictionary.tag, Dictionary.get_new]
    rfl
  have hsee : ∀ s, ((Dictionary.new.see 2).get s).high = 0 := by
    intro s
    rw [Dictionary.get_see, Dictionary.get_new]
    split <;> rfl
  have hrest := tags_trace_climb (by decide : 1023 ≤ 1024) hsee
  rw [← hrest, ← htag]
  rfl

/-! ## The lengths of calls -/

variable {page : List Word} {b : Buffer}

/-- All tags of a page are those of zero words only if all its words are zero. -/
theorem count_zero_eq_iff (hp : page.length = 1024) :
    (trace page).encoded.tally.zero = 1024 ↔ ∀ w ∈ page, w = 0 := by
  have hlen : (trace page).tags.length = 1024 := by
    rw [Trace.length_tags]
    exact length_trace hp
  have hzero : ∀ a ∈ trace page, a.1 = .zero ↔ a.2 = 0 :=
    fun a ha => Dictionary.Remembers.new.tag_eq_zero_iff ha
  have hwords : (trace page).map Prod.snd = page := Dictionary.map_snd_trace _ _
  show (trace page).tags.count .zero = 1024 ↔ _
  rw [← hlen, List.count_eq_length]
  constructor
  · intro h w hw
    rw [← hwords] at hw
    obtain ⟨a, ha, rfl⟩ := List.mem_map.1 hw
    exact (hzero a ha).1 (h a.1 (List.mem_map_of_mem ha)).symm
  · intro h tag htag
    obtain ⟨a, ha, rfl⟩ := List.mem_map.1 htag
    have hmem : a.2 ∈ page := hwords ▸ List.mem_map_of_mem ha
    exact ((hzero a ha).2 (h a.2 hmem)).symm

/-- A call with room answers with what the tags of its page say. -/
theorem encode_of_tags {tags : List Tag} (htags : (trace page).tags = tags)
    (hlen : tags.length = 1024) (hb : Layout.maxWords ≤ b.length) :
    page.length = Layout.pageWords ∧ ∃ e b', encode page b = .ok e b' ∧ e.tally = .count tags
      ∧ e.length = (Tally.count tags).compressedLength := by
  have hp : page.length = Layout.pageWords := by
    rw [Layout.pageWords_eq, ← hlen, ← htags, Trace.length_tags, trace, Dictionary.length_trace]
  obtain ⟨algorithm, rest, rfl⟩ := exists_cons hb
  refine ⟨hp, _, _, encode_eq hp hb, ?_, ?_⟩
  · rw [← htags]
    rfl
  · rw [Trace.length_encoded_eq, ← htags]
    rfl

/-- What the lengths of compressed pages lie between, for one page and as a whole. -/
structure Bounded (page : List Word) (b : Buffer) : Prop where
  /-- The page takes 68 words at least, and this if it is full of zeros and not otherwise.  It takes
  1093 words at most, and this if one of its words is a partial match and all others are missed and
  not otherwise. -/
  between : ∃ e b', encode page b = .ok e b' ∧ encodeLength page b = .ok e.length b'
    ∧ 68 ≤ e.length ∧ e.length ≤ 1093
    ∧ (e.length = 68 ↔ ∀ w ∈ page, w = 0)
    ∧ (e.length = 1093 ↔ e.tally.partialMatch = 1 ∧ e.tally.miss = 1023)
  /-- There is a page as long as that. -/
  longest : ∃ longest e b', longest.length = Layout.pageWords ∧ encode longest b = .ok e b'
    ∧ e.tally.partialMatch = 1 ∧ e.tally.miss = 1023 ∧ e.length = 1093
  /-- A page that is missed from end to end is shorter by a word. -/
  missed : ∃ missed e b', missed.length = Layout.pageWords ∧ encode missed b = .ok e b'
    ∧ e.tally.miss = 1024 ∧ e.length = 1092

/-- **Bounds on lengths.**  Every page takes 68 words at least and 1093 at most, and there are pages
that do, but the longest is not one without a match. -/
theorem length_bounds (page : List Word) (b : Buffer) (hp : page.length = Layout.pageWords)
    (hb : Layout.maxWords ≤ b.length) : Bounded page b := by
  refine ⟨?_, ?_, ?_⟩
  · obtain ⟨algorithm, rest, rfl⟩ := exists_cons hb
    have htotal : (trace page).encoded.tally.total = 1024 := by
      show (Tally.count (trace page).tags).total = 1024
      rw [Tally.total_count, Trace.length_tags]
      exact length_trace hp
    have hcall := encode_eq hp hb
    refine ⟨_, _, hcall, encodeLength_eq hcall, ?_⟩
    rw [Trace.length_encoded_eq]
    refine ⟨Tally.le_compressedLength _, Tally.compressedLength_le htotal, ?_, ?_⟩
    · rw [Tally.compressedLength_eq_least_iff htotal, count_zero_eq_iff hp]
    · exact Tally.compressedLength_eq_greatest_iff htotal
  · obtain ⟨hlen, e, b', hcall, htally, hlength⟩ := encode_of_tags tags_trace_longest
      (by rw [List.length_cons, List.length_replicate]) hb
    rw [Tally.count_cons, Tally.count_replicate_miss] at htally hlength
    exact ⟨_, e, b', hlen, hcall, by rw [htally]; rfl, by rw [htally]; rfl, hlength⟩
  · obtain ⟨hlen, e, b', hcall, htally, hlength⟩ := encode_of_tags tags_trace_missed
      List.length_replicate hb
    rw [Tally.count_replicate_miss] at htally hlength
    exact ⟨_, e, b', hlen, hcall, by rw [htally], hlength⟩

/-- The words below 1024, of which all but the first match the dictionary somehow. -/
theorem length_bounds_range :
    Bounded ((List.range 1024).map UInt32.ofNat) (List.replicate 1562 0) :=
  length_bounds _ _ (by rw [List.length_map, List.length_range, Layout.pageWords_eq])
    (by rw [List.length_replicate, Layout.maxWords_eq])

end Encoder

end PageCodec
