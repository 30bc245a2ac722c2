import PageCodec.Proofs.RoundTrip

/-!
# Where everything stands

A compressed page has no place that two phases write to.  Word for word its areas hold what the
scan of the page has found, none of it is cut down, and the ends in the header are those that the
tally of the page asks for.

* `Packing.HoldsRun` — words that hold a run of symbols, place by place.
* `Encoded.Describes` — where everything that a scan finds stands in a buffer.
* `Encoder.Described` — a page that stands where it is said to, with a header that its tags alone
  settle.
* `Encoder.encode_describes` — every page that is compressed is one.
-/

namespace PageCodec

/-! ## Words of an area -/

theorem Buffer.getElem?_of_area {b : Buffer} {start stop k : Nat} {words : List Word}
    (h : b.area start stop = words) (hk : k < words.length) : b[start + k]? = words[k]? := by
  subst h
  rw [Buffer.area, List.length_drop, List.length_take] at hk
  rw [Buffer.area, List.getElem?_drop, List.getElem?_take, if_pos (by omega)]

namespace Packing

variable (p : Packing)

/-- The words from `start` on hold a run of symbols: each word is the sum of its symbols at their
places, and behind the end of the run a symbol counts as zero. -/
def HoldsRun (b : Buffer) (start : Nat) (run : List Nat) : Prop :=
  ∀ k < run.length ⌈/⌉ p.group, b[start + k]?.map UInt32.toNat
    = some (∑ i ∈ Finset.range p.group, run.getD (p.group * k + i) 0 * p.base ^ i)

/-- The words of a filled run hold the run, if none of its symbols is too large. -/
theorem holdsRun_of_area {b : Buffer} {start stop : Nat} {run : List Nat}
    (h : b.area start stop = p.fill run) (hrun : ∀ n ∈ run, n < p.base) :
    p.HoldsRun b start run := by
  intro k hk
  have hsymbol : ∀ i, run.getD i 0 % p.base = run.getD i 0 := by
    intro i
    refine Nat.mod_eq_of_lt ?_
    by_cases hi : i < run.length
    · rw [List.getD_eq_getElem _ _ hi]
      exact hrun _ (List.getElem_mem hi)
    · rw [List.getD_eq_default _ _ (Nat.not_lt.1 hi)]
      exact p.base_pos
  rw [Buffer.getElem?_of_area h (by rwa [length_fill]), p.toNat_getElem?_fill hk]
  simp only [hsymbol]

end Packing

/-! ## The description of a compressed page -/

/-- Where everything that a scan finds stands in a buffer that holds the compressed page. -/
structure Encoded.Describes (e : Encoded) (b : Buffer) (s : Streams) (missed : List Word) :
    Prop where
  /-- Every word of the page is counted. -/
  total : e.tally.total = Layout.pageWords
  /-- There is a tag for each word. -/
  length_tags : s.tagCodes.length = e.tally.total
  /-- There is a slot for each exact or partial match. -/
  length_positions : s.positionNumbers.length = e.tally.exactMatch + e.tally.partialMatch
  /-- There is a pattern for each partial match. -/
  length_patterns : s.patternNumbers.length = e.tally.partialMatch
  /-- There is a full word for each miss. -/
  length_missed : missed.length = e.tally.miss
  /-- No tag is cut down. -/
  tag_lt : ∀ n ∈ s.tagCodes, n < Packing.tags.base
  /-- No slot is cut down. -/
  position_lt : ∀ n ∈ s.positionNumbers, n < Packing.positions.base
  /-- No pattern is cut down. -/
  pattern_lt : ∀ n ∈ s.patternNumbers, n < Packing.patterns.base
  /-- The full words end one place for each miss behind their start. -/
  fullWordsEnd : e.fullWordsEnd = Layout.fullWordsStart + missed.length
  /-- The slots end behind the full words. -/
  positionsEnd : e.positionsEnd
    = e.fullWordsEnd + s.positionNumbers.length ⌈/⌉ Packing.positions.group
  /-- The patterns end behind the slots, and with them the page. -/
  length : e.length = e.positionsEnd + s.patternNumbers.length ⌈/⌉ Packing.patterns.group
  /-- The ends stand in the header. -/
  ends : b[1]?.map UInt32.toNat = some e.fullWordsEnd ∧ b[2]?.map UInt32.toNat = some e.positionsEnd
    ∧ b[3]?.map UInt32.toNat = some e.length
  /-- The tags stand behind the header. -/
  tags : Packing.tags.HoldsRun b Layout.tagsStart s.tagCodes
  /-- The full words stand behind the tags. -/
  fullWords : ∀ k < missed.length, b[Layout.fullWordsStart + k]? = missed[k]?
  /-- The slots stand behind the full words. -/
  positions : Packing.positions.HoldsRun b e.fullWordsEnd s.positionNumbers
  /-- The patterns stand behind the slots. -/
  patterns : Packing.patterns.HoldsRun b e.positionsEnd s.patternNumbers
  /-- The header is well formed and says how long the page is and how many full words it has. -/
  header : ∃ h, Header.read b = .ok h ∧ h.WellFormed ∧ h.compressedLength = e.length
    ∧ h.fullWordCount = e.tally.miss

namespace Trace

variable {t : Trace}

theorem total_tally (h : t.length = Layout.pageWords) :
    t.encoded.tally.total = Layout.pageWords := by
  rw [encoded, Tally.total_count, length_tags, h]

theorem code_lt_base : ∀ n ∈ t.streams.tagCodes, n < Packing.tags.base := by
  intro n hn
  obtain ⟨tag, -, rfl⟩ := List.mem_map.1 hn
  exact tag.code_lt

theorem position_lt_base : ∀ n ∈ t.streams.positionNumbers, n < Packing.positions.base := by
  intro n hn
  obtain ⟨s, -, rfl⟩ := List.mem_map.1 hn
  exact s.isLt

theorem pattern_lt_base : ∀ n ∈ t.streams.patternNumbers, n < Packing.patterns.base := by
  intro n hn
  obtain ⟨p, -, rfl⟩ := List.mem_map.1 hn
  exact p.isLt

/-- The header tells the number of misses. -/
theorem fullWordCount_header (h : t.length = Layout.pageWords) (algorithm : Word) :
    (t.header algorithm).fullWordCount = t.encoded.tally.miss := by
  obtain ⟨hf, -⟩ := toNat_ends h algorithm
  rw [Header.fullWordCount, hf, encoded, Nat.add_sub_cancel_left, length_missed]

/-- The image of a trace is where it is said to be. -/
theorem describes_image (h : t.length = Layout.pageWords) (algorithm : Word) (rest : Buffer) :
    t.encoded.Describes (algorithm :: t.image ++ rest) t.streams t.missed := by
  obtain ⟨hf, hq, hl⟩ := toNat_ends h algorithm
  refine
    { total := total_tally h
      length_tags := ?_
      length_positions := ?_
      length_patterns := ?_
      length_missed := t.length_missed
      tag_lt := code_lt_base
      position_lt := position_lt_base
      pattern_lt := pattern_lt_base
      fullWordsEnd := rfl
      positionsEnd := ?_
      length := ?_
      ends := ⟨congrArg some hf, congrArg some hq, congrArg some hl⟩
      tags := Packing.tags.holdsRun_of_area (area_tags h algorithm rest) code_lt_base
      fullWords := fun k hk => Buffer.getElem?_of_area (area_fullWords h algorithm rest) hk
      positions :=
        Packing.positions.holdsRun_of_area (area_positions h algorithm rest) position_lt_base
      patterns := Packing.patterns.holdsRun_of_area (area_patterns h algorithm rest) pattern_lt_base
      header := ⟨t.header algorithm, read_image algorithm rest, wellFormed_header h algorithm,
        compressedLength_header h algorithm, fullWordCount_header h algorithm⟩ }
  · rw [total_tally h, ← h, ← t.length_tags]
    exact List.length_map ..
  · exact (List.length_map ..).trans t.length_positions
  · exact (List.length_map ..).trans t.length_patterns
  · exact congrArg (t.encoded.fullWordsEnd + ·) (Packing.length_fill ..)
  · exact congrArg (t.encoded.positionsEnd + ·) (Packing.length_fill ..)

/-- Of the tags only their tally counts for the ends. -/
theorem encoded_eq_of_count {s : Trace} (h : Tally.count s.tags = Tally.count t.tags) :
    s.encoded = t.encoded := by
  have hq : s.positionArea.length = t.positionArea.length := by
    rw [length_positionArea, length_positionArea, length_positions, length_positions, h]
  have hl : s.patternArea.length = t.patternArea.length := by
    rw [length_patternArea, length_patternArea, length_patterns, length_patterns, h]
  rw [encoded, encoded, length_missed, length_missed, hq, hl, h]

/-- The words of the tags hold the tags, so they settle the ends. -/
theorem ends_eq_of_tagArea {s : Trace} (hs : s.length = Layout.pageWords)
    (ht : t.length = Layout.pageWords) (h : s.tagArea = t.tagArea) : s.ends = t.ends := by
  have htags : s.tags = t.tags := by
    rw [← unpack_tagArea s hs, ← unpack_tagArea t ht, h]
  rw [ends, ends, encoded_eq_of_count (congrArg Tally.count htags)]

theorem area_ends (algorithm : Word) (rest : Buffer) :
    Buffer.area (algorithm :: t.image ++ rest) 1 Layout.headerWords = t.ends := rfl

end Trace

namespace Encoder

/-- A page that is compressed into a buffer, and a scan of it on its own that says what stands
where. -/
structure Described (page : List Word) (full b : Buffer) (tally : Tally) (ws : Workspace)
    (e : Encoded) (b' : Buffer) : Prop where
  /-- This is what the scan finds. -/
  scanned : Scan.page page ⟨.new, .empty, full⟩ = .ok tally ws
  /-- The page is compressed. -/
  completes : encode page b = .ok e b'
  /-- The tags are the same. -/
  tally_eq : e.tally = tally
  /-- What the scan finds stands in its place. -/
  describes : e.Describes b' ws.streams (ws.fullWords.take tally.miss)
  /-- The words of the tags settle the ends in the header. -/
  ends : ∀ other c, other.length = Layout.pageWords → Layout.maxWords ≤ c.length →
    ∃ e' c', encode other c = .ok e' c'
      ∧ (c'.area Layout.tagsStart Layout.fullWordsStart
          = b'.area Layout.tagsStart Layout.fullWordsStart →
        c'.area 1 Layout.headerWords = b'.area 1 Layout.headerWords)

/-- **Places.**  What a scan of a page finds on its own stands in the compressed page where it is
said to, whatever buffer the scan is given and whatever buffer the page is compressed into.  Of two
compressed pages with the same words for their tags the ends in the headers are the same. -/
theorem encode_describes (page : List Word) (full b : Buffer)
    (hp : page.length = Layout.pageWords) (hf : Layout.pageWords ≤ full.length)
    (hb : Layout.maxWords ≤ b.length) : ∃ tally ws e b', Described page full b tally ws e b' := by
  obtain ⟨algorithm, b, rfl⟩ := List.exists_cons_of_length_pos (Nat.lt_of_lt_of_le (by decide) hb)
  have hmissed : (full.overlay (trace page).missed).take (trace page).encoded.tally.miss
      = (trace page).missed := List.take_left' (trace page).length_missed
  refine ⟨_, _, _, _, Scan.page_eq .new hp hf, encode_eq hp hb, rfl, ?_, ?_⟩
  · have himage := Trace.describes_image (length_trace hp) algorithm
      (b.drop (trace page).image.length)
    rwa [← hmissed] at himage
  · intro other c ho hc
    obtain ⟨algorithm', c, rfl⟩ :=
      List.exists_cons_of_length_pos (Nat.lt_of_lt_of_le (by decide) hc)
    refine ⟨_, _, encode_eq ho hc, fun htags => ?_⟩
    rw [Trace.area_tags (length_trace ho), Trace.area_tags (length_trace hp)] at htags
    rw [Trace.area_ends, Trace.area_ends]
    exact Trace.ends_eq_of_tagArea (length_trace ho) (length_trace hp) htags

/-- The words below 1024, scanned over zeros and compressed into a buffer full of ones. -/
theorem encode_describes_range :
    ∃ tally ws e b', Described ((List.range 1024).map UInt32.ofNat) (List.replicate 1024 0)
      (List.replicate 1562 0xffffffff) tally ws e b' :=
  encode_describes _ _ _ (by rw [List.length_map, List.length_range, Layout.pageWords_eq])
    (by rw [List.length_replicate, Layout.pageWords_eq])
    (by rw [List.length_replicate, Layout.maxWords_eq])

end Encoder

end PageCodec
