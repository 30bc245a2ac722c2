import PageCodec.Proofs.History
import PageCodec.Proofs.Reuse
import PageCodec.Proofs.RoundTrip

/-!
# The buffers that compressing can leave

Of the many buffers that a reader would take, compressing leaves only the canonical ones: their
areas are no longer than they have to be, nothing is set that is not read, and every tag is the one
that a scan would have given to the word it stands for.  A canonical buffer is what compressing
leaves of the page that is read from it, so no page has two compressed forms.

* `Decoder.Lawful`, `Decoder.LawfulRun` — a tag is the tag of its word, in a replay as a whole.
* `Decoder.exists_word`, `Decoder.exists_trace` — what is lawful comes from a word, or from a run of
  words; the other way round these are `Decoder.lawful_word` and `Decoder.lawfulRun_trace`.
* `Decoder.Canonical` — the canonical buffers.
* `Decoder.CanonicalAreas.eq_image` — a canonical buffer is an image, area by area.
* `Encoder.image_iff_canonical` — compressing leaves the canonical buffers and no others.
-/

namespace PageCodec

namespace Decoder

/-! ## Tags that are given to their words -/

/-- The tag is the one that a scan gives to the word that it stands for, from the same dictionary.
A tag with nothing to read is not spoken of. -/
def Lawful (d : Dictionary) (s : Supply) : Tag → Prop
  | .zero => True
  | .exactMatch => ∀ slot ∈ s.positions.head?, (d.get slot).slot = slot
  | .partialMatch => ∀ slot ∈ s.positions.head?, ∀ p ∈ s.patterns.head?,
    (d.get slot).withPattern p ≠ 0 ∧ (d.get slot).withPattern p ≠ d.get slot
      ∧ ((d.get slot).withPattern p).slot = slot
  | .miss => ∀ w ∈ s.fullWords.head?, w ≠ 0 ∧ w.high ≠ (d.get w.slot).high

instance (d : Dictionary) (s : Supply) : DecidablePred (Lawful d s)
  | .zero => inferInstanceAs (Decidable True)
  | .exactMatch =>
    inferInstanceAs (Decidable (∀ slot ∈ s.positions.head?, (d.get slot).slot = slot))
  | .partialMatch =>
    inferInstanceAs (Decidable (∀ slot ∈ s.positions.head?, ∀ p ∈ s.patterns.head?,
      (d.get slot).withPattern p ≠ 0 ∧ (d.get slot).withPattern p ≠ d.get slot
        ∧ ((d.get slot).withPattern p).slot = slot))
  | .miss =>
    inferInstanceAs (Decidable (∀ w ∈ s.fullWords.head?, w ≠ 0 ∧ w.high ≠ (d.get w.slot).high))

/-- Every tag of a list is lawful when the replay comes to it. -/
def LawfulRun (d : Dictionary) (s : Supply) : List Tag → Prop
  | [] => True
  | t :: ts => Lawful d s t ∧ ∀ w d' s', step d s t = some (w, d', s') → LawfulRun d' s' ts

/-- There is as much to read as the tags ask for. -/
structure Supply.Covers (s : Supply) (ts : List Tag) : Prop where
  /-- A slot for each exact or partial match. -/
  positions : (Tally.count ts).positions ≤ s.positions.length
  /-- A pattern for each partial match. -/
  patterns : (Tally.count ts).partialMatch ≤ s.patterns.length
  /-- A full word for each miss. -/
  fullWords : (Tally.count ts).miss ≤ s.fullWords.length

theorem lawful_word (d : Dictionary) (w : Word) (rest : Supply) :
    Lawful d (Trace.supply [(d.tag w, w)] rest) (d.tag w) := by
  rcases d.see_cases w with
    ⟨hw, htag, -⟩ | ⟨-, -, htag, -⟩ | ⟨hne, h0, hh, htag, -⟩ | ⟨-, h0, hh, htag, -⟩
  · rw [htag, Trace.supply_word]
    simp [Lawful, ← hw]
  · rw [htag]
    trivial
  · have hback : (d.get w.slot).withPattern w.pattern = w := Word.withPattern_pattern hh
    rw [htag, Trace.supply_word]
    simp [Lawful, hback, h0, hne]
  · rw [htag, Trace.supply_word]
    simp [Lawful, h0, hh]

theorem lawfulRun_trace (d : Dictionary) (ws : List Word) (rest : Supply) :
    LawfulRun d ((d.trace ws).supply rest) (d.trace ws).tags := by
  induction ws generalizing d with
  | nil => trivial
  | cons w ws ih =>
    rw [Dictionary.trace, Trace.supply_cons]
    refine ⟨lawful_word d w _, ?_⟩
    intro w' d' s' hstep
    rw [step_word] at hstep
    cases hstep
    exact ih (d.see w)

/-- A word takes from the supply what its tag asks for. -/
theorem Supply.Covers.of_word {t : Tag} {w : Word} {s : Supply} {ts : List Tag}
    (h : (Trace.supply [(t, w)] s).Covers (t :: ts)) : s.Covers ts := by
  obtain ⟨hq, hl, hf⟩ := h
  rw [Tally.count_cons, Trace.supply_word] at hq hl hf
  cases t <;> constructor <;>
    simp only [Tally.record, Tally.positions, List.length_cons] at hq hl hf ⊢ <;>
    omega

/-- A lawful tag is the tag of the word that it stands for.  The dictionary must not hold zero,
since a zero word that is remembered is an exact match. -/
theorem exists_word {d : Dictionary} {s : Supply} {t : Tag} {ts : List Tag} (hd : ∀ i, d.get i ≠ 0)
    (hs : s.Covers (t :: ts)) (h : Lawful d s t) :
    ∃ w s', d.tag w = t ∧ s = Trace.supply [(t, w)] s' := by
  obtain ⟨hq, hl, hf⟩ := hs
  obtain ⟨positions, patterns, fullWords⟩ := s
  rw [Tally.count_cons] at hq hl hf
  cases t with
  | zero =>
    refine ⟨0, ⟨positions, patterns, fullWords⟩, ?_, rfl⟩
    rw [Dictionary.tag, Tag.classify, if_neg (hd _).symm, if_pos rfl]
  | exactMatch =>
    rcases positions with _ | ⟨slot, positions⟩
    · simp [Tally.record, Tally.positions] at hq
    · have hslot : (d.get slot).slot = slot := h slot rfl
      refine ⟨d.get slot, ⟨positions, patterns, fullWords⟩, ?_, ?_⟩
      · rw [Dictionary.tag, hslot, Tag.classify, if_pos rfl]
      · rw [Trace.supply_word, hslot]
  | partialMatch =>
    rcases positions with _ | ⟨slot, positions⟩
    · simp [Tally.record, Tally.positions] at hq
    · rcases patterns with _ | ⟨p, patterns⟩
      · simp [Tally.record] at hl
      · obtain ⟨h0, hne, hslot⟩ := h slot rfl p rfl
        refine ⟨(d.get slot).withPattern p, ⟨positions, patterns, fullWords⟩, ?_, ?_⟩
        · rw [Dictionary.tag, hslot, Tag.classify, if_neg hne, if_neg h0,
            if_pos (Word.high_withPattern ..)]
        · rw [Trace.supply_word, hslot, Word.pattern_withPattern]
  | miss =>
    rcases fullWords with _ | ⟨w, fullWords⟩
    · simp [Tally.record] at hf
    · obtain ⟨h0, hh⟩ := h w rfl
      have hne : w ≠ d.get w.slot := fun hw => hh (congrArg Word.high hw)
      refine ⟨w, ⟨positions, patterns, fullWords⟩, ?_, rfl⟩
      rw [Dictionary.tag, Tag.classify, if_neg hne, if_neg h0, if_neg hh]

/-- A partial match that would be read as zero is not lawful, since zero has a tag of its own. -/
example : ¬ Lawful .new ⟨[Slot.ofNat 0], [Pattern.ofNat 0], []⟩ .partialMatch := by decide +kernel

/-- A lawful run of tags is the tags of a run of words.  The induction is on the tags, and the
dictionary goes on remembering the words, so that it never holds zero. -/
theorem exists_trace {d : Dictionary} {before : List Word} {s : Supply} {ts : List Tag}
    (hd : d.Remembers before) (hs : s.Covers ts) (h : LawfulRun d s ts) :
    ∃ ws rest, (d.trace ws).tags = ts ∧ s = (d.trace ws).supply rest := by
  induction ts generalizing d before s with
  | nil => exact ⟨[], s, rfl, rfl⟩
  | cons t ts ih =>
    obtain ⟨hlawful, hrun⟩ := h
    obtain ⟨w, s', htag, rfl⟩ := exists_word hd.get_ne_zero hs hlawful
    subst htag
    obtain ⟨ws, rest, htags, rfl⟩ := ih (hd.see w) hs.of_word (hrun _ _ _ (step_word d w s'))
    refine ⟨w :: ws, rest, ?_, ?_⟩
    · exact congrArg (d.tag w :: ·) htags
    · exact (Trace.supply_cons _ (d.tag w) w rest).symm

/-! ## Canonical buffers -/

/-- The areas that a header sets off in a buffer are written as compressing writes them. -/
structure CanonicalAreas (h : Header) (b : Buffer) : Prop where
  /-- The areas follow each other in layout order. -/
  wellFormed : h.WellFormed
  /-- The last area ends with the buffer. -/
  length : h.compressedLength = b.length
  /-- There is a full word for each miss. -/
  fullWords : h.fullWordCount = (Tally.count (tags b)).miss
  /-- There are as many words of slots as the exact and partial matches need. -/
  positions : h.positionsEnd.toNat - h.fullWordsEnd.toNat
    = (Tally.count (tags b)).positions ⌈/⌉ Packing.positions.group
  /-- There are as many words of patterns as the partial matches need. -/
  patterns : h.patternsEnd.toNat - h.positionsEnd.toNat
    = (Tally.count (tags b)).partialMatch ⌈/⌉ Packing.patterns.group
  /-- Behind the slots there are zeros. -/
  slot_padding : ∀ s ∈ (supply h b).positions.drop (Tally.count (tags b)).positions, s.val = 0
  /-- Behind the patterns there are zeros. -/
  pattern_padding : ∀ p ∈ (supply h b).patterns.drop (Tally.count (tags b)).partialMatch, p.val = 0
  /-- The two bits of a word that belong to no pattern are not set. -/
  spare_bits : ∀ w ∈ b.area h.positionsEnd.toNat h.patternsEnd.toNat, w.toNat < 2 ^ 30
  /-- Each tag is given to its word. -/
  lawful : LawfulRun .new (supply h b) (tags b)

/-- A buffer is written as compressing writes it. -/
def Canonical (b : Buffer) : Prop := ∃ h, Header.read b = .ok h ∧ CanonicalAreas h b

theorem canonicalAreas_image {page : List Word} (hp : page.length = Layout.pageWords)
    (algorithm : Word) : CanonicalAreas ((Encoder.trace page).header algorithm)
      (algorithm :: (Encoder.trace page).image) := by
  have hlen := Encoder.length_trace hp
  have hlawful : LawfulRun .new ((Encoder.trace page).supply (Encoder.trace page).padding)
      (Encoder.trace page).tags := lawfulRun_trace .new page _
  generalize Encoder.trace page = t at *
  have htags := tags_image hlen algorithm []
  have hsupply := supply_image hlen algorithm []
  have harea := Trace.area_patterns hlen algorithm []
  rw [List.append_nil] at htags hsupply harea
  obtain ⟨hf, hq, hl⟩ := Trace.toNat_ends hlen algorithm
  constructor
  · exact Trace.wellFormed_header hlen algorithm
  · rw [Trace.compressedLength_header hlen, Trace.length_cons_image hlen]
  · rw [Header.fullWordCount, hf, htags, ← Trace.length_missed]
    exact Nat.add_sub_cancel_left ..
  · rw [hf, hq, htags, ← Trace.length_positions, ← Trace.length_positionArea]
    exact Nat.add_sub_cancel_left ..
  · rw [hq, hl, htags, ← Trace.length_patterns, ← Trace.length_patternArea]
    exact Nat.add_sub_cancel_left ..
  · rw [hsupply, htags, ← Trace.length_positions, Trace.supply, List.drop_left]
    intro s hs
    exact congrArg Fin.val (List.eq_of_mem_replicate hs)
  · rw [hsupply, htags, ← Trace.length_patterns, Trace.supply, List.drop_left]
    intro p hp
    exact congrArg Fin.val (List.eq_of_mem_replicate hp)
  · rw [hq, hl, ← Encoded.length, harea]
    intro w hw
    exact Packing.patterns.toNat_lt_of_mem_words hw
  · rwa [hsupply, htags]

theorem area_header {h : Header} {b : Buffer} (hr : Header.read b = .ok h) :
    b.area 0 Layout.tagsStart = [h.algorithm, h.fullWordsEnd, h.positionsEnd, h.patternsEnd] := by
  match b, hr with
  | a :: f :: q :: l :: rest, hr =>
    cases hr
    rfl

namespace CanonicalAreas

variable {h : Header} {b : Buffer} (hc : CanonicalAreas h b)

include hc

theorem ends_le : Layout.fullWordsStart ≤ h.fullWordsEnd.toNat
    ∧ h.fullWordsEnd.toNat ≤ h.positionsEnd.toNat
    ∧ h.positionsEnd.toNat ≤ h.patternsEnd.toNat ∧ h.patternsEnd.toNat = b.length :=
  ⟨hc.wellFormed.1, UInt32.le_iff_toNat_le.1 hc.wellFormed.2.1,
    UInt32.le_iff_toNat_le.1 hc.wellFormed.2.2, hc.length⟩

theorem length_tags : (tags b).length = Layout.pageWords := by
  obtain ⟨hf, hq, hl, hb⟩ := hc.ends_le
  rw [tags, List.length_map, Packing.length_unpack, Buffer.length_area b (by omega)]
  rfl

/-- There is enough to read in a canonical buffer. -/
theorem covers : (supply h b).Covers (tags b) := by
  obtain ⟨hf, hq, hl, hb⟩ := hc.ends_le
  have hpositions := hc.positions
  have hpatterns := hc.patterns
  have hmiss := hc.fullWords
  rw [Nat.ceilDiv_eq_add_pred_div] at hpositions hpatterns
  constructor
  · rw [supply, List.length_map, Packing.length_unpack, Buffer.length_area b (by omega), hpositions]
    simp only [Packing.positions]
    omega
  · rw [supply, List.length_map, Packing.length_unpack, Buffer.length_area b (by omega), hpatterns]
    simp only [Packing.patterns]
    omega
  · rw [supply, Buffer.length_area b (by omega), ← hmiss, Header.fullWordCount]

/-! ### Its areas are those of the trace that is read from it -/

variable {t : Trace} (ht : t.tags = tags b)

include ht

theorem ends_eq : t.ends = [h.fullWordsEnd, h.positionsEnd, h.patternsEnd] := by
  obtain ⟨hf, hq, hl, hb⟩ := hc.ends_le
  have hfirst : t.encoded.fullWordsEnd = h.fullWordsEnd.toNat := by
    have hmiss := hc.fullWords
    rw [Header.fullWordCount, ← ht, ← Trace.length_missed] at hmiss
    show Layout.fullWordsStart + t.missed.length = _
    omega
  have hsecond : t.encoded.positionsEnd = h.positionsEnd.toNat := by
    have hpositions := hc.positions
    rw [← ht, ← Trace.length_positions, ← Trace.length_positionArea] at hpositions
    show t.encoded.fullWordsEnd + t.positionArea.length = _
    omega
  have hthird : t.encoded.patternsEnd = h.patternsEnd.toNat := by
    have hpatterns := hc.patterns
    rw [← ht, ← Trace.length_patterns, ← Trace.length_patternArea] at hpatterns
    show t.encoded.positionsEnd + t.patternArea.length = _
    omega
  rw [Trace.ends, hfirst, hsecond, hthird, UInt32.ofNat_toNat, UInt32.ofNat_toNat,
    UInt32.ofNat_toNat]

theorem tagArea_eq : t.tagArea = b.area Layout.tagsStart Layout.fullWordsStart := by
  obtain ⟨hf, hq, hl, hb⟩ := hc.ends_le
  have hread : (Packing.tags.unpack (b.area Layout.tagsStart Layout.fullWordsStart)).map Tag.ofCode
      = t.tags ++ [] := by
    rw [List.append_nil, ht, tags]
  refine Packing.tags.fill_map_eq (by decide) ?_ (fun w _ => w.toNat_lt) hread (by simp)
  rw [ht, hc.length_tags, Buffer.length_area b (by omega)]
  rfl

variable {rest : Supply} (hs : supply h b = t.supply rest)

include hs

theorem missed_eq : t.missed = b.area Layout.fullWordsStart h.fullWordsEnd.toNat := by
  obtain ⟨hf, hq, hl, hb⟩ := hc.ends_le
  have hread : b.area Layout.fullWordsStart h.fullWordsEnd.toNat = t.missed ++ rest.fullWords :=
    congrArg Supply.fullWords hs
  have hlen : t.missed.length = (b.area Layout.fullWordsStart h.fullWordsEnd.toNat).length := by
    rw [Buffer.length_area b (by omega), Trace.length_missed, ht, ← hc.fullWords,
      Header.fullWordCount]
  rw [hread, List.length_append] at hlen
  have hnil : rest.fullWords = [] := List.length_eq_zero_iff.1 (by omega)
  rw [hread, hnil, List.append_nil]

theorem positionArea_eq : t.positionArea = b.area h.fullWordsEnd.toNat h.positionsEnd.toNat := by
  obtain ⟨hf, hq, hl, hb⟩ := hc.ends_le
  have hread : (supply h b).positions = t.positions ++ rest.positions :=
    congrArg Supply.positions hs
  refine Packing.positions.fill_map_eq (fun n hn => Nat.mod_eq_of_lt hn) ?_
    (fun w _ => w.toNat_lt) hread ?_
  · rw [Buffer.length_area b (by omega), hc.positions, Trace.length_positions, ht]
  · intro s hs'
    refine hc.slot_padding s ?_
    rwa [hread, ← ht, ← Trace.length_positions, List.drop_left]

theorem patternArea_eq : t.patternArea = b.area h.positionsEnd.toNat h.patternsEnd.toNat := by
  obtain ⟨hf, hq, hl, hb⟩ := hc.ends_le
  have hread : (supply h b).patterns = t.patterns ++ rest.patterns :=
    congrArg Supply.patterns hs
  refine Packing.patterns.fill_map_eq (fun n hn => Nat.mod_eq_of_lt hn) ?_ hc.spare_bits hread ?_
  · rw [Buffer.length_area b (by omega), hc.patterns, Trace.length_patterns, ht]
  · intro p hp
    refine hc.pattern_padding p ?_
    rwa [hread, ← ht, ← Trace.length_patterns, List.drop_left]

/-- A canonical buffer is the image of the trace that is read from it. -/
theorem eq_image (hr : Header.read b = .ok h) : b = h.algorithm :: t.image := by
  obtain ⟨hf, hq, hl, hb⟩ := hc.ends_le
  have hall : b.area 0 b.length = b := by
    rw [Buffer.area, List.take_length, List.drop_zero]
  have hhead : h.algorithm :: t.ends = b.area 0 Layout.tagsStart := by
    rw [hc.ends_eq ht, area_header hr]
  have himage : h.algorithm :: t.image = h.algorithm :: t.ends ++ t.tagArea ++ t.missed
    ++ t.positionArea ++ t.patternArea := rfl
  rw [himage, hhead, hc.tagArea_eq ht, hc.missed_eq ht hs, hc.positionArea_eq ht hs,
    hc.patternArea_eq ht hs, Buffer.area_append_area b (by decide) (by decide),
    Buffer.area_append_area b (Nat.zero_le _) hf, Buffer.area_append_area b (Nat.zero_le _) hq,
    Buffer.area_append_area b (Nat.zero_le _) hl, hb, hall]

end CanonicalAreas

end Decoder

/-! ## Compressing and reading -/

namespace Encoder

/-- What compressing a page leaves in a buffer is as long as `b` and has the words of `b` behind the
identifier. -/
def Writes (page : List Word) (dest b : Buffer) : Prop :=
  ∃ e dest', encode page dest = .ok e dest' ∧ e.length = b.length
    ∧ dest'.area 1 e.length = b.area 1 b.length

theorem area_image {page : List Word} (hp : page.length = Layout.pageWords) (algorithm : Word)
    (rest : Buffer) :
    Buffer.area (algorithm :: (trace page).image ++ rest) 1 (trace page).encoded.length
      = (trace page).image := by
  have hb : algorithm :: (trace page).image ++ rest = [algorithm] ++ (trace page).image ++ rest :=
    rfl
  rw [hb]
  exact Buffer.area_append rfl (length_cons_image hp algorithm)

theorem writes_image {page : List Word} {dest : Buffer} (hp : page.length = Layout.pageWords)
    (hd : Layout.maxWords ≤ dest.length) (algorithm : Word) :
    Writes page dest (algorithm :: (trace page).image) := by
  obtain ⟨old, dest, rfl⟩ := exists_cons hd
  have himage := area_image hp algorithm []
  rw [List.append_nil, ← length_cons_image hp algorithm] at himage
  refine ⟨_, _, encode_eq hp hd, (length_cons_image hp algorithm).symm, ?_⟩
  rw [area_image hp, himage]

theorem eq_image_of_writes {page : List Word} {dest b : Buffer} (h : Writes page dest b) :
    page.length = Layout.pageWords ∧ ∃ algorithm, b = algorithm :: (trace page).image := by
  obtain ⟨e, dest', hencode, hlen, harea⟩ := h
  obtain ⟨hp, hd, -⟩ := encode_eq_ok hencode
  obtain ⟨old, dest, rfl⟩ := exists_cons hd
  rw [encode_eq hp hd] at hencode
  cases hencode
  rw [area_image hp] at harea
  refine ⟨hp, ?_⟩
  cases b with
  | nil =>
    rw [← length_cons_image hp 0] at hlen
    cases hlen
  | cons algorithm b =>
    refine ⟨algorithm, ?_⟩
    rw [harea, Buffer.area, List.take_length]
    rfl

/-- **Canonical forms.**  What compressing leaves of a page is canonical, and a canonical buffer is
what compressing leaves of the page that is read from it, whatever buffer it is compressed into. -/
theorem image_iff_canonical (b : Buffer) :
    ((∃ page dest, Writes page dest b) ↔ Decoder.Canonical b)
      ∧ (Decoder.Canonical b → ∃ page rest, Decoder.decode b = some (page, rest)
        ∧ page.length = Layout.pageWords
        ∧ ∀ dest, Layout.maxWords ≤ dest.length → Writes page dest b) := by
  have hback : Decoder.Canonical b → ∃ page rest, Decoder.decode b = some (page, rest)
      ∧ page.length = Layout.pageWords
      ∧ ∀ dest, Layout.maxWords ≤ dest.length → Writes page dest b := by
    rintro ⟨h, hr, hc⟩
    obtain ⟨page, rest, htags, hsupply⟩ :=
      Decoder.exists_trace Dictionary.Remembers.new hc.covers hc.lawful
    have hp : page.length = Layout.pageWords := by
      rw [← Dictionary.length_trace .new page, ← Trace.length_tags, htags, hc.length_tags]
    have hb : b = h.algorithm :: (trace page).image := hc.eq_image htags hsupply hr
    obtain ⟨left, hdecode, -⟩ := Decoder.restores_image hp h.algorithm []
    rw [List.append_nil, ← hb] at hdecode
    refine ⟨page, left, hdecode, hp, ?_⟩
    intro dest hd
    rw [hb]
    exact writes_image hp hd h.algorithm
  refine ⟨⟨?_, ?_⟩, hback⟩
  · rintro ⟨page, dest, hw⟩
    obtain ⟨hp, algorithm, rfl⟩ := eq_image_of_writes hw
    refine ⟨_, ?_, Decoder.canonicalAreas_image hp algorithm⟩
    have hread := Trace.read_image (t := trace page) algorithm []
    rwa [List.append_nil] at hread
  · intro hc
    obtain ⟨page, -, -, -, hw⟩ := hback hc
    exact ⟨page, List.replicate Layout.maxWords 0, hw _ (Nat.le_of_eq List.length_replicate.symm)⟩

end Encoder

end PageCodec
