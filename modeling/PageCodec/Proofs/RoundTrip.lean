import PageCodec.Proofs.Image

/-!
# Reading back what was compressed

The areas of an image hold the streams of its trace, filled up with zeros, and the trace gives back
the page.  So a compressed page is read back as it was, from whatever buffer it was compressed into
and whatever identifier is stamped on it.

* `Decoder.Restores` — a buffer holds a page in compressed form, and all of the form is used.
* `Decoder.decode_image` — reading an image is replaying its trace.
* `Decoder.RoundTrip` — a page that is compressed, stamped or not, and read back.
* `Decoder.restores_encode` — what compressing a page leaves holds the page.
-/

namespace PageCodec

/-! ## Symbols read back -/

theorem Slot.ofNat_val (s : Slot) : Slot.ofNat s.val = s :=
  Fin.ext (Nat.mod_eq_of_lt s.isLt)

theorem Pattern.ofNat_val (p : Pattern) : Pattern.ofNat p.val = p :=
  Fin.ext (Nat.mod_eq_of_lt p.isLt)

namespace Trace

variable (t : Trace)

/-- The zeros behind the symbols of a trace, which fill up the last words of its areas. -/
def padding : Decoder.Supply where
  positions := List.replicate
    (Packing.positions.group * t.positionArea.length - t.positions.length) (Slot.ofNat 0)
  patterns := List.replicate
    (Packing.patterns.group * t.patternArea.length - t.patterns.length) (Pattern.ofNat 0)
  fullWords := []

theorem unpack_tagArea (h : t.length = Layout.pageWords) :
    (Packing.tags.unpack t.tagArea).map Tag.ofCode = t.tags := by
  have hzeros : Packing.tags.group * (t.length ⌈/⌉ Packing.tags.group) - t.length = 0 := by
    rw [h]
    rfl
  have hcode : ∀ tag ∈ t.tags, Tag.ofCode (tag.code % Packing.tags.base) = tag := by
    intro tag _
    cases tag <;> rfl
  rw [tagArea, Packing.tags.unpack_fill_map hcode, length_tags, hzeros, List.replicate_zero,
    List.append_nil]

theorem unpack_positionArea :
    (Packing.positions.unpack t.positionArea).map Slot.ofNat
      = t.positions ++ t.padding.positions := by
  have hslot : ∀ s ∈ t.positions, Slot.ofNat (s.val % Packing.positions.base) = s := by
    intro s _
    rw [Nat.mod_eq_of_lt (show s.val < Packing.positions.base from s.isLt), Slot.ofNat_val]
  rw [padding, length_positionArea, positionArea, Packing.positions.unpack_fill_map hslot]

theorem unpack_patternArea :
    (Packing.patterns.unpack t.patternArea).map Pattern.ofNat
      = t.patterns ++ t.padding.patterns := by
  have hpattern : ∀ p ∈ t.patterns, Pattern.ofNat (p.val % Packing.patterns.base) = p := by
    intro p _
    rw [Nat.mod_eq_of_lt (show p.val < Packing.patterns.base from p.isLt), Pattern.ofNat_val]
  rw [padding, length_patternArea, patternArea, Packing.patterns.unpack_fill_map hpattern]

end Trace

namespace Decoder

/-- A buffer holds a page in compressed form: reading it gives the page, uses every full word and
leaves nothing of the symbols but zeros. -/
def Restores (b : Buffer) (page : List Word) : Prop :=
  ∃ rest, decode b = some (page, rest) ∧ rest.fullWords = []
    ∧ (∀ s ∈ rest.positions, s.val = 0) ∧ ∀ p ∈ rest.patterns, p.val = 0

/-- The zeros that fill up an area are all that a trace leaves unread. -/
theorem restores_of_decode {b : Buffer} {page : List Word} {t : Trace}
    (h : decode b = some (page, t.padding)) : Restores b page := by
  refine ⟨t.padding, h, rfl, ?_, ?_⟩
  · intro s hs
    exact congrArg Fin.val (List.eq_of_mem_replicate hs)
  · intro p hp
    exact congrArg Fin.val (List.eq_of_mem_replicate hp)

/-! ## Images read back -/

section Image

variable {t : Trace} (h : t.length = Layout.pageWords) (algorithm : Word) (rest : Buffer)

include h

theorem tags_image : tags (algorithm :: t.image ++ rest) = t.tags := by
  rw [tags, Trace.area_tags h, t.unpack_tagArea h]

theorem supply_image :
    supply (t.header algorithm) (algorithm :: t.image ++ rest) = t.supply t.padding := by
  obtain ⟨hf, hq, hl⟩ := Trace.toNat_ends h algorithm
  rw [supply, hf, hq, hl, Trace.area_fullWords h, Trace.area_positions h, ← Encoded.length,
    Trace.area_patterns h, t.unpack_positionArea, t.unpack_patternArea, Trace.supply]
  exact congrArg (Supply.mk _ _) (List.append_nil _).symm

/-- Reading an image is replaying its trace, whatever stands behind the image. -/
theorem decode_image :
    decode (algorithm :: t.image ++ rest)
      = (replay .new (t.supply t.padding) t.tags).map fun r => (r.1, r.2.2) := by
  have hfits : (t.header algorithm).WellFormed
      ∧ (t.header algorithm).compressedLength ≤ (algorithm :: t.image ++ rest).length := by
    refine ⟨Trace.wellFormed_header h algorithm, ?_⟩
    rw [Trace.compressedLength_header h, List.length_append, Trace.length_cons_image h]
    exact Nat.le_add_right ..
  rw [decode, Trace.read_image]
  dsimp only
  rw [if_pos hfits, tags_image h, supply_image h]
  cases replay .new (t.supply t.padding) t.tags <;> rfl

end Image

/-- The image of a page holds the page, whatever its identifier is. -/
theorem restores_image {page : List Word} (h : page.length = Layout.pageWords) (algorithm : Word)
    (rest : Buffer) : Restores (algorithm :: (Encoder.trace page).image ++ rest) page := by
  have hreplay := replay_trace .new page (Encoder.trace page).padding
  refine restores_of_decode (t := Encoder.trace page) ?_
  rw [decode_image (Encoder.length_trace h)]
  exact congrArg (Option.map fun r => (r.1, r.2.2)) hreplay

/-- A page that is compressed into a buffer and can be read back from there. -/
structure RoundTrip (page : List Word) (b : Buffer) (e : Encoded) (b' : Buffer) : Prop where
  /-- The page is not turned down. -/
  completes : Encoder.encode page b = .ok e b'
  /-- The compressed page lies within the buffer. -/
  length_le : e.length ≤ b'.length
  /-- It is read back as the page. -/
  restores : Restores (b'.take e.length) page
  /-- It is also when an identifier has been stamped on it. -/
  stamped : ∀ algorithm, ∃ stamped, Header.stamp algorithm b' = .ok stamped
    ∧ Header.stamp algorithm (b'.take e.length) = .ok (stamped.take e.length)
    ∧ Restores (stamped.take e.length) page

/-- **Round trip.**  A page of the right length and a buffer with room for any page are never turned
down, and what the buffer then holds is read back as the page, also when an identifier has been
stamped on it. -/
theorem restores_encode (page : List Word) (b : Buffer) (hp : page.length = Layout.pageWords)
    (hb : Layout.maxWords ≤ b.length) : ∃ e b', RoundTrip page b e b' := by
  cases b with
  | nil => exact absurd hb (by decide)
  | cons old rest =>
    have htake : ∀ algorithm : Word, ∀ behind : Buffer,
        (algorithm :: (Encoder.trace page).image ++ behind).take (Encoder.trace page).encoded.length
          = algorithm :: (Encoder.trace page).image ++ [] := by
      intro algorithm behind
      rw [List.append_nil]
      exact List.take_left' (Encoder.length_cons_image hp algorithm)
    refine ⟨_, _, Encoder.encode_eq hp hb, ?_, ?_, ?_⟩
    · rw [List.length_append, Encoder.length_cons_image hp]
      exact Nat.le_add_right ..
    · rw [htake]
      exact restores_image hp old []
    · intro algorithm
      refine ⟨algorithm :: (Encoder.trace page).image
        ++ rest.drop (Encoder.trace page).image.length, rfl, ?_, ?_⟩
      · rw [htake, htake]
        rfl
      · rw [htake]
        exact restores_image hp algorithm []

/-- A page without any match, compressed into a buffer full of ones. -/
theorem restores_encode_misses :
    ∃ e b', RoundTrip ((List.range 1024).map fun i => UInt32.ofNat (1024 * i + 1024))
      (List.replicate 1562 0xffffffff) e b' :=
  restores_encode _ _ (by rw [List.length_map, List.length_range, Layout.pageWords_eq])
    (by rw [List.length_replicate, Layout.maxWords_eq])

end Decoder

end PageCodec
