import PageCodec.Page.Encoder
import PageCodec.Proofs.Packing
import PageCodec.Proofs.Trace

/-!
# The compressed page as one list of words

A page is compressed in five phases that write into one buffer.  What they leave together is the
identifier that was there, the image of the page, and behind it whatever was there.

* `Trace.image` — the words of a compressed page behind its identifier: the rest of the header and
  the four areas, one after another.
* `Trace.encoded` — the tally of a page and the ends of its areas.
* `Encoder.encode_eq` — compressing a page leaves its image in the buffer and changes nothing else.
* `Encoder.encode_of_length_ne`, `Encoder.encode_of_capacity` — a call with wrong lengths is turned
  down and changes nothing.
-/

namespace PageCodec

/-! ## Areas of a buffer -/

namespace Buffer

variable {α : Type} {act : EStateM Stop Buffer α} {front area area' back : Buffer} {a : α}
  {start stop : Nat}

theorem area_append (hstart : front.length = start) (hstop : (front ++ area).length = stop) :
    Buffer.area (front ++ area ++ back) start stop = area := by
  rw [Buffer.area, ← hstop, List.take_left, ← hstart, List.drop_left]

theorem splice_append (hstart : front.length = start) (hstop : (front ++ area).length = stop) :
    splice (front ++ area ++ back) start stop area' = front ++ area' ++ back := by
  rw [splice, ← hstop, List.drop_left, List.append_assoc front, ← hstart, List.take_left]

theorem length_area (b : Buffer) {start stop : Nat} (h : stop ≤ b.length) :
    (b.area start stop).length = stop - start := by
  rw [Buffer.area, List.length_drop, List.length_take, Nat.min_eq_left h]

/-- Two areas that meet are one area together. -/
theorem area_append_area (b : Buffer) {i j k : Nat} (hij : i ≤ j) (hjk : j ≤ k) :
    b.area i j ++ b.area j k = b.area i k := by
  have htake : (b.take k).take j = b.take j := by
    rw [List.take_take, Nat.min_eq_left hjk]
  have hfirst : (b.take j).drop i = ((b.take k).drop i).take (j - i) := by
    rw [← htake, List.drop_take]
  have hsecond : (b.take k).drop j = ((b.take k).drop i).drop (j - i) := by
    rw [List.drop_drop, Nat.add_sub_cancel' hij]
  rw [Buffer.area, Buffer.area, Buffer.area, hfirst, hsecond, List.take_append_drop]

/-- An operation on an area leaves the words around it alone.  The ends of the area are given by
number, as a caller has them. -/
theorem onArea_append (hstart : front.length = start)
    (hstop : (front ++ area).length = stop) (h : act area = .ok a area') :
    onArea start stop act (front ++ area ++ back) = .ok a (front ++ area' ++ back) := by
  have hle : start ≤ stop ∧ stop ≤ (front ++ area ++ back).length := by
    simp only [List.length_append] at hstop ⊢
    omega
  rw [onArea, if_pos hle, area_append hstart hstop, h]
  exact congrArg _ (splice_append hstart hstop)

/-- The last area of a buffer has nothing behind it. -/
theorem onArea_append_last (hstart : front.length = start) (h : act area = .ok a area') :
    onArea start (front ++ area).length act (front ++ area) = .ok a (front ++ area') := by
  have hlast : onArea start (front ++ area).length act (front ++ area ++ []) = _ :=
    onArea_append hstart rfl h
  rwa [List.append_nil, List.append_nil] at hlast

theorem put_append {i : Nat} (hi : i < front.length) (w : Word) :
    put i w (front ++ back) = .ok () (front.set i w ++ back) := by
  have h : i < (front ++ back).length := by
    rw [List.length_append]
    omega
  rw [put, if_pos h, List.set_append_left _ _ hi]

/-- The ends of the areas are put behind the identifier. -/
theorem put_ends {a₀ a₁ a₂ a₃ w₁ w₂ w₃ : Word} (e : α) :
    (put 1 w₁ >>= fun _ => put 2 w₂ >>= fun _ => put 3 w₃ >>= fun _ => pure e)
      ([a₀, a₁, a₂, a₃] ++ back) = .ok e ([a₀, w₁, w₂, w₃] ++ back) := by
  have h₁ : put 1 w₁ ([a₀, a₁, a₂, a₃] ++ back) = .ok () ([a₀, w₁, a₂, a₃] ++ back) :=
    put_append (Nat.lt_of_sub_eq_succ rfl) w₁
  have h₂ : put 2 w₂ ([a₀, w₁, a₂, a₃] ++ back) = .ok () ([a₀, w₁, w₂, a₃] ++ back) :=
    put_append (Nat.lt_of_sub_eq_succ rfl) w₂
  have h₃ : put 3 w₃ ([a₀, w₁, w₂, a₃] ++ back) = .ok () ([a₀, w₁, w₂, w₃] ++ back) :=
    put_append (Nat.lt_of_sub_eq_succ rfl) w₃
  rw [bind_ok h₁, bind_ok h₂, bind_ok h₃]
  rfl

end Buffer

/-! ## The image of a trace -/

namespace Trace

variable (t : Trace)

/-- The words of the tags. -/
def tagArea : List Word := Packing.tags.fill (t.tags.map Tag.code)

/-- The words of the slots. -/
def positionArea : List Word := Packing.positions.fill (t.positions.map Fin.val)

/-- The words of the patterns. -/
def patternArea : List Word := Packing.patterns.fill (t.patterns.map Fin.val)

/-- The tally of a trace and the ends of its areas. -/
def encoded : Encoded where
  tally := .count t.tags
  fullWordsEnd := Layout.fullWordsStart + t.missed.length
  positionsEnd := Layout.fullWordsStart + t.missed.length + t.positionArea.length
  patternsEnd :=
    Layout.fullWordsStart + t.missed.length + t.positionArea.length + t.patternArea.length

/-- The ends of the areas as words. -/
def ends : List Word :=
  [UInt32.ofNat t.encoded.fullWordsEnd, UInt32.ofNat t.encoded.positionsEnd,
    UInt32.ofNat t.encoded.patternsEnd]

/-- The header of a compressed page with a given identifier. -/
def header (algorithm : Word) : Header where
  algorithm := algorithm
  fullWordsEnd := UInt32.ofNat t.encoded.fullWordsEnd
  positionsEnd := UInt32.ofNat t.encoded.positionsEnd
  patternsEnd := UInt32.ofNat t.encoded.patternsEnd

/-- The words of a compressed page behind its identifier. -/
def image : List Word := t.ends ++ t.tagArea ++ t.missed ++ t.positionArea ++ t.patternArea

theorem length_tagArea : t.tagArea.length = t.length ⌈/⌉ Packing.tags.group := by
  rw [tagArea, Packing.length_fill, List.length_map, length_tags]

theorem length_positionArea :
    t.positionArea.length = t.positions.length ⌈/⌉ Packing.positions.group := by
  rw [positionArea, Packing.length_fill, List.length_map]

theorem length_patternArea :
    t.patternArea.length = t.patterns.length ⌈/⌉ Packing.patterns.group := by
  rw [patternArea, Packing.length_fill, List.length_map]

theorem length_encoded : t.encoded.length = Layout.fullWordsStart + t.missed.length
    + t.positionArea.length + t.patternArea.length := rfl

variable {t}

/-- The buffer that is asked for has room for every page. -/
theorem length_encoded_le (h : t.length = Layout.pageWords) :
    t.encoded.length ≤ Layout.maxWords := by
  have hq := t.length_positionArea
  have hl := t.length_patternArea
  have hle := t.length_patterns_le
  have hall := t.length_eq_zero_add
  rw [h] at hall
  simp only [Nat.ceilDiv_eq_add_pred_div, Packing.positions, Packing.patterns] at hq hl
  rw [length_encoded, Layout.fullWordsStart_eq, Layout.maxWords_eq]
  rw [Layout.pageWords_eq] at hall
  omega

/-- So there is room for the areas behind the tags. -/
theorem length_areas_le (h : t.length = Layout.pageWords) {rest : Buffer}
    (hr : Layout.maxWords ≤ Layout.fullWordsStart + rest.length) :
    t.missed.length + t.positionArea.length + t.patternArea.length ≤ rest.length := by
  have hmax := (length_encoded_le h).trans hr
  rw [length_encoded] at hmax
  omega

theorem length_positions_le (h : t.length = Layout.pageWords) :
    t.positions.length ≤ Layout.pageWords := by
  have hall := t.length_eq_zero_add
  omega

/-! ### The header -/

theorem toNat_ends (h : t.length = Layout.pageWords) (algorithm : Word) :
    (t.header algorithm).fullWordsEnd.toNat = t.encoded.fullWordsEnd
      ∧ (t.header algorithm).positionsEnd.toNat = t.encoded.positionsEnd
      ∧ (t.header algorithm).patternsEnd.toNat = t.encoded.patternsEnd := by
  have hmax := length_encoded_le h
  rw [length_encoded, Layout.maxWords_eq] at hmax
  simp only [header, encoded, UInt32.toNat_ofNat']
  omega

theorem wellFormed_header (h : t.length = Layout.pageWords) (algorithm : Word) :
    (t.header algorithm).WellFormed := by
  obtain ⟨hf, hq, hl⟩ := toNat_ends h algorithm
  rw [Header.WellFormed, UInt32.le_iff_toNat_le, UInt32.le_iff_toNat_le, hf, hq, hl]
  simp only [encoded]
  omega

theorem compressedLength_header (h : t.length = Layout.pageWords) (algorithm : Word) :
    (t.header algorithm).compressedLength = t.encoded.length :=
  (toNat_ends h algorithm).2.2

/-- The header is read off the front of the image, whatever stands behind the image. -/
theorem read_image (algorithm : Word) (rest : Buffer) :
    Header.read (algorithm :: t.image ++ rest) = .ok (t.header algorithm) := rfl

/-! ### The areas

They are told apart by their ends, whatever the words in front of the tags are and whatever stands
behind the image. -/

section Front

variable {front : List Word} (hf : front.length = Layout.tagsStart)
  (h : t.length = Layout.pageWords)

include hf h

theorem length_to_tagArea : (front ++ t.tagArea).length = Layout.fullWordsStart := by
  rw [List.length_append, hf, length_tagArea, h]
  rfl

theorem length_to_missed : (front ++ t.tagArea ++ t.missed).length = t.encoded.fullWordsEnd := by
  rw [List.length_append, length_to_tagArea hf h]
  rfl

theorem length_to_positionArea :
    (front ++ t.tagArea ++ t.missed ++ t.positionArea).length = t.encoded.positionsEnd := by
  rw [List.length_append, length_to_missed hf h]
  rfl

end Front

section Areas

variable (h : t.length = Layout.pageWords) (algorithm : Word) (rest : Buffer)

include h

theorem length_cons_image : (algorithm :: t.image).length = t.encoded.length := by
  have himage : algorithm :: t.image = algorithm :: t.ends ++ t.tagArea ++ t.missed
    ++ t.positionArea ++ t.patternArea := rfl
  rw [himage, List.length_append, length_to_positionArea rfl h]
  rfl

theorem area_tags :
    Buffer.area (algorithm :: t.image ++ rest) Layout.tagsStart Layout.fullWordsStart
      = t.tagArea := by
  have hb : algorithm :: t.image ++ rest = algorithm :: t.ends ++ t.tagArea
      ++ (t.missed ++ t.positionArea ++ t.patternArea ++ rest) := by
    simp only [image, List.cons_append, List.append_assoc]
  rw [hb]
  exact Buffer.area_append rfl (length_to_tagArea rfl h)

theorem area_fullWords :
    Buffer.area (algorithm :: t.image ++ rest) Layout.fullWordsStart t.encoded.fullWordsEnd
      = t.missed := by
  have hb : algorithm :: t.image ++ rest = algorithm :: t.ends ++ t.tagArea ++ t.missed
      ++ (t.positionArea ++ t.patternArea ++ rest) := by
    simp only [image, List.cons_append, List.append_assoc]
  rw [hb]
  exact Buffer.area_append (length_to_tagArea rfl h) (length_to_missed rfl h)

theorem area_positions :
    Buffer.area (algorithm :: t.image ++ rest) t.encoded.fullWordsEnd t.encoded.positionsEnd
      = t.positionArea := by
  have hb : algorithm :: t.image ++ rest = algorithm :: t.ends ++ t.tagArea ++ t.missed
      ++ t.positionArea ++ (t.patternArea ++ rest) := by
    simp only [image, List.cons_append, List.append_assoc]
  rw [hb]
  exact Buffer.area_append (length_to_missed rfl h) (length_to_positionArea rfl h)

theorem area_patterns :
    Buffer.area (algorithm :: t.image ++ rest) t.encoded.positionsEnd t.encoded.length
      = t.patternArea := by
  have hb : algorithm :: t.image ++ rest = algorithm :: t.ends ++ t.tagArea ++ t.missed
      ++ t.positionArea ++ t.patternArea ++ rest := rfl
  rw [hb]
  exact Buffer.area_append (length_to_positionArea rfl h) (length_cons_image h algorithm)

end Areas

end Trace

namespace Encoder

variable {page : List Word} {b : Buffer}

/-- The trace of a page on its own. -/
def trace (page : List Word) : Trace := Dictionary.new.trace page

theorem length_trace (hp : page.length = Layout.pageWords) :
    (trace page).length = Layout.pageWords := by
  rw [trace, Dictionary.length_trace, hp]

theorem length_cons_image (hp : page.length = Layout.pageWords) (algorithm : Word) :
    (algorithm :: (trace page).image).length = (trace page).encoded.length :=
  Trace.length_cons_image (length_trace hp) algorithm

/-! ## Calls that are turned down -/

theorem encode_of_length_ne (h : page.length ≠ Layout.pageWords) :
    encode page b = .error (.rejected (.pageLength Layout.pageWords page.length)) b :=
  if_pos h

theorem encode_of_capacity (hp : page.length = Layout.pageWords) (hb : b.length < Layout.maxWords) :
    encode page b = .error (.rejected (.capacity Layout.maxWords b.length)) b := by
  rw [encode, if_neg (not_not.2 hp), if_pos hb]

/-! ## The writing phases -/

/-- The full words go to the front of the buffer that a scan is given. -/
theorem scan_eq (hp : page.length = Layout.pageWords) (hb : Layout.pageWords ≤ b.length) :
    scan page b = .ok (.count (trace page).tags, (trace page).streams)
      ((trace page).missed ++ b.drop (trace page).missed.length) := by
  rw [scan, Scan.page_eq .new hp hb]
  rfl

/-- The tags of a page fill their area. -/
theorem pack_tags_eq (hp : page.length = Layout.pageWords) (hb : b.length = Layout.tagWords) :
    Packing.tags.pack (trace page).streams.tagCodes b
      = .ok Layout.tagWords (trace page).tagArea := by
  have hlen : (trace page).streams.tagCodes.length = Layout.pageWords := by
    rw [Streams.tagCodes, List.length_map, Trace.streams, List.toList_toArray, Trace.length_tags,
      length_trace hp]
  have hcount : (trace page).streams.tagCodes.length ⌈/⌉ Packing.tags.group = Layout.tagWords := by
    rw [hlen]
    rfl
  have hpad : Layout.pad Packing.tags.group (trace page).streams.tagCodes
      = (trace page).streams.tagCodes :=
    Packing.pad_of_dvd Packing.tags.group_pos (by rw [hlen]; decide)
  have hpack := Packing.tags.pack_pad (Nat.le_of_eq (hcount.trans hb.symm))
  rw [hpad, hcount, Buffer.overlay, Packing.length_fill, hcount, ← hb, List.drop_length,
    List.append_nil] at hpack
  rw [hpack, hb]
  rfl

/-- A run that fits a page is filled up and goes to where the words before it end. -/
theorem packFrom_eq (packing : Packing) {start : Nat} {run : List Nat} {front rest : Buffer}
    (hs : front.length = start) (hrun : run.length ≤ Layout.pageWords)
    (hr : (packing.fill run).length ≤ rest.length) :
    packFrom packing start
        (Layout.pad? (Layout.roundUp Layout.pageWords packing.group) packing.group run)
        (front ++ rest)
      = .ok (start + (packing.fill run).length)
        (front ++ packing.fill run ++ rest.drop (packing.fill run).length) := by
  have hroom : Layout.roundUp run.length packing.group
      ≤ Layout.roundUp Layout.pageWords packing.group :=
    Layout.roundUp_le packing.group_pos
      (hrun.trans (Layout.le_roundUp packing.group_pos _)) (Layout.dvd_roundUp ..)
  rw [packing.length_fill] at hr ⊢
  have hpack : Buffer.onArea start (front ++ rest).length
      (packing.pack (Layout.pad packing.group run)) (front ++ rest) = _ :=
    Buffer.onArea_append_last hs (packing.pack_pad hr)
  rw [Layout.pad?, if_pos hroom]
  show (Buffer.onArea start (front ++ rest).length (packing.pack (Layout.pad packing.group run))
    >>= fun count => pure (start + count)) (front ++ rest) = _
  rw [bind_ok hpack, Buffer.overlay, packing.length_fill, ← List.append_assoc]
  rfl

theorem packFrom_positions {t : Trace} {front rest : Buffer} (h : t.length = Layout.pageWords)
    (hf : front.length = t.encoded.fullWordsEnd) (hr : t.positionArea.length ≤ rest.length) :
    packFrom .positions t.encoded.fullWordsEnd t.streams.paddedPositions? (front ++ rest)
      = .ok t.encoded.positionsEnd
        (front ++ t.positionArea ++ rest.drop t.positionArea.length) := by
  refine packFrom_eq .positions hf ?_ hr
  rw [Streams.positionNumbers, List.length_map]
  exact Trace.length_positions_le h

theorem packFrom_patterns {t : Trace} {front rest : Buffer} (h : t.length = Layout.pageWords)
    (hf : front.length = t.encoded.positionsEnd) (hr : t.patternArea.length ≤ rest.length) :
    packFrom .patterns t.encoded.positionsEnd t.streams.paddedPatterns? (front ++ rest)
      = .ok t.encoded.patternsEnd (front ++ t.patternArea ++ rest.drop t.patternArea.length) := by
  refine packFrom_eq .patterns hf ?_ hr
  rw [Streams.patternNumbers, List.length_map]
  exact t.length_patterns_le.trans (Trace.length_positions_le h)

/-- A buffer in which the first 68 words are told apart is written to area by area. -/
theorem writeAreas_eq {a₀ a₁ a₂ a₃ : Word} {area rest : Buffer}
    (hp : page.length = Layout.pageWords) (ha : area.length = Layout.tagWords)
    (hr : Layout.maxWords ≤ Layout.fullWordsStart + rest.length) :
    writeAreas page ([a₀, a₁, a₂, a₃] ++ area ++ rest)
      = .ok (trace page).encoded ([a₀] ++ (trace page).image
        ++ rest.drop ((trace page).encoded.length - Layout.fullWordsStart)) := by
  have hlen := length_trace hp
  have hareas := Trace.length_areas_le hlen hr
  have hheader : [a₀, a₁, a₂, a₃].length = Layout.tagsStart := rfl
  have hfront : ([a₀, a₁, a₂, a₃] ++ area).length = Layout.fullWordsStart := by
    rw [List.length_append, ha]
    rfl
  have hrest : Layout.pageWords ≤ rest.length :=
    Nat.le_of_add_le_add_left ((by decide : _ ≤ Layout.maxWords).trans hr)
  have hmiss : Layout.fullWordsStart + (Tally.count (trace page).tags).miss
      = (trace page).encoded.fullWordsEnd :=
    congrArg _ (trace page).length_missed.symm
  have hscan := Buffer.onArea_append_last hfront (scan_eq hp hrest)
  have hpack := pack_tags_eq hp ha
  generalize trace page = t at *
  -- each phase ends with the words that the next one finds in front of its area
  have htags : Buffer.onArea Layout.tagsStart Layout.fullWordsStart
      (Packing.tags.pack t.streams.tagCodes)
      ([a₀, a₁, a₂, a₃] ++ area ++ (t.missed ++ rest.drop t.missed.length)) = _ :=
    Buffer.onArea_append hheader hfront hpack
  rw [← List.append_assoc ([a₀, a₁, a₂, a₃] ++ t.tagArea)] at htags
  have hroom : t.positionArea.length ≤ (rest.drop t.missed.length).length := by
    rw [List.length_drop]
    omega
  have hroom' : t.patternArea.length
      ≤ ((rest.drop t.missed.length).drop t.positionArea.length).length := by
    rw [List.length_drop, List.length_drop]
    omega
  have hpositions := packFrom_positions hlen (Trace.length_to_missed hheader hlen) hroom
  have hpatterns := packFrom_patterns hlen (Trace.length_to_positionArea hheader hlen) hroom'
  have hdrop : t.encoded.length - Layout.fullWordsStart
      = t.missed.length + (t.positionArea.length + t.patternArea.length) := by
    rw [Trace.length_encoded]
    omega
  unfold writeAreas
  rw [bind_get, bind_ok hscan]
  dsimp only
  rw [bind_ok htags, hmiss, bind_ok hpositions, bind_ok hpatterns, List.drop_drop, List.drop_drop,
    ← hdrop]
  simp only [List.append_assoc]
  rw [Buffer.put_ends, Trace.image, Trace.ends]
  simp only [List.append_assoc, List.cons_append, List.nil_append]
  rfl

/-! ## The whole call -/

/-- A buffer with room for any page has a word for the identifier. -/
theorem exists_cons (hb : Layout.maxWords ≤ b.length) : ∃ algorithm rest, b = algorithm :: rest :=
  List.exists_cons_of_length_pos (Nat.lt_of_lt_of_le (by decide) hb)

/-- A buffer with room for any page has a header, an area for tags and room for the rest. -/
theorem exists_split (hb : Layout.maxWords ≤ b.length) :
    ∃ a₀ a₁ a₂ a₃ area rest, b = [a₀, a₁, a₂, a₃] ++ area ++ rest
      ∧ area.length = Layout.tagWords ∧ Layout.maxWords ≤ Layout.fullWordsStart + rest.length := by
  rw [Layout.maxWords_eq] at hb
  match b, hb with
  | a₀ :: a₁ :: a₂ :: a₃ :: rest, hb =>
    refine ⟨a₀, a₁, a₂, a₃, rest.take Layout.tagWords, rest.drop Layout.tagWords, ?_, ?_, ?_⟩
    · rw [List.append_assoc, List.take_append_drop]
      rfl
    · simp only [List.length_cons] at hb
      rw [List.length_take, Layout.tagWords_eq]
      omega
    · simp only [List.length_cons] at hb
      rw [List.length_drop, Layout.tagWords_eq, Layout.maxWords_eq, Layout.fullWordsStart_eq]
      omega

/-- Compressing a page leaves its image behind the identifier and keeps all other words. -/
theorem encode_eq {algorithm : Word} (hp : page.length = Layout.pageWords)
    (hb : Layout.maxWords ≤ (algorithm :: b).length) :
    encode page (algorithm :: b) = .ok (trace page).encoded
      (algorithm :: (trace page).image ++ b.drop (trace page).image.length) := by
  have hlen : (trace page).image.length + 1 = (trace page).encoded.length :=
    length_cons_image hp algorithm
  rw [encode, if_neg (not_not.2 hp), if_neg (Nat.not_lt.2 hb)]
  obtain ⟨a₀, a₁, a₂, a₃, area, rest, hsplit, harea, hroom⟩ := exists_split hb
  obtain ⟨rfl, rfl⟩ := List.cons_eq_cons.1 hsplit
  have hfront : ([a₁, a₂, a₃] ++ area).length + 1 = Layout.fullWordsStart := by
    rw [List.length_append, harea]
    rfl
  have hdrop : ([a₁, a₂, a₃] ++ area ++ rest).drop (trace page).image.length
      = rest.drop ((trace page).encoded.length - Layout.fullWordsStart) := by
    rw [Trace.length_encoded] at hlen
    rw [List.drop_append, List.drop_eq_nil_of_le (by omega), List.nil_append]
    congr 1
    rw [Trace.length_encoded]
    omega
  exact (writeAreas_eq hp harea hroom).trans (by rw [← hdrop]; rfl)

theorem encodeLength_eq {b b' : Buffer} {e : Encoded} (h : encode page b = .ok e b') :
    encodeLength page b = .ok e.length b' := by
  show EStateM.map Encoded.length (encode page) b = _
  rw [EStateM.map, h]

end Encoder

end PageCodec
