import PageCodec.Proofs.History
import PageCodec.Proofs.Places

/-!
# Slots are independent of each other

Words of different slots never meet in the dictionary, and zero words are never stored there,
although they share a slot with others.  So what becomes of the nonzero words of a slot is settled
by these words alone, however the other words are put in between.  Two pages that have the same
nonzero words in each slot, in the same order, differ in nothing but the order in which their words
are written down.

* `Word.ofSlot`, `Trace.ofSlot` — the nonzero words of a slot, without and with their tags.
* `Word.SameSlots` — two runs have the same words in each slot.
* `Dictionary.ofSlot_trace` — the words of a slot have the tags that they would have alone.
* `Encoder.trace_perm` — pages with the same words in each slot have the same words with the same
  tags, in some order.
* `Encoder.SameButOrder` — what this means for compressing them.
* `Encoder.encode_interleaved` — pages with the same words in each slot differ in nothing else.
-/

namespace PageCodec

/-! ## The words of a slot -/

namespace Word

/-- The nonzero words of a slot, in order. -/
def ofSlot (s : Slot) (ws : List Word) : List Word := ws.filter fun w => w ≠ 0 ∧ w.slot = s

theorem ofSlot_append (s : Slot) (p q : List Word) :
    ofSlot s (p ++ q) = ofSlot s p ++ ofSlot s q :=
  List.filter_append ..

theorem ofSlot_zeros (s : Slot) (n : Nat) : ofSlot s (List.replicate n 0) = [] := by
  simp [ofSlot]

/-- In each slot there are the same nonzero words, in the same order. -/
def SameSlots (p q : List Word) : Prop := ∀ s, ofSlot s p = ofSlot s q

end Word

namespace Trace

/-- The nonzero words with their tags, in order. -/
def nonzero (t : Trace) : Trace := t.filter fun a => a.2 ≠ 0

/-- The nonzero words of a slot with their tags, in order. -/
def ofSlot (s : Slot) (t : Trace) : Trace := t.filter fun a => a.2 ≠ 0 ∧ a.2.slot = s

theorem ofSlot_eq (s : Slot) (t : Trace) : t.ofSlot s = t.nonzero.filter fun a => a.2.slot = s := by
  simp [ofSlot, nonzero, List.filter_filter, Bool.and_comm]

/-- A word is counted in its slot, so the slots together settle which words there are. -/
theorem nonzero_perm {t u : Trace} (h : ∀ s, t.ofSlot s = u.ofSlot s) :
    t.nonzero.Perm u.nonzero := by
  rw [List.perm_iff_count]
  intro a
  have hslot := congrArg (List.count a) (h a.2.slot)
  rwa [ofSlot_eq, ofSlot_eq, List.count_filter (by simp), List.count_filter (by simp)] at hslot

/-- Besides the nonzero words there are only zero words, and of these only the number counts. -/
theorem nonzero_append_perm {t : Trace} (h : ∀ a ∈ t, a.1 = .zero ↔ a.2 = 0) :
    (t.nonzero ++ List.replicate (t.length - t.nonzero.length) (Tag.zero, 0)).Perm t := by
  have hsplit : (t.nonzero ++ t.filter fun a => !decide (a.2 ≠ 0)).Perm t :=
    List.filter_append_perm _ t
  have hzeros : (t.filter fun a => !decide (a.2 ≠ 0))
      = List.replicate (t.length - t.nonzero.length) (Tag.zero, 0) := by
    rw [List.eq_replicate_iff]
    constructor
    · have hlen := hsplit.length_eq
      rw [List.length_append] at hlen
      omega
    · rintro ⟨tag, w⟩ ha
      obtain ⟨hmem, hw⟩ := List.mem_filter.1 ha
      obtain rfl : w = 0 := by simpa using hw
      obtain rfl : tag = .zero := (h _ hmem).2 rfl
      rfl
  rwa [hzeros] at hsplit

/-- Of the tags only their number counts for where the areas of a compressed page end. -/
theorem encoded_eq_of_perm {s t : Trace} (h : s.Perm t) : s.encoded = t.encoded := by
  have htags : s.tags.Perm t.tags := h.map Prod.fst
  apply encoded_eq_of_count
  simp only [Tally.count, htags.count_eq]

theorem missed_perm {s t : Trace} (h : s.Perm t) : s.missed.Perm t.missed := (h.filter _).map _

end Trace

/-! ## What a dictionary makes of the words of a slot -/

/-- What a dictionary remembers at a slot and the words of the slot settle their tags.  The other
words of the run may be any, and there may be as many zero words as one likes. -/
theorem Dictionary.ofSlot_trace {d e : Dictionary} {s : Slot} (h : e.get s = d.get s)
    (ws : List Word) : (d.trace ws).ofSlot s = e.trace (Word.ofSlot s ws) := by
  induction ws generalizing d e with
  | nil => rfl
  | cons w ws ih =>
    rw [Word.ofSlot, trace, Trace.ofSlot]
    by_cases hw : w ≠ 0 ∧ w.slot = s
    · have htag : e.tag w = d.tag w := by
        rw [tag, tag, hw.2, h]
      have hsee : (e.see w).get s = (d.see w).get s := by
        rw [get_see, get_see, if_pos hw, if_pos hw]
      rw [List.filter_cons_of_pos (by simpa using hw), List.filter_cons_of_pos (by simpa using hw),
        trace, htag]
      exact congrArg _ (ih hsee)
    · have hsee : e.get s = (d.see w).get s := by
        rw [get_see, if_neg hw, h]
      rw [List.filter_cons_of_neg (by simpa using hw), List.filter_cons_of_neg (by simpa using hw)]
      exact ih hsee

/-! ## Two pages with the same words in each slot -/

namespace Encoder

variable {p q : List Word}

theorem ofSlot_trace_eq (h : Word.SameSlots p q) (s : Slot) :
    (trace p).ofSlot s = (trace q).ofSlot s := by
  rw [trace, trace, Dictionary.ofSlot_trace rfl, Dictionary.ofSlot_trace rfl, h s]

/-- A dictionary remembers the last of the nonzero words of a slot, which is the same in both. -/
theorem seeAll_eq (h : Word.SameSlots p q) : Dictionary.new.seeAll p = Dictionary.new.seeAll q := by
  apply Dictionary.ext_get
  intro s
  rw [Dictionary.Remembers.new.seeAll p s, Dictionary.Remembers.new.seeAll q s]
  exact congrArg (fun ws : List Word => ws.getLast?.getD Dictionary.sentinel) (h s)

theorem trace_perm (h : Word.SameSlots p q) (hlen : p.length = q.length) :
    (trace p).Perm (trace q) := by
  have hzero : ∀ page, ∀ a ∈ trace page, a.1 = .zero ↔ a.2 = 0 :=
    fun page a ha => Dictionary.Remembers.new.tag_eq_zero_iff ha
  have hnonzero := Trace.nonzero_perm (ofSlot_trace_eq h)
  have hp := Trace.nonzero_append_perm (hzero p)
  have hq := Trace.nonzero_append_perm (hzero q)
  have hlength : (trace p).length = (trace q).length := by
    rw [trace, trace, Dictionary.length_trace, Dictionary.length_trace, hlen]
  rw [hnonzero.length_eq, hlength] at hp
  exact hp.symm.trans ((hnonzero.append_right _).trans hq)

/-- Two pages that are scanned and compressed the same but for the order of what is written down. -/
structure SameButOrder (p q : List Word) (b c full room : Buffer) (e : Encoded) (b' c' : Buffer)
    (ws vs : Workspace) : Prop where
  /-- The first page is compressed. -/
  first : encode p b = .ok e b'
  /-- The second page is compressed to the same length, with the same tally. -/
  second : encode q c = .ok e c'
  /-- The ends in the headers are the same. -/
  ends : b'.area 1 Layout.headerWords = c'.area 1 Layout.headerWords
  /-- The full words are the same in some order. -/
  fullWords : (b'.area Layout.fullWordsStart e.fullWordsEnd).Perm
    (c'.area Layout.fullWordsStart e.fullWordsEnd)
  /-- This is what scanning the first page leaves. -/
  scan_first : Scan.page p ⟨.new, .empty, full⟩ = .ok e.tally ws
  /-- This is what scanning the second page leaves. -/
  scan_second : Scan.page q ⟨.new, .empty, room⟩ = .ok e.tally vs
  /-- The scans end with the same dictionary. -/
  dictionary : ws.dictionary = vs.dictionary
  /-- Every word of the first page has a tag. -/
  tags_first : ws.streams.tags.size = Layout.pageWords
  /-- Every word of the second page has a tag. -/
  tags_second : vs.streams.tags.size = Layout.pageWords
  /-- The words of each slot get the same tags, one after another. -/
  slots : ∀ s, Trace.ofSlot s (ws.streams.tags.toList.zip p)
    = Trace.ofSlot s (vs.streams.tags.toList.zip q)

/-- **Independent slots.**  Two pages with the same nonzero words in each slot, in the same order,
are compressed to the same length with the same tally and the same ends in the header, and their
full words are the same in some order.  Scanning them ends with the same dictionary and tags every
word, and the words of each slot get the same tags, one after another. -/
theorem encode_interleaved (p q : List Word) (b c full room : Buffer)
    (hp : p.length = Layout.pageWords) (hq : q.length = Layout.pageWords)
    (h : Word.SameSlots p q) (hb : Layout.maxWords ≤ b.length) (hc : Layout.maxWords ≤ c.length)
    (hf : Layout.pageWords ≤ full.length) (hr : Layout.pageWords ≤ room.length) :
    ∃ e b' c' ws vs, SameButOrder p q b c full room e b' c' ws vs := by
  obtain ⟨algorithm, b, rfl⟩ := exists_cons hb
  obtain ⟨algorithm', c, rfl⟩ := exists_cons hc
  have hperm := trace_perm h (hp.trans hq.symm)
  have hencoded := Trace.encoded_eq_of_perm hperm
  have hcall := encode_eq hq hc
  have hscan := Scan.page_eq .new hq hr
  have htally : Tally.count (trace p).tags = Tally.count (trace q).tags :=
    congrArg Encoded.tally hencoded
  rw [← hencoded] at hcall
  rw [← trace, ← htally] at hscan
  refine ⟨_, _, _, _, _, encode_eq hp hb, hcall, ?_, ?_, Scan.page_eq .new hp hf, hscan,
    seeAll_eq h, ?_, ?_, ?_⟩
  · rw [Trace.area_ends, Trace.area_ends, Trace.ends, Trace.ends, hencoded]
  · rw [Trace.area_fullWords (length_trace hp), hencoded, Trace.area_fullWords (length_trace hq)]
    exact Trace.missed_perm hperm
  · exact (Trace.length_tags _).trans (length_trace hp)
  · exact (Trace.length_tags _).trans (length_trace hq)
  · intro s
    show Trace.ofSlot s ((trace p).tags.zip p) = Trace.ofSlot s ((trace q).tags.zip q)
    rw [trace, trace, Dictionary.zip_tags_trace, Dictionary.zip_tags_trace]
    exact ofSlot_trace_eq h s

/-- Two words of one slot and a word of the slot of zero, which stand before zeros in one page and
around them in another order in the other. -/
theorem encode_interleaved_zeros :
    ∃ e b' c' ws vs, SameButOrder ([5, 1024, 1030] ++ List.replicate 1021 0)
      ([1024] ++ List.replicate 1021 0 ++ [1030, 5]) (List.replicate 1562 0)
      (List.replicate 1600 7) (List.replicate 1024 0) (List.replicate 1100 1) e b' c' ws vs := by
  have hslots : ∀ s, Word.ofSlot s [5, 1024, 1030]
      = Word.ofSlot s [1024] ++ Word.ofSlot s [1030, 5] := by
    decide +kernel
  apply encode_interleaved
  · rw [List.length_append, List.length_replicate]
    rfl
  · rw [List.length_append, List.length_append, List.length_replicate]
    rfl
  · intro s
    simp only [Word.ofSlot_append, Word.ofSlot_zeros, List.append_nil, hslots]
  all_goals
    rw [List.length_replicate]
    decide

end Encoder

end PageCodec
