import Mathlib.Order.Bounds.Basic
import PageCodec.Proofs.Tape
import PageCodec.Proofs.Trace

/-!
# Dictionaries and streams in use

A dictionary and streams can be kept for any number of pages.  A second page on the same streams
stops at its first word, and what was done for that word before the stop stays; so slots and
patterns can grow under a full stream of tags, and it takes their order to see that they never grow
past their cells.

* `Bench` — a dictionary and three streams in their cells.
* `Bench.perform`, `Bench.reach`, `Bench.answers` — one operation and a run of operations.
* `Bench.Sound` — how full the tapes can be; kept by one operation in `Bench.sound_perform` and by a
  run in `Bench.sound_reach`.
* `Bench.ReadsLike` — benches that differ in cells behind the symbols at most; they answer alike
  (`Bench.answers_of_readsLike`).
* `Bench.scan_of_idle`, `Bench.scan_of_blocked`, `Bench.scan_of_interrupted` — pages.
* `Bench.Orderly`, `Bench.reach_orderly` — what can be said of a bench after any run of operations.
-/

namespace PageCodec

/-- A dictionary and streams that are kept from one operation to the next. -/
structure Bench where
  /-- The words remembered so far. -/
  dictionary : Dictionary
  /-- The tags and their cells. -/
  tags : Tape Tag
  /-- The slots and their cells. -/
  positions : Tape Slot
  /-- The patterns and their cells. -/
  patterns : Tape Pattern

namespace Bench

/-- A new dictionary and new streams. -/
def new : Bench where
  dictionary := .new
  tags := .new Streams.tagRoom .zero
  positions := .new Streams.positionRoom (.ofNat 0)
  patterns := .new Streams.patternRoom (.ofNat 0)

/-- The streams without what lies behind them. -/
def streams (b : Bench) : Streams :=
  ⟨b.tags.symbols.toArray, b.positions.symbols.toArray, b.patterns.symbols.toArray⟩

/-! ## Operations -/

/-- What can be done with a bench. -/
inductive Operation where
  /-- Scan a page, with a buffer for its full words. -/
  | page (words : List Word) (full : Buffer)
  /-- Store a word at a slot given by number. -/
  | update (n : Nat) (w : Word)
  /-- Take a new dictionary. -/
  | newDictionary
  /-- Take new streams. -/
  | newStreams
  /-- Read the slots filled up with zeros. -/
  | padPositions
  /-- Read the patterns filled up with zeros. -/
  | padPatterns
  /-- Read the tags. -/
  | readTags
  /-- Read the slots. -/
  | readPositions
  /-- Read the patterns. -/
  | readPatterns

/-- What an operation answers. -/
inductive Answer where
  /-- Nothing but that it is done. -/
  | done
  /-- A place that is not there was asked for. -/
  | stopped
  /-- What scanning a page comes to, and the buffer for the full words as it was left. -/
  | scanned (result : Except Stop Tally) (full : Buffer)
  /-- The symbols that were read. -/
  | symbols (run : List Nat)

/-- The bench on which a scan has left this. -/
def leave (b : Bench) (dictionary : Dictionary) (streams : Streams) : Bench where
  dictionary := dictionary
  tags := b.tags.write streams.tags.toList
  positions := b.positions.write streams.positions.toList
  patterns := b.patterns.write streams.patterns.toList

/-- Scans a page.  What a scan has done before it stops stays done. -/
def scan (words : List Word) (full : Buffer) (b : Bench) : Answer × Bench :=
  match Scan.page words ⟨b.dictionary, b.streams, full⟩ with
  | .ok tally ws => (.scanned (.ok tally) ws.fullWords, b.leave ws.dictionary ws.streams)
  | .error stop ws => (.scanned (.error stop) ws.fullWords, b.leave ws.dictionary ws.streams)

/-- Reads a stream filled up to whole groups, and keeps the tape on which this was done. -/
def pad {n : Nat} (packing : Packing) (blank : Fin n) (t : Tape (Fin n))
    (keep : Tape (Fin n) → Bench) (b : Bench) : Answer × Bench :=
  match t.fill? packing.group blank with
  | some (run, t) => (.symbols (run.map Fin.val), keep t)
  | none => (.stopped, b)

/-- What an operation answers and the bench that it leaves. -/
def perform : Operation → Bench → Answer × Bench
  | .page words full, b => b.scan words full
  | .update n w, b =>
    match b.dictionary.update? n w with
    | some dictionary => (.done, { b with dictionary })
    | none => (.stopped, b)
  | .newDictionary, b => (.done, { b with dictionary := .new })
  | .newStreams, b => (.done, { new with dictionary := b.dictionary })
  | .padPositions, b =>
    pad .positions (Slot.ofNat 0) b.positions (fun positions => { b with positions }) b
  | .padPatterns, b =>
    pad .patterns (Pattern.ofNat 0) b.patterns (fun patterns => { b with patterns }) b
  | .readTags, b => (.symbols b.streams.tagCodes, b)
  | .readPositions, b => (.symbols b.streams.positionNumbers, b)
  | .readPatterns, b => (.symbols b.streams.patternNumbers, b)

/-- The bench after a run of operations. -/
def reach : List Operation → Bench → Bench
  | [], b => b
  | op :: ops, b => reach ops (perform op b).2

/-- What a run of operations answers. -/
def answers : List Operation → Bench → List Answer
  | [], _ => []
  | op :: ops, b => (perform op b).1 :: answers ops (perform op b).2

/-! ## Benches that answer alike -/

variable {b c : Bench}

/-- The benches have the same dictionary and the same streams, and differ in the cells behind the
streams at most. -/
structure ReadsLike (b c : Bench) : Prop where
  /-- The dictionaries are the same. -/
  dictionary : b.dictionary = c.dictionary
  /-- The tags are the same. -/
  tags : b.tags.SameButStale c.tags
  /-- The slots are the same. -/
  positions : b.positions.SameButStale c.positions
  /-- The patterns are the same. -/
  patterns : b.patterns.SameButStale c.patterns

theorem ReadsLike.refl (b : Bench) : b.ReadsLike b := ⟨rfl, .refl _, .refl _, .refl _⟩

theorem ReadsLike.streams (h : b.ReadsLike c) : b.streams = c.streams := by
  rw [Bench.streams, h.tags.symbols, h.positions.symbols, h.patterns.symbols]
  rfl

theorem ReadsLike.leave (h : b.ReadsLike c) (d : Dictionary) (s : Streams) :
    (b.leave d s).ReadsLike (c.leave d s) :=
  ⟨rfl, h.tags.write _, h.positions.write _, h.patterns.write _⟩

theorem pad_readsLike {n : Nat} {packing : Packing} {t u : Tape (Fin n)}
    {keep keep' : Tape (Fin n) → Bench} (ht : t.SameButStale u)
    (hkeep : ∀ t u, t.SameButStale u → (keep t).ReadsLike (keep' u)) (h : b.ReadsLike c)
    (blank : Fin n) :
    (pad packing blank t keep b).1 = (pad packing blank u keep' c).1
      ∧ (pad packing blank t keep b).2.ReadsLike (pad packing blank u keep' c).2 := by
  have hfill := ht.fill? packing.group_pos blank
  unfold pad
  revert hfill
  generalize t.fill? packing.group blank = x, u.fill? packing.group blank = y
  rintro (⟨hrun, hrest⟩ | _)
  · exact ⟨congrArg (fun run => Answer.symbols (run.map Fin.val)) hrun, hkeep _ _ hrest⟩
  · exact ⟨rfl, h⟩

theorem readsLike_pad {n : Nat} {packing : Packing} {blank : Fin n} {t : Tape (Fin n)}
    {keep : Tape (Fin n) → Bench} (hkeep : ∀ u, t.SameButStale u → b.ReadsLike (keep u)) :
    b.ReadsLike (pad packing blank t keep b).2 := by
  unfold pad
  split
  · exact hkeep _ (Tape.sameButStale_of_fill? packing.group_pos ‹_›)
  · exact .refl b

/-- Reading the slots filled up changes nothing but what lies behind them. -/
theorem readsLike_padPositions (b : Bench) : b.ReadsLike (perform .padPositions b).2 :=
  readsLike_pad fun _ hu => ⟨rfl, .refl _, hu, .refl _⟩

/-- Reading the patterns filled up changes nothing but what lies behind them. -/
theorem readsLike_padPatterns (b : Bench) : b.ReadsLike (perform .padPatterns b).2 :=
  readsLike_pad fun _ hu => ⟨rfl, .refl _, .refl _, hu⟩

/-- An operation answers the same on benches that are alike, and leaves them alike. -/
theorem perform_readsLike (h : b.ReadsLike c) (op : Operation) :
    (perform op b).1 = (perform op c).1 ∧ (perform op b).2.ReadsLike (perform op c).2 := by
  cases op with
  | page words full =>
    simp only [perform, scan, h.dictionary, h.streams]
    split <;> exact ⟨rfl, h.leave ..⟩
  | update n w =>
    simp only [perform, h.dictionary]
    split
    · exact ⟨rfl, rfl, h.tags, h.positions, h.patterns⟩
    · exact ⟨rfl, h⟩
  | newDictionary => exact ⟨rfl, rfl, h.tags, h.positions, h.patterns⟩
  | newStreams => exact ⟨rfl, h.dictionary, .refl _, .refl _, .refl _⟩
  | padPositions =>
    have hkeep : ∀ t u, t.SameButStale u →
        ReadsLike { b with positions := t } { c with positions := u } :=
      fun t u htu => ⟨h.dictionary, h.tags, htu, h.patterns⟩
    exact pad_readsLike h.positions hkeep h _
  | padPatterns =>
    have hkeep : ∀ t u, t.SameButStale u →
        ReadsLike { b with patterns := t } { c with patterns := u } :=
      fun t u htu => ⟨h.dictionary, h.tags, h.positions, htu⟩
    exact pad_readsLike h.patterns hkeep h _
  | readTags => exact ⟨by simp only [perform, h.streams], h⟩
  | readPositions => exact ⟨by simp only [perform, h.streams], h⟩
  | readPatterns => exact ⟨by simp only [perform, h.streams], h⟩

/-- A run of operations answers the same on benches that are alike. -/
theorem answers_of_readsLike (h : b.ReadsLike c) (ops : List Operation) :
    answers ops b = answers ops c := by
  induction ops generalizing b c with
  | nil => rfl
  | cons op ops ih =>
    obtain ⟨hanswer, hrest⟩ := perform_readsLike h op
    rw [answers, answers, hanswer, ih hrest]

/-! ## How full the tapes can be -/

/-- What holds of a bench at all times.  Since a slot is written down for every pattern, and before
it, there is never a pattern for which there is no cell. -/
structure Sound (b : Bench) : Prop where
  /-- The tags keep their cells. -/
  tagCells : b.tags.cells.length = Streams.tagRoom
  /-- The slots keep their cells. -/
  positionCells : b.positions.cells.length = Streams.positionRoom
  /-- The patterns keep their cells. -/
  patternCells : b.patterns.cells.length = Streams.patternRoom
  /-- There are tags for no page or for one. -/
  tags : b.tags.symbols.length = 0 ∨ b.tags.symbols.length = Layout.pageWords
  /-- There are no slots without tags. -/
  idle : b.tags.symbols.length = 0 → b.positions.symbols.length = 0
  /-- There are no more patterns than slots. -/
  patterns_le : b.patterns.symbols.length ≤ b.positions.symbols.length
  /-- There are no more slots than a page has words. -/
  positions_le : b.positions.symbols.length ≤ Layout.pageWords

theorem sound_new : Sound new where
  tagCells := Tape.length_cells_new ..
  positionCells := Tape.length_cells_new ..
  patternCells := Tape.length_cells_new ..
  tags := .inl rfl
  idle _ := rfl
  patterns_le := Nat.le_refl _
  positions_le := Nat.zero_le _

theorem Sound.of_readsLike (hb : b.Sound) (h : b.ReadsLike c) : c.Sound := by
  obtain ⟨ht, hp, hl, htags, hidle, hpatterns, hpositions⟩ := hb
  simp only [Tape.length_cells, h.tags.symbols, h.tags.length, h.positions.symbols,
    h.positions.length, h.patterns.symbols, h.patterns.length]
    at ht hp hl htags hidle hpatterns hpositions
  exact ⟨(Tape.length_cells _).trans ht, (Tape.length_cells _).trans hp,
    (Tape.length_cells _).trans hl, htags, hidle, hpatterns, hpositions⟩

/-! ## Pages -/

@[simp]
theorem leave_self (b : Bench) : b.leave b.dictionary b.streams = b := by
  simp [leave, streams]

section

variable {w : Word} {words rest : List Word} {full : Buffer}

theorem exists_cons_of_length (h : words.length = Layout.pageWords) :
    ∃ w rest, words = w :: rest :=
  List.exists_cons_of_length_pos (by rw [h]; decide)

theorem scan_of_length_ne (h : words.length ≠ Layout.pageWords) : b.scan words full
    = (.scanned (.error (.rejected (.pageLength Layout.pageWords words.length))) full, b) := by
  simp only [scan, Scan.page, if_pos h, leave_self]

theorem scan_of_capacity (hw : words.length = Layout.pageWords)
    (hf : full.length < Layout.pageWords) : b.scan words full
    = (.scanned (.error (.rejected (.capacity Layout.pageWords full.length))) full, b) := by
  simp only [scan, Scan.page, if_neg (not_not.2 hw), if_pos hf, leave_self]

/-- On streams that hold no page a page is scanned to its end. -/
theorem scan_of_idle (hb : b.Sound) (hidle : b.tags.symbols.length = 0)
    (hw : words.length = Layout.pageWords) (hf : Layout.pageWords ≤ full.length) :
    b.scan words full = (.scanned (.ok (.count (b.dictionary.trace words).tags))
        (full.overlay (b.dictionary.trace words).missed),
      b.leave (b.dictionary.seeAll words) (b.dictionary.trace words).streams) := by
  have hpositions := hb.idle hidle
  have hpatterns : b.patterns.symbols.length = 0 :=
    Nat.le_zero.1 (hpositions ▸ hb.patterns_le)
  have hstreams : b.streams = .empty := by
    rw [List.length_eq_zero_iff] at hidle hpositions hpatterns
    rw [streams, hidle, hpositions, hpatterns, Streams.empty]
  rw [scan, hstreams, Scan.page_eq b.dictionary hw hf]

/-- A page of which the first word cannot be scanned is not scanned. -/
theorem scan_of_step {stop : Stop} {p : Scan.Progress} (hw : (w :: rest).length = Layout.pageWords)
    (hf : Layout.pageWords ≤ full.length)
    (h : Scan.step full.length w ⟨b.dictionary, b.streams, #[]⟩ = .error stop p) :
    b.scan (w :: rest) full = (.scanned (.error stop) (full.overlay p.missed.toList),
      b.leave p.dictionary p.streams) := by
  have hsteps : Scan.steps full.length .empty (w :: rest) ⟨b.dictionary, b.streams, #[]⟩
      = .error stop p := by
    rw [Scan.steps, bind_error h]
  simp only [scan, Scan.page, if_neg (not_not.2 hw), if_neg (Nat.not_lt.2 hf), hsteps]
  rfl

/-! ## Pages on full streams -/

/-- The word asks for a slot to be written down, and there is no cell for it. -/
def Blocked (w : Word) (b : Bench) : Prop :=
  (b.dictionary.tag w = .exactMatch ∨ b.dictionary.tag w = .partialMatch)
    ∧ b.positions.symbols.length = Layout.pageWords

/-- The bench and the full words when all is done for a word that its tag asks for, but for the tag
itself. -/
def meet (w : Word) (full : Buffer) (b : Bench) : Bench × Buffer :=
  match b.dictionary.tag w with
  | .exactMatch => ({ b with positions := b.positions.push w.slot }, full)
  | .zero => (b, full)
  | .partialMatch =>
    ({ b with
        dictionary := b.dictionary.set w.slot w
        positions := b.positions.push w.slot
        patterns := b.patterns.push w.pattern }, full)
  | .miss => ({ b with dictionary := b.dictionary.set w.slot w }, full.set 0 w)

theorem positionRoom_eq : Streams.positionRoom = Layout.pageWords := by decide

theorem pageWords_le_patternRoom : Layout.pageWords ≤ Streams.patternRoom := by decide

/-- A word for which there is no cell leaves nothing behind. -/
theorem scan_of_blocked (hw : (w :: rest).length = Layout.pageWords)
    (hf : Layout.pageWords ≤ full.length) (h : b.Blocked w) :
    b.scan (w :: rest) full = (.scanned (.error .outOfRange) full, b) := by
  obtain ⟨htag, hfull⟩ := h
  have hposition : b.streams.pushPosition? w.slot = none := by
    refine if_neg (Nat.not_lt.2 ?_)
    rw [streams, List.size_toArray, hfull, positionRoom_eq]
  have hstep : Scan.step full.length w ⟨b.dictionary, b.streams, #[]⟩
      = .error .outOfRange ⟨b.dictionary, b.streams, #[]⟩ := by
    refine Scan.step_of_follow_error ?_
    rcases htag with htag | htag
    · rw [htag, Scan.follow, Scan.emit_none hposition]
    · rw [htag, Scan.follow, bind_error (Scan.emit_none hposition)]
  rw [scan_of_step hw hf hstep]
  simp [Buffer.overlay]

/-- There is a cell for the slot of a word that asks for one and is not blocked. -/
theorem Sound.lt_of_not_blocked (hb : b.Sound) (h : ¬ b.Blocked w)
    (htag : b.dictionary.tag w = .exactMatch ∨ b.dictionary.tag w = .partialMatch) :
    b.positions.symbols.length < Layout.pageWords :=
  Nat.lt_of_le_of_ne hb.positions_le fun hfull => h ⟨htag, hfull⟩

/-- What a word asks for that is not blocked is done. -/
theorem follow_eq_meet (hb : b.Sound) (hf : 0 < full.length) (h : ¬ b.Blocked w) :
    ∃ p, Scan.follow full.length w.slot w (b.dictionary.tag w) ⟨b.dictionary, b.streams, #[]⟩
        = .ok () p ∧ p.streams.tags = b.streams.tags
      ∧ full.overlay p.missed.toList = (b.meet w full).2
      ∧ b.leave p.dictionary p.streams = (b.meet w full).1 := by
  have hposition : b.positions.symbols.length < Layout.pageWords →
      b.streams.pushPosition? w.slot
        = some { b.streams with positions := b.streams.positions.push w.slot } := by
    intro hlt
    exact if_pos (positionRoom_eq ▸ hlt)
  rcases b.dictionary.see_cases w with
    ⟨-, htag, -⟩ | ⟨-, -, htag, -⟩ | ⟨-, -, -, htag, -⟩ | ⟨-, -, -, htag, -⟩
  · have hlt := hb.lt_of_not_blocked h (.inl htag)
    rw [htag, Scan.follow, Scan.emit_eq (hposition hlt)]
    refine ⟨_, rfl, rfl, ?_, ?_⟩
    · simp [meet, htag, Buffer.overlay]
    · simp [meet, htag, leave, streams]
  · rw [htag]
    refine ⟨_, rfl, rfl, ?_, ?_⟩
    · simp [meet, htag, Buffer.overlay]
    · simp [meet, htag]
  · have hlt := hb.lt_of_not_blocked h (.inr htag)
    have hpattern : b.patterns.symbols.length < Streams.patternRoom :=
      (hb.patterns_le.trans_lt hlt).trans_le pageWords_le_patternRoom
    rw [htag, Scan.follow, bind_ok (Scan.emit_eq (hposition hlt)),
      bind_ok (Scan.emit_eq (if_pos hpattern))]
    refine ⟨_, rfl, rfl, ?_, ?_⟩
    · simp [meet, htag, Buffer.overlay]
    · simp [meet, htag, leave, streams]
  · -- the full words of a call start over, so the first missed word goes to the very front
    obtain ⟨v, vs, rfl⟩ := List.exists_cons_of_length_pos hf
    rw [htag, Scan.follow, bind_ok (Scan.keepWhole_eq hf w)]
    refine ⟨_, rfl, rfl, ?_, ?_⟩
    · simp [meet, htag, Buffer.overlay]
    · simp [meet, htag, leave, streams]

/-- All else that is done for a word stays when there is no cell for its tag. -/
theorem scan_of_interrupted (hb : b.Sound) (htags : b.tags.symbols.length = Layout.pageWords)
    (hw : (w :: rest).length = Layout.pageWords) (hf : Layout.pageWords ≤ full.length)
    (h : ¬ b.Blocked w) : b.scan (w :: rest) full
      = (.scanned (.error .outOfRange) (b.meet w full).2, (b.meet w full).1) := by
  have hpos : 0 < full.length := Nat.lt_of_lt_of_le (by decide) hf
  obtain ⟨p, hfollow, hkept, hfull, hleave⟩ := follow_eq_meet hb hpos h
  have hroom : Streams.tagRoom ≤ p.streams.tags.size := by
    rw [hkept, streams, List.size_toArray, htags]
    exact Nat.le_refl _
  rw [scan_of_step hw hf (Scan.step_of_tags_full hfollow hroom), hfull, hleave]

end

/-! ## One operation and a run of operations -/

theorem Sound.with_dictionary (hb : b.Sound) (dictionary : Dictionary) :
    Sound { b with dictionary } := by
  obtain ⟨ht, hp, hl, htags, hidle, hpatterns, hpositions⟩ := hb
  exact ⟨ht, hp, hl, htags, hidle, hpatterns, hpositions⟩

/-- A scanned page leaves a full stream of tags, and no more slots than tags. -/
theorem Sound.leave_trace (hb : b.Sound) {t : Trace} (ht : t.length = Layout.pageWords)
    (d : Dictionary) : (b.leave d t.streams).Sound := by
  have htags : t.tags.length = Layout.pageWords := (Trace.length_tags t).trans ht
  have hpositions : t.positions.length ≤ Layout.pageWords := by
    have hsplit := t.length_eq_zero_add
    omega
  have hpatterns := t.length_patterns_le
  have hroom := pageWords_le_patternRoom
  exact {
    tagCells := Tape.length_cells_write hb.tagCells htags.le
    positionCells := Tape.length_cells_write hb.positionCells (positionRoom_eq ▸ hpositions)
    patternCells := Tape.length_cells_write hb.patternCells (by
      show t.patterns.length ≤ _
      omega)
    tags := .inr htags
    idle := fun h => absurd (htags.symm.trans h) (by decide)
    patterns_le := hpatterns
    positions_le := hpositions }

/-- A half-done word takes a cell for a slot before it takes one for a pattern. -/
theorem Sound.meet (hb : b.Sound) (htags : b.tags.symbols.length = Layout.pageWords) {w : Word}
    (full : Buffer) (h : ¬ b.Blocked w) : (b.meet w full).1.Sound := by
  have hne : b.tags.symbols.length ≠ 0 := by
    rw [htags]
    decide
  have hpatterns := hb.patterns_le
  unfold Bench.meet
  split
  · have hlt := hb.lt_of_not_blocked h (.inl ‹_›)
    have hcells := Tape.length_cells_push hb.positionCells (positionRoom_eq ▸ hlt) w.slot
    refine ⟨hb.tagCells, hcells, hb.patternCells, hb.tags, fun h0 => absurd h0 hne, ?_, ?_⟩
    · rw [Tape.symbols_push, List.length_append]
      exact Nat.le_add_right_of_le hpatterns
    · simpa [Nat.succ_le_iff] using hlt
  · exact hb
  · -- the pattern has a cell, since there are no more patterns than slots and there is one for the
    -- slot
    have hlt := hb.lt_of_not_blocked h (.inr ‹_›)
    have hroom := (hpatterns.trans_lt hlt).trans_le pageWords_le_patternRoom
    have hcells := Tape.length_cells_push hb.positionCells (positionRoom_eq ▸ hlt) w.slot
    have hcells' := Tape.length_cells_push hb.patternCells hroom w.pattern
    refine ⟨hb.tagCells, hcells, hcells', hb.tags, fun h0 => absurd h0 hne, ?_, ?_⟩
    · simpa using hpatterns
    · simpa [Nat.succ_le_iff] using hlt
  · exact hb.with_dictionary _

/-- No operation makes a bench unsound, even one that is stopped. -/
theorem sound_perform (hb : b.Sound) (op : Operation) : (perform op b).2.Sound := by
  cases op with
  | page words full =>
    show (b.scan words full).2.Sound
    by_cases hw : words.length = Layout.pageWords
    · by_cases hf : full.length < Layout.pageWords
      · rwa [scan_of_capacity hw hf]
      · have hf := Nat.not_lt.1 hf
        rcases hb.tags with hidle | hheld
        · rw [scan_of_idle hb hidle hw hf]
          exact hb.leave_trace ((Dictionary.length_trace ..).trans hw) _
        · obtain ⟨w, rest, rfl⟩ := exists_cons_of_length hw
          by_cases h : b.Blocked w
          · rwa [scan_of_blocked hw hf h]
          · rw [scan_of_interrupted hb hheld hw hf h]
            exact hb.meet hheld full h
    · rwa [scan_of_length_ne hw]
  | update n w =>
    simp only [perform]
    split
    · exact hb.with_dictionary _
    · exact hb
  | newDictionary => exact hb.with_dictionary _
  | newStreams => exact sound_new.with_dictionary _
  | padPositions => exact hb.of_readsLike b.readsLike_padPositions
  | padPatterns => exact hb.of_readsLike b.readsLike_padPatterns
  | readTags => exact hb
  | readPositions => exact hb
  | readPatterns => exact hb

theorem sound_reach (hb : b.Sound) (ops : List Operation) : (reach ops b).Sound := by
  induction ops generalizing b with
  | nil => exact hb
  | cons op ops ih => exact ih (sound_perform hb op)

/-! ## Streams filled up -/

/-- A stream with zeros behind it, up to the least multiple of `group` that is not below its
length. -/
structure FilledUp (group : Nat) (stream run : List Nat) : Prop where
  /-- The stream and zeros. -/
  zeros : ∃ n, run = stream ++ List.replicate n 0
  /-- No fewer and no more of them than it takes. -/
  least : IsLeast {n | stream.length ≤ n ∧ group ∣ n} run.length

theorem filledUp_pad {group : Nat} (hg : 0 < group) (stream : List Nat) :
    FilledUp group stream (Layout.pad group stream) := by
  refine ⟨⟨_, rfl⟩, ?_⟩
  rw [Layout.length_pad hg]
  refine ⟨⟨Layout.le_roundUp hg _, Layout.dvd_roundUp ..⟩, ?_⟩
  rintro n ⟨hn, hdvd⟩
  exact Layout.roundUp_le hg hn hdvd

/-- A tape whose cells are whole groups can always be filled up. -/
theorem exists_pad {n room : Nat} {packing : Packing} {blank : Fin n} {t : Tape (Fin n)}
    (hblank : blank.val = 0) (hroom : t.cells.length = room) (hdvd : packing.group ∣ room)
    (keep : Tape (Fin n) → Bench) (b : Bench) :
    ∃ run, Layout.pad? room packing.group (t.symbols.map Fin.val) = some run
      ∧ (pad packing blank t keep b).1 = .symbols run
      ∧ FilledUp packing.group (t.symbols.map Fin.val) run := by
  have hle : t.symbols.length ≤ room := by
    rw [← hroom, Tape.length_cells]
    exact Nat.le_add_right ..
  have hround : Layout.roundUp t.symbols.length packing.group ≤ room :=
    Layout.roundUp_le packing.group_pos hle hdvd
  have hcells : Layout.roundUp t.symbols.length packing.group - t.symbols.length
      ≤ t.stale.length := by
    rw [Tape.length_cells] at hroom
    omega
  refine ⟨Layout.pad packing.group (t.symbols.map Fin.val), ?_, ?_,
    filledUp_pad packing.group_pos _⟩
  · rw [Layout.pad?, List.length_map, if_pos hround]
  · rw [pad, Tape.fill?_eq packing.group_pos]
    simp [hcells, Layout.pad, hblank]

/-! ## What can be said of every bench -/

/-- A bench in order.  Its streams fit together, they can be filled up without a trace, and a page
is scanned if the streams hold none yet, or else stops at its first word. -/
structure Orderly (b : Bench) : Prop where
  /-- There is no tag, or one for each word of a page. -/
  tags : b.streams.tagCodes.length = 0 ∨ b.streams.tagCodes.length = Layout.pageWords
  /-- There are no more patterns than slots. -/
  patterns_le : b.streams.patternNumbers.length ≤ b.streams.positionNumbers.length
  /-- There are no more slots than a page has words. -/
  positions_le : b.streams.positionNumbers.length ≤ Layout.pageWords
  /-- Tags have two bits. -/
  tag_lt : ∀ n ∈ b.streams.tagCodes, n < 4
  /-- Slots have four bits. -/
  position_lt : ∀ n ∈ b.streams.positionNumbers, n < 16
  /-- Patterns have ten bits. -/
  pattern_lt : ∀ n ∈ b.streams.patternNumbers, n < 1024
  /-- The slots can be read filled up, and this is what packing them starts from. -/
  padPositions : ∃ run, b.streams.paddedPositions? = some run
    ∧ (perform .padPositions b).1 = .symbols run ∧ FilledUp 8 b.streams.positionNumbers run
  /-- The patterns can be read filled up, and this is what packing them starts from. -/
  padPatterns : ∃ run, b.streams.paddedPatterns? = some run
    ∧ (perform .padPatterns b).1 = .symbols run ∧ FilledUp 3 b.streams.patternNumbers run
  /-- Nothing that is done later tells whether the slots were filled up. -/
  positions_hidden : ∀ ops, answers ops (perform .padPositions b).2 = answers ops b
  /-- Nothing that is done later tells whether the patterns were filled up. -/
  patterns_hidden : ∀ ops, answers ops (perform .padPatterns b).2 = answers ops b
  /-- A call with wrong lengths is turned down and changes nothing. -/
  rejected : ∀ words full, words.length ≠ Layout.pageWords ∨ full.length < Layout.pageWords →
    ∃ r, perform (.page words full) b = (.scanned (.error (.rejected r)) full, b)
  /-- A page is scanned to its end if the streams hold none. -/
  completes : ∀ words full, words.length = Layout.pageWords → Layout.pageWords ≤ full.length →
    ((∃ tally full', (perform (.page words full) b).1 = .scanned (.ok tally) full')
      ↔ b.streams.tagCodes.length = 0)
  /-- A page is stopped if the streams hold one. -/
  stops : ∀ words full, words.length = Layout.pageWords → Layout.pageWords ≤ full.length →
    ((∃ full', (perform (.page words full) b).1 = .scanned (.error .outOfRange) full')
      ↔ b.streams.tagCodes.length = Layout.pageWords)
  /-- A page that is stopped for want of a cell for the slot of its first word leaves no effect. -/
  blocked : ∀ w rest full, (w :: rest).length = Layout.pageWords → Layout.pageWords ≤ full.length →
    b.streams.tagCodes.length = Layout.pageWords → b.Blocked w →
    perform (.page (w :: rest) full) b = (.scanned (.error .outOfRange) full, b)
  /-- Any other page that is stopped leaves all effects of its first word but the tag, and no effect
  of the words behind it. -/
  interrupted : ∀ w rest full, (w :: rest).length = Layout.pageWords →
    Layout.pageWords ≤ full.length → b.streams.tagCodes.length = Layout.pageWords →
    ¬ b.Blocked w → perform (.page (w :: rest) full) b
      = (.scanned (.error .outOfRange) (b.meet w full).2, (b.meet w full).1)

theorem length_tagCodes (b : Bench) : b.streams.tagCodes.length = b.tags.symbols.length :=
  List.length_map ..

theorem length_positionNumbers (b : Bench) :
    b.streams.positionNumbers.length = b.positions.symbols.length :=
  List.length_map ..

theorem length_patternNumbers (b : Bench) :
    b.streams.patternNumbers.length = b.patterns.symbols.length :=
  List.length_map ..

/-- A page with the right lengths is scanned to its end or stops, by what the streams hold. -/
theorem Sound.page_cases (hb : b.Sound) {words : List Word} {full : Buffer}
    (hw : words.length = Layout.pageWords) (hf : Layout.pageWords ≤ full.length) :
    (b.streams.tagCodes.length = 0
        ∧ ∃ tally full', (perform (.page words full) b).1 = .scanned (.ok tally) full')
      ∨ (b.streams.tagCodes.length = Layout.pageWords
        ∧ ∃ full', (perform (.page words full) b).1 = .scanned (.error .outOfRange) full') := by
  rw [length_tagCodes]
  rcases hb.tags with hidle | hheld
  · exact .inl ⟨hidle, _, _, congrArg Prod.fst (scan_of_idle hb hidle hw hf)⟩
  · refine .inr ⟨hheld, ?_⟩
    obtain ⟨w, rest, rfl⟩ := exists_cons_of_length hw
    by_cases h : b.Blocked w
    · exact ⟨_, congrArg Prod.fst (scan_of_blocked hw hf h)⟩
    · exact ⟨_, congrArg Prod.fst (scan_of_interrupted hb hheld hw hf h)⟩

theorem Sound.orderly (hb : b.Sound) : b.Orderly where
  tags := by
    rw [length_tagCodes]
    exact hb.tags
  patterns_le := by
    rw [length_patternNumbers, length_positionNumbers]
    exact hb.patterns_le
  positions_le := by
    rw [length_positionNumbers]
    exact hb.positions_le
  tag_lt := by
    intro n hn
    obtain ⟨tag, -, rfl⟩ := List.mem_map.1 hn
    exact tag.code_lt
  position_lt := by
    intro n hn
    obtain ⟨slot, -, rfl⟩ := List.mem_map.1 hn
    exact slot.isLt
  pattern_lt := by
    intro n hn
    obtain ⟨pattern, -, rfl⟩ := List.mem_map.1 hn
    exact pattern.isLt
  padPositions := exists_pad rfl hb.positionCells (Layout.dvd_roundUp ..) _ b
  padPatterns := exists_pad rfl hb.patternCells (Layout.dvd_roundUp ..) _ b
  positions_hidden ops := (answers_of_readsLike b.readsLike_padPositions ops).symm
  patterns_hidden ops := (answers_of_readsLike b.readsLike_padPatterns ops).symm
  rejected := by
    intro words full h
    by_cases hw : words.length = Layout.pageWords
    · exact ⟨_, scan_of_capacity hw (h.resolve_left (not_not.2 hw))⟩
    · exact ⟨_, scan_of_length_ne hw⟩
  completes := by
    intro words full hw hf
    rcases hb.page_cases hw hf with ⟨hidle, hdone⟩ | ⟨hheld, full', hstop⟩
    · exact ⟨fun _ => hidle, fun _ => hdone⟩
    · rw [hstop, hheld]
      simp [Layout.pageWords_eq]
  stops := by
    intro words full hw hf
    rcases hb.page_cases hw hf with ⟨hidle, tally, full', hdone⟩ | ⟨hheld, hstop⟩
    · rw [hdone, hidle]
      simp [Layout.pageWords_eq]
    · exact ⟨fun _ => hheld, fun _ => hstop⟩
  blocked := by
    intro w rest full hw hf _ h
    exact scan_of_blocked hw hf h
  interrupted := by
    intro w rest full hw hf hheld h
    rw [length_tagCodes] at hheld
    exact scan_of_interrupted hb hheld hw hf h

/-- **Benches in use.**  Whatever has been done with a dictionary and streams that were new, pages
that were turned down or stopped included, they are in order. -/
theorem reach_orderly (ops : List Operation) : (reach ops new).Orderly :=
  (sound_reach sound_new ops).orderly

end Bench

end PageCodec
