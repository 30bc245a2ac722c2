import PageCodec.Page.Decoder
import PageCodec.Scan.Page

/-!
# What a scan finds

A scan is a loop over buffers and streams with room for so much and no more.  What it finds can be
said without any of them: every word of a run gets a tag from the dictionary that the words before
it have left, and everything else that a scan writes down is picked from the words by their tags.

* `Dictionary.see_cases` — what can become of a word that a dictionary sees, and
  `Dictionary.get_see`, what is remembered then.
* `Dictionary.trace` — the words of a run, each with its tag.
* `Dictionary.seeAll` — the dictionary that a run of words leaves.
* `Scan.steps_eq`, `Scan.steps_take`, `Scan.page_eq` — where there is room, a scan completes, and
  what it leaves is picked from the trace.
* `Decoder.replay_trace` — the tags of a trace and what is picked from it give back the words and
  the dictionary, whichever dictionary the run started from, and nothing more is read.
-/

namespace PageCodec

/-! ## Operations one after another -/

theorem bind_get {ε σ β : Type} (f : σ → EStateM ε σ β) (s : σ) : (get >>= f) s = f s s := rfl

theorem bind_ok {ε σ α β : Type} {x : EStateM ε σ α} {f : α → EStateM ε σ β} {s s' : σ} {a : α}
    (h : x s = .ok a s') : (x >>= f) s = f a s' := by
  show EStateM.bind x f s = f a s'
  rw [EStateM.bind, h]

theorem bind_error {ε σ α β : Type} {x : EStateM ε σ α} {f : α → EStateM ε σ β} {s s' : σ} {e : ε}
    (h : x s = .error e s') : (x >>= f) s = .error e s' := by
  show EStateM.bind x f s = .error e s'
  rw [EStateM.bind, h]

/-- Of two operations that complete together each completes. -/
theorem bind_eq_ok {ε σ α β : Type} {x : EStateM ε σ α} {f : α → EStateM ε σ β} {s s' : σ} {b : β}
    (h : (x >>= f) s = .ok b s') : ∃ a s₁, x s = .ok a s₁ ∧ f a s₁ = .ok b s' := by
  have hbind : EStateM.bind x f s = .ok b s' := h
  unfold EStateM.bind at hbind
  split at hbind
  · exact ⟨_, _, ‹_›, hbind⟩
  · cases hbind

/-! ## Tallies of tags -/

namespace Tally

/-- How often each tag stands in a list. -/
def count (tags : List Tag) : Tally where
  zero := tags.count .zero
  exactMatch := tags.count .exactMatch
  partialMatch := tags.count .partialMatch
  miss := tags.count .miss

@[simp]
theorem count_nil : count [] = empty := rfl

theorem count_cons (t : Tag) (tags : List Tag) : count (t :: tags) = (count tags).record t := by
  cases t <;> simp [count, record]

theorem record_add_count (c : Tally) (t : Tag) (tags : List Tag) :
    c.record t + count tags = c + count (t :: tags) := by
  show Tally.add _ _ = Tally.add _ _
  cases t <;> simp [Tally.add, record, count, Nat.add_assoc, Nat.add_comm 1]

@[simp]
theorem add_empty (c : Tally) : c + empty = c := rfl

@[simp]
theorem empty_add (c : Tally) : empty + c = c := by
  show Tally.add _ _ = _
  simp [Tally.add, empty]

/-- Every tag is counted once. -/
theorem total_count (tags : List Tag) : (count tags).total = tags.length := by
  induction tags with
  | nil => rfl
  | cons t tags ih =>
    have h : (count (t :: tags)).total = (count tags).total + 1 := by
      cases t <;> simp [count, total] <;> omega
    rw [h, ih, List.length_cons]

end Tally

/-! ## Traces -/

/-- The words of a run, each with its tag. -/
abbrev Trace := List (Tag × Word)

namespace Trace

variable (t : Trace)

/-- The tags of a trace. -/
def tags : List Tag := t.map Prod.fst

/-- The words that have one of the given tags. -/
def having (tags : List Tag) : List Word := (t.filter fun a => a.1 ∈ tags).map Prod.snd

/-- The slots of its exact and partial matches. -/
def positions : List Slot := (t.having [.exactMatch, .partialMatch]).map Word.slot

/-- The patterns of its partial matches. -/
def patterns : List Pattern := (t.having [.partialMatch]).map Word.pattern

/-- Its misses. -/
def missed : List Word := t.having [.miss]

/-- The streams that a trace fills. -/
def streams : Streams := ⟨t.tags.toArray, t.positions.toArray, t.patterns.toArray⟩

/-- What there is to read of a trace besides its tags, in front of something else. -/
def supply (rest : Decoder.Supply) : Decoder.Supply where
  positions := t.positions ++ rest.positions
  patterns := t.patterns ++ rest.patterns
  fullWords := t.missed ++ rest.fullWords

@[simp]
theorem length_tags : t.tags.length = t.length := List.length_map ..

theorem tags_append (s : Trace) : tags (s ++ t) = s.tags ++ t.tags := List.map_append

theorem having_append (s : Trace) (tags : List Tag) :
    having (s ++ t) tags = s.having tags ++ t.having tags := by
  rw [having, List.filter_append, List.map_append]
  rfl

theorem positions_append (s : Trace) : positions (s ++ t) = s.positions ++ t.positions := by
  rw [positions, having_append, List.map_append]
  rfl

theorem patterns_append (s : Trace) : patterns (s ++ t) = s.patterns ++ t.patterns := by
  rw [patterns, having_append, List.map_append]
  rfl

theorem missed_append (s : Trace) : missed (s ++ t) = s.missed ++ t.missed :=
  having_append t s [.miss]

theorem supply_append (s : Trace) (rest : Decoder.Supply) :
    supply (s ++ t) rest = s.supply (t.supply rest) := by
  simp only [supply, positions_append, patterns_append, missed_append, List.append_assoc]

theorem supply_cons (tag : Tag) (w : Word) (rest : Decoder.Supply) :
    supply ((tag, w) :: t) rest = supply [(tag, w)] (t.supply rest) :=
  supply_append t [(tag, w)] rest

/-- What there is to read of one word, in front of something else. -/
theorem supply_word (tag : Tag) (w : Word) (rest : Decoder.Supply) :
    supply [(tag, w)] rest =
      match tag with
      | .zero => rest
      | .exactMatch => { rest with positions := w.slot :: rest.positions }
      | .partialMatch =>
        { rest with
          positions := w.slot :: rest.positions
          patterns := w.pattern :: rest.patterns }
      | .miss => { rest with fullWords := w :: rest.fullWords } := by
  cases tag <;> rfl

theorem length_having (tags : List Tag) :
    (t.having tags).length = t.tags.countP fun tag => tag ∈ tags := by
  rw [having, List.length_map, ← List.countP_eq_length_filter, Trace.tags, List.countP_map]
  rfl

theorem length_positions : t.positions.length = (Tally.count t.tags).positions := by
  rw [positions, List.length_map, length_having, Tally.positions]
  generalize t.tags = tags
  induction tags with
  | nil => rfl
  | cons tag tags ih =>
    simp only [Tally.count, List.countP_cons] at ih ⊢
    rw [ih]
    cases tag <;> simp <;> omega

theorem length_patterns : t.patterns.length = (Tally.count t.tags).partialMatch := by
  rw [patterns, List.length_map, length_having]
  simp only [List.mem_singleton]
  rfl

theorem length_missed : t.missed.length = (Tally.count t.tags).miss := by
  rw [missed, length_having]
  simp only [List.mem_singleton]
  rfl

/-- A word is zero, or a slot is written down for it, or it is written down whole. -/
theorem length_eq_zero_add :
    t.length = (Tally.count t.tags).zero + t.positions.length + t.missed.length := by
  have htotal := Tally.total_count t.tags
  rw [length_tags, Tally.total] at htotal
  rw [length_positions, length_missed, Tally.positions]
  omega

theorem length_patterns_le : t.patterns.length ≤ t.positions.length := by
  rw [length_patterns, length_positions, Tally.positions]
  exact Nat.le_add_left ..

end Trace

/-! ## Runs of words -/

namespace Dictionary

/-- The tag of a word. -/
def tag (d : Dictionary) (w : Word) : Tag := Tag.classify (d.get w.slot) w

/-- The dictionary that has seen one more word. -/
def see (d : Dictionary) (w : Word) : Dictionary :=
  match d.tag w with
  | .zero | .exactMatch => d
  | .partialMatch | .miss => d.set w.slot w

/-- The dictionary that has seen a run of words. -/
def seeAll (d : Dictionary) (ws : List Word) : Dictionary := ws.foldl see d

/-- What can become of a word: it is remembered already, or it is zero, or it is remembered in place
of a word with the same high part, or in place of any other word. -/
theorem see_cases (d : Dictionary) (w : Word) :
    (w = d.get w.slot ∧ d.tag w = .exactMatch ∧ d.see w = d)
      ∨ (w ≠ d.get w.slot ∧ w = 0 ∧ d.tag w = .zero ∧ d.see w = d)
      ∨ (w ≠ d.get w.slot ∧ w ≠ 0 ∧ w.high = (d.get w.slot).high ∧ d.tag w = .partialMatch
        ∧ d.see w = d.set w.slot w)
      ∨ (w ≠ d.get w.slot ∧ w ≠ 0 ∧ w.high ≠ (d.get w.slot).high ∧ d.tag w = .miss
        ∧ d.see w = d.set w.slot w) := by
  unfold see tag Tag.classify
  by_cases h : w = d.get w.slot
  · rw [if_pos h]
    exact .inl ⟨h, rfl, rfl⟩
  · rw [if_neg h]
    by_cases h0 : w = 0
    · rw [if_pos h0]
      exact .inr (.inl ⟨h, h0, rfl, rfl⟩)
    · rw [if_neg h0]
      by_cases hh : w.high = (d.get w.slot).high
      · rw [if_pos hh]
        exact .inr (.inr (.inl ⟨h, h0, hh, rfl, rfl⟩))
      · rw [if_neg hh]
        exact .inr (.inr (.inr ⟨h, h0, hh, rfl, rfl⟩))

/-- A nonzero word is remembered at its slot, and nothing else changes.  This is so whatever the
dictionary holds: an exact match is there already, and a zero word is never stored. -/
theorem get_see (d : Dictionary) (w : Word) (s : Slot) :
    (d.see w).get s = if w ≠ 0 ∧ w.slot = s then w else d.get s := by
  rcases d.see_cases w with
    ⟨hw, -, hsee⟩ | ⟨-, hw, -, hsee⟩ | ⟨-, hw, -, -, hsee⟩ | ⟨-, hw, -, -, hsee⟩
  · rw [hsee]
    by_cases hs : w ≠ 0 ∧ w.slot = s
    · rw [if_pos hs, ← hs.2]
      exact hw.symm
    · rw [if_neg hs]
  · rw [hsee, if_neg (fun hs => hs.1 hw)]
  all_goals
    rw [hsee, get_set]
    simp only [hw, ne_eq, not_false_eq_true, true_and, eq_comm]

/-- The words of a run, each with the tag it gets from what the words before it have left. -/
def trace (d : Dictionary) : List Word → Trace
  | [] => []
  | w :: ws => (d.tag w, w) :: (d.see w).trace ws

@[simp]
theorem length_trace (d : Dictionary) (ws : List Word) : (d.trace ws).length = ws.length := by
  induction ws generalizing d with
  | nil => rfl
  | cons w ws ih => rw [trace, List.length_cons, ih, List.length_cons]

theorem seeAll_append (d : Dictionary) (vs ws : List Word) :
    d.seeAll (vs ++ ws) = (d.seeAll vs).seeAll ws :=
  List.foldl_append ..

theorem trace_append (d : Dictionary) (vs ws : List Word) :
    d.trace (vs ++ ws) = d.trace vs ++ (d.seeAll vs).trace ws := by
  induction vs generalizing d with
  | nil => rfl
  | cons v vs ih => exact congrArg ((d.tag v, v) :: ·) (ih (d.see v))

/-- What the first words get does not depend on the words behind them. -/
theorem trace_take (d : Dictionary) (ws : List Word) (n : Nat) :
    d.trace (ws.take n) = (d.trace ws).take n := by
  induction ws generalizing d n with
  | nil => simp [trace]
  | cons w ws ih =>
    cases n with
    | zero => rfl
    | succ n => rw [List.take_succ_cons, trace, trace, List.take_succ_cons, ih]

/-- The words of a trace are the run it was made of. -/
theorem map_snd_trace (d : Dictionary) (ws : List Word) : (d.trace ws).map Prod.snd = ws := by
  induction ws generalizing d with
  | nil => rfl
  | cons w ws ih => rw [trace, List.map_cons, ih]

/-- A trace is got back from its tags and the run. -/
theorem zip_tags_trace (d : Dictionary) (ws : List Word) :
    (d.trace ws).tags.zip ws = d.trace ws := by
  have hzip := List.zip_unzip (d.trace ws)
  rwa [List.unzip_eq_map, map_snd_trace] at hzip

end Dictionary

/-! ## The scan -/

namespace Scan

namespace Progress

/-- The progress of a scan when a run of words has been gone through. -/
def after (p : Progress) (ws : List Word) : Progress where
  dictionary := p.dictionary.seeAll ws
  streams :=
    { tags := p.streams.tags ++ (p.dictionary.trace ws).tags.toArray
      positions := p.streams.positions ++ (p.dictionary.trace ws).positions.toArray
      patterns := p.streams.patterns ++ (p.dictionary.trace ws).patterns.toArray }
  missed := p.missed ++ (p.dictionary.trace ws).missed.toArray

/-- There is room for `n` more words, whatever their tags will be. -/
structure HasRoom (p : Progress) (room n : Nat) : Prop where
  /-- Room for their tags. -/
  tags : p.streams.tags.size + n ≤ Streams.tagRoom
  /-- Room for their slots. -/
  positions : p.streams.positions.size + n ≤ Streams.positionRoom
  /-- Room for their patterns. -/
  patterns : p.streams.patterns.size + n ≤ Streams.patternRoom
  /-- Room for them as full words. -/
  missed : p.missed.size + n ≤ room

theorem after_append (p : Progress) (vs ws : List Word) :
    p.after (vs ++ ws) = (p.after vs).after ws := by
  simp only [after, Dictionary.seeAll_append, Dictionary.trace_append, Trace.tags_append,
    Trace.positions_append, Trace.patterns_append, Trace.missed_append, ← List.append_toArray,
    Array.append_assoc]

theorem HasRoom.of_le {p : Progress} {room m n : Nat} (h : p.HasRoom room n) (hmn : m ≤ n) :
    p.HasRoom room m := by
  obtain ⟨ht, hq, hl, hm⟩ := h
  constructor <;> omega

/-- Empty streams have room for a page. -/
theorem hasRoom_start (d : Dictionary) {room : Nat} (h : Layout.pageWords ≤ room) :
    HasRoom ⟨d, .empty, #[]⟩ room Layout.pageWords := by
  refine ⟨?_, ?_, ?_, ?_⟩
  · show 0 + Layout.pageWords ≤ Streams.tagRoom
    decide
  · show 0 + Layout.pageWords ≤ Streams.positionRoom
    decide
  · show 0 + Layout.pageWords ≤ Streams.patternRoom
    decide
  · show 0 + Layout.pageWords ≤ room
    rwa [Nat.zero_add]

/-- A word takes one place in each stream at most. -/
theorem HasRoom.after_word {p : Progress} {room n : Nat} (h : p.HasRoom room (n + 1)) (w : Word) :
    (p.after [w]).HasRoom room n := by
  have htrace : p.dictionary.trace [w] = [(p.dictionary.tag w, w)] := rfl
  have hq : (Trace.positions [(p.dictionary.tag w, w)]).length ≤ 1 := by
    cases p.dictionary.tag w <;> simp [Trace.positions, Trace.having]
  have hl : (Trace.patterns [(p.dictionary.tag w, w)]).length ≤ 1 := by
    cases p.dictionary.tag w <;> simp [Trace.patterns, Trace.having]
  have hm : (Trace.missed [(p.dictionary.tag w, w)]).length ≤ 1 := by
    cases p.dictionary.tag w <;> simp [Trace.missed, Trace.having]
  obtain ⟨htags, hpositions, hpatterns, hmissed⟩ := h
  constructor <;>
    simp only [after, htrace, Array.size_append, List.size_toArray, Trace.length_tags,
      List.length_singleton] <;>
    omega

/-- A run takes one place in each stream at most for each of its words. -/
theorem HasRoom.after_run {p : Progress} {room n : Nat} {ws : List Word}
    (h : p.HasRoom room (ws.length + n)) : (p.after ws).HasRoom room n := by
  induction ws generalizing p with
  | nil =>
    rw [List.length_nil, Nat.zero_add] at h
    obtain ⟨ht, hq, hl, hm⟩ := h
    constructor <;>
      simpa [after, Dictionary.trace, Trace.tags, Trace.positions, Trace.patterns, Trace.missed,
        Trace.having]
  | cons w ws ih =>
    have hword : (p.after [w]).HasRoom room (ws.length + n) := by
      refine HasRoom.after_word ?_ w
      rwa [List.length_cons, Nat.add_right_comm] at h
    have hrest := ih hword
    rwa [← after_append] at hrest

end Progress

/-! ### One step -/

theorem emit_eq {push : Streams → Option Streams} {p : Progress} {s : Streams}
    (h : push p.streams = some s) : emit push p = .ok () { p with streams := s } := by
  rw [emit, h]

theorem emit_none {push : Streams → Option Streams} {p : Progress} (h : push p.streams = none) :
    emit push p = .error .outOfRange p := by
  rw [emit, h]

theorem keepWhole_eq {p : Progress} {room : Nat} (h : p.missed.size < room) (w : Word) :
    keepWhole room w p = .ok () { p with missed := p.missed.push w } :=
  if_pos h

/-- What is done for a word besides writing down its tag, where there is room for it. -/
theorem follow_eq {p : Progress} {room : Nat} (h : p.HasRoom room 1) (w : Word) :
    follow room w.slot w (p.dictionary.tag w) p = .ok ()
      { p.after [w] with streams := { (p.after [w]).streams with tags := p.streams.tags } } := by
  obtain ⟨-, hq, hl, hm⟩ := h
  have hposition : p.streams.pushPosition? w.slot
      = some { p.streams with positions := p.streams.positions.push w.slot } := if_pos hq
  simp only [Progress.after, Dictionary.trace, Dictionary.seeAll, List.foldl_cons, List.foldl_nil]
  rcases p.dictionary.see_cases w with
    ⟨-, htag, hsee⟩ | ⟨-, -, htag, hsee⟩ | ⟨-, -, -, htag, hsee⟩ | ⟨-, -, -, htag, hsee⟩
  · rw [htag, hsee, follow, emit_eq hposition]
    simp [Trace.positions, Trace.patterns, Trace.missed, Trace.having]
  · rw [htag, hsee]
    simp [follow, pure, EStateM.pure, Trace.positions, Trace.patterns, Trace.missed, Trace.having]
  · rw [htag, hsee, follow, bind_ok (emit_eq hposition), bind_ok (emit_eq (if_pos hl)), remember]
    simp [Trace.positions, Trace.patterns, Trace.missed, Trace.having]
  · rw [htag, hsee, follow, bind_ok (keepWhole_eq hm w), remember]
    simp [Trace.positions, Trace.patterns, Trace.missed, Trace.having]

/-- A word gets its tag from the dictionary, and the tag is written down last. -/
theorem step_eq_bind (room : Nat) (w : Word) (p : Progress) : step room w p =
    (follow room w.slot w (p.dictionary.tag w) >>= fun _ =>
      emit (·.pushTag? (p.dictionary.tag w)) >>= fun _ => pure (p.dictionary.tag w)) p := rfl

/-- One step of a scan that has room for a word. -/
theorem step_eq {p : Progress} {room : Nat} (h : p.HasRoom room 1) (w : Word) :
    step room w p = .ok (p.dictionary.tag w) (p.after [w]) := by
  have htags : (p.after [w]).streams.tags = p.streams.tags.push (p.dictionary.tag w) := by
    simp [Progress.after, Dictionary.trace, Trace.tags]
  rw [step_eq_bind, bind_ok (follow_eq h w), bind_ok (emit_eq (if_pos h.tags))]
  simp only [← htags]
  rfl

/-- A word that does not get what its tag asks for stops the scan. -/
theorem step_of_follow_error {p p' : Progress} {room : Nat} {w : Word} {stop : Stop}
    (h : follow room w.slot w (p.dictionary.tag w) p = .error stop p') :
    step room w p = .error stop p' := by
  rw [step_eq_bind, bind_error h]

/-- Where there is no room for its tag, all else is done for a word before the scan stops. -/
theorem step_of_tags_full {p p' : Progress} {room : Nat} {w : Word}
    (h : follow room w.slot w (p.dictionary.tag w) p = .ok () p')
    (htags : Streams.tagRoom ≤ p'.streams.tags.size) : step room w p = .error .outOfRange p' := by
  have htag : p'.streams.pushTag? (p.dictionary.tag w) = none := if_neg (Nat.not_lt.2 htags)
  rw [step_eq_bind, bind_ok h, bind_error (emit_none htag)]

/-! ### A run and a page -/

/-- A scan that has room for a run of words goes through all of them. -/
theorem steps_eq {p : Progress} {room : Nat} (tally : Tally) {ws : List Word}
    (h : p.HasRoom room ws.length) :
    steps room tally ws p
      = .ok (tally + .count (p.dictionary.trace ws).tags) (p.after ws) := by
  induction ws generalizing p tally with
  | nil =>
    simp [steps, pure, EStateM.pure, Progress.after, Dictionary.trace, Dictionary.seeAll,
      Trace.tags, Trace.positions, Trace.patterns, Trace.missed, Trace.having]
  | cons w ws ih =>
    have hword : p.HasRoom room 1 := h.of_le (Nat.succ_le_succ (Nat.zero_le _))
    rw [steps, bind_ok (step_eq hword w), ih _ (h.after_word w), ← Progress.after_append,
      Tally.record_add_count]
    rfl

/-- At every word of a page the scan has come through the words before it, and there is room for
those that are left. -/
theorem steps_take {words : List Word} {room : Nat} (d : Dictionary)
    (hw : words.length = Layout.pageWords) (hr : Layout.pageWords ≤ room) (n : Nat) :
    steps room .empty (words.take n) ⟨d, .empty, #[]⟩
        = .ok (.count (d.trace (words.take n)).tags)
          (Progress.after ⟨d, .empty, #[]⟩ (words.take n))
      ∧ (Progress.after ⟨d, .empty, #[]⟩ (words.take n)).HasRoom room (Layout.pageWords - n) := by
  have hfits : Progress.HasRoom ⟨d, .empty, #[]⟩ room
      ((words.take n).length + (Layout.pageWords - n)) := by
    refine (Progress.hasRoom_start d hr).of_le ?_
    rw [List.length_take, hw]
    omega
  have hsteps := steps_eq .empty (hfits.of_le (Nat.le_add_right ..))
  rw [Tally.empty_add] at hsteps
  exact ⟨hsteps, hfits.after_run⟩

/-- A page is scanned from any dictionary if there is room for a full word for each of its words. -/
theorem page_eq {words : List Word} {full : Buffer} (d : Dictionary)
    (hw : words.length = Layout.pageWords) (hf : Layout.pageWords ≤ full.length) :
    page words ⟨d, .empty, full⟩ = .ok (.count (d.trace words).tags)
      ⟨d.seeAll words, (d.trace words).streams, full.overlay (d.trace words).missed⟩ := by
  have hsteps := steps_eq .empty (hw.symm ▸ Progress.hasRoom_start d hf)
  simp only [Tally.empty_add] at hsteps
  simp only [page, hw, ne_eq, not_true_eq_false, if_false, if_neg (Nat.not_lt.2 hf), hsteps]
  simp [Progress.leave, Progress.after, Streams.empty, Trace.streams]

end Scan

/-! ## Reading a trace back -/

namespace Decoder

/-- A word is given back by its tag, from a dictionary that has seen what the scan had seen. -/
theorem step_word (d : Dictionary) (w : Word) (rest : Supply) :
    step d (Trace.supply [(d.tag w, w)] rest) (d.tag w) = some (w, d.see w, rest) := by
  rcases d.see_cases w with
    ⟨hw, htag, hsee⟩ | ⟨-, hw, htag, hsee⟩ | ⟨-, -, hh, htag, hsee⟩ | ⟨-, -, -, htag, hsee⟩
  · rw [htag, hsee, Trace.supply_word]
    simp [step, ← hw]
  · rw [htag, hsee, Trace.supply_word]
    simp [step, hw]
  · have hback : (d.get w.slot).withPattern w.pattern = w := Word.withPattern_pattern hh
    rw [htag, hsee, Trace.supply_word]
    simp [step, hback]
  · rw [htag, hsee, Trace.supply_word]
    rfl

/-- A run of words is given back by its trace, and what comes after the trace is left. -/
theorem replay_trace (d : Dictionary) (ws : List Word) (rest : Supply) :
    replay d ((d.trace ws).supply rest) (d.trace ws).tags = some (ws, d.seeAll ws, rest) := by
  induction ws generalizing d with
  | nil => rfl
  | cons w ws ih =>
    have ht : Trace.tags ((d.tag w, w) :: (d.see w).trace ws)
        = d.tag w :: ((d.see w).trace ws).tags := rfl
    rw [Dictionary.trace, Trace.supply_cons, ht, replay, step_word]
    simp [ih, Dictionary.seeAll]

end Decoder

end PageCodec
