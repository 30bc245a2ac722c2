import PageCodec.Proofs.Reuse

/-!
# A call and its phases

A call is settled before anything is written: by the length of the page, and then by the room in
the buffer.  A call that passes both has room for each symbol and each full word when it comes to
it, finds whole groups wherever it packs, and writes three ends that fit a word, so none of the
operations that it is made of can stop.

* `Encoder.Checked` — a call is settled by its lengths, and one that is turned down writes nothing.
* `Encoder.encode_cases` — what can become of a call.
* `Encoder.Phases` — the operations that a call is made of, each with what it leaves.
* `Encoder.encode_phases` — a call that completes has gone through all of them.
* `Encoder.encode_settled` — both together.
-/

namespace PageCodec

/-! ## What an operation that completes has found -/

/-- The area was there, and the operation on it completed. -/
theorem Buffer.onArea_eq_ok {α : Type} {start stop : Nat} {act : EStateM Stop Buffer α}
    {b b' : Buffer} {a : α} (h : onArea start stop act b = .ok a b') :
    ∃ area', act (b.area start stop) = .ok a area' := by
  unfold onArea at h
  split at h
  · split at h
    · cases h
      exact ⟨_, ‹_›⟩
    · cases h
  · cases h

theorem Packing.pack_eq_ok {p : Packing} {run : List Nat} {b b' : Buffer} {n : Nat}
    (h : p.pack run b = .ok n b') : n = run.length / p.group := by
  unfold Packing.pack at h
  dsimp only at h
  split at h
  · cases h
  · split at h
    · cases h
    · cases h
      rfl

namespace Dictionary

theorem lookup?_val (d : Dictionary) (s : Slot) : d.lookup? s = some (d.get s) :=
  dif_pos s.isLt

theorem update?_val (d : Dictionary) (s : Slot) (w : Word) : d.update? s w = some (d.set s w) :=
  dif_pos s.isLt

end Dictionary

namespace Encoder

variable {page : List Word} {b b' : Buffer} {e : Encoded}

theorem packFrom_eq_ok {packing : Packing} {start stop : Nat} {run : Option (List Nat)}
    (h : packFrom packing start run b = .ok stop b') :
    ∃ symbols count, run = some symbols
      ∧ Buffer.onArea start b.length (packing.pack symbols) b = .ok count b'
      ∧ stop = start + count := by
  cases run with
  | none => cases h
  | some symbols =>
    rw [packFrom, bind_get] at h
    obtain ⟨count, b₁, hpack, hstop⟩ := bind_eq_ok h
    cases hstop
    exact ⟨symbols, count, rfl, hpack, rfl⟩

theorem scan_eq_ok {tally : Tally} {streams : Streams} (h : scan page b = .ok (tally, streams) b') :
    ∃ ws, Scan.page page ⟨.new, .empty, b⟩ = .ok tally ws ∧ ws.streams = streams := by
  unfold scan at h
  split at h
  · cases h
    exact ⟨_, ‹_›, rfl⟩
  · cases h

/-! ## The phases of a call -/

/-- The words of a buffer that a scan may put full words in. -/
def fullWordRoom (b : Buffer) : Buffer := b.area Layout.fullWordsStart b.length

theorem le_length_fullWordRoom (h : Layout.maxWords ≤ b.length) :
    Layout.pageWords ≤ (fullWordRoom b).length := by
  rw [fullWordRoom, Buffer.length_area b (Nat.le_refl _)]
  rw [Layout.maxWords_eq] at h
  rw [Layout.pageWords_eq, Layout.fullWordsStart_eq]
  omega

/-- The operations that a call is made of, in order, each with what it leaves.  All complete. -/
structure Phases (page : List Word) (b : Buffer) (e : Encoded) (b' : Buffer) where
  /-- What the scan leaves. -/
  workspace : Workspace
  /-- The slots, filled up to whole words. -/
  slots : List Nat
  /-- The patterns, filled up to whole words. -/
  patterns : List Nat
  /-- The buffer with the full words. -/
  scanned : Buffer
  /-- The buffer with the tags as well. -/
  tagged : Buffer
  /-- The buffer with the slots as well. -/
  placed : Buffer
  /-- The buffer with the patterns as well. -/
  filled : Buffer
  /-- The buffer with the first end. -/
  first : Buffer
  /-- The buffer with the second end as well. -/
  second : Buffer
  /-- The page is scanned to its end. -/
  page_ok : Scan.page page ⟨.new, .empty, fullWordRoom b⟩ = .ok e.tally workspace
  /-- At every word of the scan there is room in each stream and among the full words, whatever the
  tags of the words to come will be. -/
  steps_ok : ∀ n, ∃ tally p, Scan.steps (fullWordRoom b).length .empty (page.take n)
      ⟨.new, .empty, #[]⟩ = .ok tally p
    ∧ p.HasRoom (fullWordRoom b).length (Layout.pageWords - n)
  /-- The dictionary has a place for each word. -/
  slots_exist : ∀ w ∈ page, ∀ d : Dictionary, d.lookup? w.slot = some (d.get w.slot)
    ∧ d.update? w.slot w = some (d.set w.slot w)
  /-- The full words go to their area. -/
  scan_ok : Buffer.onArea Layout.fullWordsStart b.length (scan page) b
    = .ok (e.tally, workspace.streams) scanned
  /-- The tags are whole groups and fill their area. -/
  tags_ok : Buffer.onArea Layout.tagsStart Layout.fullWordsStart
    (Packing.tags.pack workspace.streams.tagCodes) scanned = .ok Layout.tagWords tagged
  /-- There is room to fill up the slots. -/
  slots_padded : workspace.streams.paddedPositions? = some slots
  /-- They are whole groups then, and there is room for their words. -/
  slots_ok : Buffer.onArea e.fullWordsEnd tagged.length (Packing.positions.pack slots) tagged
    = .ok (e.positionsEnd - e.fullWordsEnd) placed
  /-- There is room to fill up the patterns. -/
  patterns_padded : workspace.streams.paddedPatterns? = some patterns
  /-- They are whole groups then, and there is room for their words. -/
  patterns_ok : Buffer.onArea e.positionsEnd placed.length (Packing.patterns.pack patterns) placed
    = .ok (e.patternsEnd - e.positionsEnd) filled
  /-- The first end has a place in the header. -/
  first_ok : Buffer.put 1 (UInt32.ofNat e.fullWordsEnd) filled = .ok () first
  /-- The second end has one. -/
  second_ok : Buffer.put 2 (UInt32.ofNat e.positionsEnd) first = .ok () second
  /-- The third end has one, and with it the call is done. -/
  third_ok : Buffer.put 3 (UInt32.ofNat e.patternsEnd) second = .ok () b'
  /-- No end is cut down to the width of a word. -/
  ends_ok : (UInt32.ofNat e.fullWordsEnd).toNat = e.fullWordsEnd
    ∧ (UInt32.ofNat e.positionsEnd).toNat = e.positionsEnd
    ∧ (UInt32.ofNat e.patternsEnd).toNat = e.patternsEnd

/-- The tags of a page fill as many words as their area has. -/
theorem tagCodes_fill_tagWords {room : Buffer} {tally : Tally} {ws : Workspace}
    (hp : page.length = Layout.pageWords) (hr : Layout.pageWords ≤ room.length)
    (h : Scan.page page ⟨.new, .empty, room⟩ = .ok tally ws) :
    ws.streams.tagCodes.length / Packing.tags.group = Layout.tagWords := by
  rw [Scan.page_eq .new hp hr] at h
  cases h
  have hlen : (trace page).tags.length = Layout.pageWords :=
    (Trace.length_tags _).trans (length_trace hp)
  rw [Streams.tagCodes, List.length_map]
  exact congrArg (· / Packing.tags.group) hlen

theorem encode_phases (h : encode page b = .ok e b') : Nonempty (Phases page b e b') := by
  obtain ⟨hp, hb, he⟩ := encode_eq_ok h
  have hroom := le_length_fullWordRoom hb
  have hends : (UInt32.ofNat e.fullWordsEnd).toNat = e.fullWordsEnd
      ∧ (UInt32.ofNat e.positionsEnd).toNat = e.positionsEnd
      ∧ (UInt32.ofNat e.patternsEnd).toNat = e.patternsEnd := by
    rw [he]
    exact Trace.toNat_ends (length_trace hp) 0
  -- the call is taken apart from its first operation to its last
  rw [encode, if_neg (not_not.2 hp), if_neg (Nat.not_lt.2 hb)] at h
  unfold writeAreas at h
  rw [bind_get] at h
  obtain ⟨⟨tally, streams⟩, scanned, hscan, h⟩ := bind_eq_ok h
  dsimp only at h
  obtain ⟨count, tagged, htags, h⟩ := bind_eq_ok h
  obtain ⟨positionsEnd, placed, hpositions, h⟩ := bind_eq_ok h
  obtain ⟨patternsEnd, filled, hpatterns, h⟩ := bind_eq_ok h
  obtain ⟨⟨⟩, first, hfirst, h⟩ := bind_eq_ok h
  obtain ⟨⟨⟩, second, hsecond, h⟩ := bind_eq_ok h
  obtain ⟨⟨⟩, third, hthird, h⟩ := bind_eq_ok h
  cases h
  obtain ⟨_, hscanArea⟩ := Buffer.onArea_eq_ok hscan
  obtain ⟨ws, hpage, rfl⟩ := scan_eq_ok hscanArea
  obtain ⟨_, htagArea⟩ := Buffer.onArea_eq_ok htags
  obtain rfl : count = Layout.tagWords :=
    (Packing.pack_eq_ok htagArea).trans (tagCodes_fill_tagWords hp hroom hpage)
  obtain ⟨slots, n, hslots, hpackSlots, rfl⟩ := packFrom_eq_ok hpositions
  obtain ⟨patterns, m, hpads, hpackPatterns, rfl⟩ := packFrom_eq_ok hpatterns
  exact ⟨{
    workspace := ws, slots, patterns, scanned, tagged, placed, filled, first, second
    page_ok := hpage
    steps_ok := fun n => ⟨_, _, Scan.steps_take .new hp hroom n⟩
    slots_exist := fun w _ d => ⟨d.lookup?_val w.slot, d.update?_val w.slot w⟩
    scan_ok := hscan
    tags_ok := htags
    slots_padded := hslots
    slots_ok := by rwa [Nat.add_sub_cancel_left]
    patterns_padded := hpads
    patterns_ok := by rwa [Nat.add_sub_cancel_left]
    first_ok := hfirst
    second_ok := hsecond
    third_ok := hthird
    ends_ok := hends }⟩

/-! ## Calls and their lengths -/

/-- A call is settled by the length of its page and the room in its buffer, and one that is turned
down writes nothing. -/
structure Checked {α : Type} (call : List Word → EStateM Stop Buffer α) : Prop where
  /-- A page of another length is turned down first. -/
  pageLength : ∀ page b,
    call page b = .error (.rejected (.pageLength Layout.pageWords page.length)) b
      ↔ page.length ≠ Layout.pageWords
  /-- A buffer without room for every page is turned down next. -/
  capacity : ∀ page b, call page b = .error (.rejected (.capacity Layout.maxWords b.length)) b
    ↔ page.length = Layout.pageWords ∧ b.length < Layout.maxWords
  /-- Every other call completes. -/
  completes : ∀ page b, (∃ a b', call page b = .ok a b')
    ↔ page.length = Layout.pageWords ∧ Layout.maxWords ≤ b.length
  /-- A call that does not complete leaves the buffer as it was. -/
  unchanged : ∀ page b stop b', call page b = .error stop b' → b' = b

/-- What is made of an answer does not matter. -/
theorem Checked.map {α β : Type} {call : List Word → EStateM Stop Buffer α} (h : Checked call)
    (f : α → β) : Checked fun page => f <$> call page := by
  have herror : ∀ page b stop b', (f <$> call page) b = .error stop b'
      ↔ call page b = .error stop b' := by
    intro page b stop b'
    show EStateM.map f (call page) b = _ ↔ _
    rw [EStateM.map]
    cases call page b <;> simp
  have hok : ∀ page b, (∃ c b', (f <$> call page) b = .ok c b')
      ↔ ∃ a b', call page b = .ok a b' := by
    intro page b
    show (∃ c b', EStateM.map f (call page) b = _) ↔ _
    rw [EStateM.map]
    cases call page b <;> simp
  constructor
  · intro page b
    rw [herror, h.pageLength]
  · intro page b
    rw [herror, h.capacity]
  · intro page b
    rw [hok, h.completes]
  · intro page b stop b' hstop
    exact h.unchanged page b stop b' ((herror ..).1 hstop)

theorem encode_cases (page : List Word) (b : Buffer) :
    (page.length ≠ Layout.pageWords
        ∧ encode page b = .error (.rejected (.pageLength Layout.pageWords page.length)) b)
      ∨ (page.length = Layout.pageWords ∧ b.length < Layout.maxWords
        ∧ encode page b = .error (.rejected (.capacity Layout.maxWords b.length)) b)
      ∨ (page.length = Layout.pageWords ∧ Layout.maxWords ≤ b.length
        ∧ ∃ e b', encode page b = .ok e b') := by
  by_cases hp : page.length = Layout.pageWords
  · rcases Nat.lt_or_ge b.length Layout.maxWords with hb | hb
    · exact .inr (.inl ⟨hp, hb, encode_of_capacity hp hb⟩)
    · obtain ⟨algorithm, b, rfl⟩ := exists_cons hb
      exact .inr (.inr ⟨hp, hb, _, _, encode_eq hp hb⟩)
  · exact .inl ⟨hp, encode_of_length_ne hp⟩

theorem checked_encode : Checked encode := by
  constructor
  · intro page b
    rcases encode_cases page b with ⟨hp, h⟩ | ⟨hp, hb, h⟩ | ⟨hp, hb, e, b', h⟩ <;> simp [h, hp]
  · intro page b
    rcases encode_cases page b with ⟨hp, h⟩ | ⟨hp, hb, h⟩ | ⟨hp, hb, e, b', h⟩
    · simp [h, hp]
    · simp [h, hp, hb]
    · simp [h, Nat.not_lt.2 hb]
  · intro page b
    rcases encode_cases page b with ⟨hp, h⟩ | ⟨hp, hb, h⟩ | ⟨hp, hb, e, b', h⟩
    · simp [h, hp]
    · simp [h, Nat.not_le.2 hb]
    · simp [h, hp, hb]
  · intro page b stop b' hstop
    rcases encode_cases page b with ⟨hp, h⟩ | ⟨hp, hb, h⟩ | ⟨hp, hb, e, c, h⟩ <;>
      rw [h] at hstop <;> cases hstop <;> rfl

/-- **Settled at the entry.**  A call is turned down for one of its lengths and then writes nothing,
or it completes and then every operation that it is made of has completed. -/
theorem encode_settled :
    Checked encode ∧ Checked encodeLength
      ∧ ∀ page b e b', encode page b = .ok e b' →
        encodeLength page b = .ok e.length b' ∧ Nonempty (Phases page b e b') := by
  refine ⟨checked_encode, checked_encode.map Encoded.length, ?_⟩
  intro page b e b' h
  exact ⟨encodeLength_eq h, encode_phases h⟩

end Encoder

end PageCodec
