import PageCodec.Proofs.Trace

/-!
# Reading along with a scan

A scan may start from any dictionary: one that holds zeros, or words in slots that are not theirs.
Whoever starts to read from the same dictionary is given back the page from what the scan leaves,
uses up all of it, and holds at every word the dictionary that the scan held there.

* `Workspace.supply` — what a scan leaves to be read besides its tags.
* `Decoder.replay_trace_take` — a reader in the middle of a trace.
* `Scan.InStep` — a scan that can be read along with.
* `Scan.page_replay` — the scan of a page is one, from any dictionary.
-/

namespace PageCodec

/-- What a scan leaves to be read besides its tags: its symbols, and its misses, which stand at the
front of the full words. -/
def Workspace.supply (ws : Workspace) (tally : Tally) : Decoder.Supply where
  positions := ws.streams.positions.toList
  patterns := ws.streams.patterns.toList
  fullWords := ws.fullWords.take tally.miss

theorem Trace.supply_nil (t : Trace) :
    t.supply ⟨[], [], []⟩ = ⟨t.positions, t.patterns, t.missed⟩ := by
  simp only [supply, List.append_nil]

namespace Decoder

/-- The first tags of a trace bring a reader to where the scan of the first words has come to. -/
theorem replay_trace_take (d : Dictionary) (ws : List Word) (rest : Supply) (n : Nat) :
    ∃ left, replay d ((d.trace ws).supply rest) ((d.trace ws).tags.take n)
      = some (ws.take n, d.seeAll (ws.take n), left) := by
  have hsplit : d.trace ws = d.trace (ws.take n) ++ (d.seeAll (ws.take n)).trace (ws.drop n) := by
    rw [← Dictionary.trace_append, List.take_append_drop]
  have htags : (d.trace ws).tags.take n = (d.trace (ws.take n)).tags := by
    rw [Dictionary.trace_take, Trace.tags, Trace.tags, List.map_take]
  refine ⟨((d.seeAll (ws.take n)).trace (ws.drop n)).supply rest, ?_⟩
  rw [htags, hsplit, Trace.supply_append]
  exact replay_trace d (ws.take n) _

end Decoder

namespace Scan

/-- A scan of `words` from the dictionary `d` that can be read along with. -/
structure InStep (d : Dictionary) (words : List Word) (full : Buffer) (tally : Tally)
    (ws : Workspace) : Prop where
  /-- What the scan leaves gives back the words and leads to its dictionary, and no symbol and no
  miss is left. -/
  replay : Decoder.replay d (ws.supply tally) ws.streams.tags.toList
    = some (words, ws.dictionary, ⟨[], [], []⟩)
  /-- Each tag is counted. -/
  counted : tally = .count ws.streams.tags.toList
  /-- The full words have no more room than they had. -/
  length_fullWords : ws.fullWords.length = full.length
  /-- Behind the misses the full words are what they were. -/
  behind : ws.fullWords.drop tally.miss = full.drop tally.miss
  /-- After any number of words the reader has the dictionary that the scan has there. -/
  middle : ∀ n, ∃ c p left, steps full.length .empty (words.take n) ⟨d, .empty, #[]⟩ = .ok c p
    ∧ Decoder.replay d (ws.supply tally) (ws.streams.tags.toList.take n)
      = some (words.take n, p.dictionary, left)

/-- **Lockstep.**  A page is scanned from any dictionary, and what the scan leaves is read back from
the same dictionary word for word. -/
theorem page_replay (d : Dictionary) (words : List Word) (full : Buffer)
    (hw : words.length = Layout.pageWords) (hf : Layout.pageWords ≤ full.length) :
    ∃ tally ws, page words ⟨d, .empty, full⟩ = .ok tally ws ∧ InStep d words full tally ws := by
  have hmiss : (Tally.count (d.trace words).tags).miss = (d.trace words).missed.length :=
    (d.trace words).length_missed.symm
  have hle : (d.trace words).missed.length ≤ full.length := by
    have hall := (d.trace words).length_eq_zero_add
    rw [Dictionary.length_trace, hw] at hall
    omega
  have hsupply : Workspace.supply
      ⟨d.seeAll words, (d.trace words).streams, full.overlay (d.trace words).missed⟩
      (.count (d.trace words).tags) = (d.trace words).supply ⟨[], [], []⟩ := by
    rw [Trace.supply_nil, Workspace.supply, hmiss, Buffer.overlay, List.take_left]
    rfl
  refine ⟨_, _, page_eq d hw hf, ?_⟩
  constructor
  · rw [hsupply]
    exact Decoder.replay_trace d words _
  · rfl
  · exact Buffer.length_overlay hle
  · rw [hmiss, Buffer.overlay, List.drop_left]
  · intro n
    obtain ⟨hsteps, -⟩ := steps_take d hw hf n
    obtain ⟨left, hleft⟩ := Decoder.replay_trace_take d words ⟨[], [], []⟩ n
    refine ⟨_, _, left, hsteps, ?_⟩
    rw [hsupply]
    exact hleft

/-- A dictionary full of zeros, where a zero word is an exact match, and more room than a page
needs. -/
theorem page_replay_zeros :
    let d : Dictionary := ⟨Vector.replicate 16 0⟩
    let words : List Word := (List.range 1024).map fun i => UInt32.ofNat (512 * i)
    let full : Buffer := List.replicate 1100 7
    ∃ tally ws, page words ⟨d, .empty, full⟩ = .ok tally ws ∧ InStep d words full tally ws :=
  page_replay _ _ _ (by rw [List.length_map, List.length_range, Layout.pageWords_eq])
    (by rw [List.length_replicate, Layout.pageWords_eq]; decide)

end Scan

end PageCodec
