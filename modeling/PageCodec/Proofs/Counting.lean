import PageCodec.Proofs.Pages

/-!
# Bytes that are counted

A pager counts the bytes that go into pages, and its source counts the bytes that it hands out.  The
two counts come apart in one case only: a page has been begun when its source fails.  Its bytes have
been handed out then, but they are lost, and the pager never counts them.

* `Pager.Failed` — one of the calls so far has answered with a failure.
* `Pager.bytesRead_consumed` — the two counts, call by call.
* `Pager.bytesRead_lost` — a byte that is handed out and not counted.
-/

namespace PageCodec

namespace Delivery

variable {d : Delivery}

/-- No failure is answered to a delivery that stops at the end of the input. -/
theorem answers_ne_failure (h : d.ending = .endOfInput) (m : Nat) (reason : InputFailure) :
    d.answers[m]? ≠ some (.error reason) := by
  intro hm
  have hmem := List.mem_of_getElem? hm
  simp [answers, h, Ending.report] at hmem

/-- The failure at the stop is answered behind the pages. -/
theorem answers_failure {reason : InputFailure} (h : d.ending = .failure reason) :
    d.answers[d.bytes.length / Layout.pageBytes]? = some (.error reason) := by
  have hpages : (d.pages.map .ok : List (Except InputFailure (List Word))).length
      = d.bytes.length / Layout.pageBytes := by
    rw [List.length_map, pages, Pager.length_cut, pageCount, h]
  rw [answers, List.getElem?_append_right (Nat.le_of_eq hpages), hpages, h, Nat.sub_self]
  rfl

end Delivery

namespace Pager

/-- One of the first `n` calls answers with a failure. -/
def Failed (n : Nat) (p : Pager) : Prop := ∃ m < n, ∃ reason, p.answer m = some (.error reason)

variable {p : Pager} {d : Delivery}

/-- The counts after any number of calls, by what has been delivered.  Calls for whole pages keep
them equal, and the call that comes to the stop settles them for good. -/
theorem Ahead.counts (hp : p.Ahead d) (n : Nat) :
    ((p.advance n).bytesRead = p.bytesRead + Layout.pageBytes * n
        ∧ (p.advance n).source.consumed = p.source.consumed + Layout.pageBytes * n)
      ∨ (d.bytes.length / Layout.pageBytes < n
        ∧ (p.advance n).bytesRead = p.bytesRead + d.counted
        ∧ (p.advance n).source.consumed = p.source.consumed + d.bytes.length) := by
  rcases Nat.lt_or_ge (d.bytes.length / Layout.pageBytes) n with h | h
  · obtain ⟨-, hsource, hread⟩ := hp.advance_stop h
    exact .inr ⟨h, hread, by rw [hsource]⟩
  · have hle : Layout.pageBytes * n ≤ d.bytes.length :=
      (Nat.mul_le_mul_left _ h).trans (Nat.mul_div_le ..)
    obtain ⟨-, hconsumed, hread⟩ := hp.advance_pages hle
    exact .inl ⟨hread, hconsumed⟩

theorem Ahead.not_failed (hp : p.Ahead d) (h : d.ending = .endOfInput) (n : Nat) :
    ¬ p.Failed n := by
  rintro ⟨m, -, reason, hm⟩
  rw [hp.answer_eq] at hm
  exact Delivery.answers_ne_failure h m reason hm

theorem Ahead.failed (hp : p.Ahead d) {reason : InputFailure} (h : d.ending = .failure reason)
    {n : Nat} (hn : d.bytes.length / Layout.pageBytes < n) : p.Failed n :=
  ⟨_, hn, reason, (hp.answer_eq _).trans (Delivery.answers_failure h)⟩

/-- **Which bytes are counted.**  After any number of calls a pager has counted all bytes that its
source has handed out, unless a call has failed in the middle of a page.  After a failure it has
counted the bytes of whole pages, and no others. -/
theorem bytesRead_consumed (events : List Event) (n : Nat) :
    let p := ofSource (.ofEvents events)
    ((p.advance n).bytesRead = (p.advance n).source.consumed
        ↔ (p.Failed n → Layout.pageBytes ∣ (p.advance n).source.consumed))
      ∧ (p.Failed n → (p.advance n).bytesRead
        = Layout.pageBytes * ((p.advance n).source.consumed / Layout.pageBytes)) := by
  intro p
  have hp : p.Ahead (.ofEvents events) := ⟨rfl, rfl⟩
  have hstart : p.bytesRead = 0 ∧ p.source.consumed = 0 := ⟨rfl, rfl⟩
  rcases hp.counts n with ⟨hread, hconsumed⟩ | ⟨hn, hread, hconsumed⟩
  · rw [hread, hconsumed, hstart.1, hstart.2, Nat.zero_add]
    refine ⟨⟨fun _ _ => Nat.dvd_mul_right .., fun _ => rfl⟩, fun _ => ?_⟩
    rw [Nat.mul_div_cancel_left _ (by decide)]
  · rw [hread, hconsumed, hstart.1, hstart.2, Nat.zero_add, Nat.zero_add, Delivery.counted]
    cases hending : (Delivery.ofEvents events).ending with
    | endOfInput =>
      have hnot := hp.not_failed hending n
      exact ⟨⟨fun _ h => absurd h hnot, fun _ => rfl⟩, fun h => absurd h hnot⟩
    | failure reason =>
      refine ⟨?_, fun _ => rfl⟩
      have hfailed := hp.failed hending hn
      rw [Nat.mul_comm, ← Nat.dvd_iff_div_mul_eq]
      exact ⟨fun h _ => h, fun h => h hfailed⟩

/-- A byte is handed out before the source fails, and the pager does not count it. -/
theorem bytesRead_lost : ¬ ∀ events n,
    ((ofSource (.ofEvents events)).advance n).bytesRead
      = ((ofSource (.ofEvents events)).advance n).source.consumed := by
  intro h
  let events : List Event := [.data [170], .failure ⟨.other, "disk", none⟩]
  have hp : (ofSource (.ofEvents events)).Ahead (.ofEvents events) := ⟨rfl, rfl⟩
  obtain ⟨-, hsource, hread⟩ := hp.advance_stop (n := 1) (by decide)
  have hcounts := h events 1
  rw [hsource, hread] at hcounts
  exact absurd hcounts (by decide)

end Pager

end PageCodec
