import Mathlib.Algebra.Order.Floor.Div
import PageCodec.Proofs.Delivery

/-!
# The pages of a source

A pager answers with the pages that the delivery of its source is cut into.  At the end of the
input a page that has been begun is filled up with zeros and answered like the others; at a failure
it is lost, and the failure is answered in its place, once.  Then there are no more answers, and
the source is not read again.

* `Delivery.pages` — the pages that a delivery is cut into, which are what they have to be
  (`Delivery.CutInto`, `Delivery.cutInto_pages`).
* `Pager.advance`, `Pager.answer` — calls one after another.
* `Pager.Ahead` — a pager at work, with what is still to be delivered to it; a call takes a whole
  page off the delivery (`Pager.Ahead.next_page`) or comes to its stop (`Pager.Ahead.next_stop`).
* `Pager.SameAfter` — pagers that a caller cannot tell apart.
* `Pager.Serves` — a pager that answers with the pages of a delivery and takes no more than it
  needs.
* `Pager.answers_delivered` — every pager does, and only the bytes and the stop matter.  What its
  buffer holds from an earlier page does not (`Pager.words_clearFrom`).
-/

namespace PageCodec

namespace Pager

/-! ## Cutting bytes into pages -/

/-- The words of a page, given its bytes, with zeros for the bytes that are missing. -/
def pageOfBytes (bytes : List UInt8) : List Word :=
  Word.listOfBytes (bytes ++ List.replicate (Layout.pageBytes - bytes.length) 0)

/-- The first `n` pages of a list of bytes, with zeros for bytes that are missing. -/
def cut : Nat → List UInt8 → List (List Word)
  | 0, _ => []
  | n + 1, bytes =>
    pageOfBytes (bytes.take Layout.pageBytes) :: cut n (bytes.drop Layout.pageBytes)

theorem length_cut (n : Nat) (bytes : List UInt8) : (cut n bytes).length = n := by
  induction n generalizing bytes with
  | zero => rfl
  | succ n ih => rw [cut, List.length_cons, ih]

theorem length_filled {bytes : List UInt8} (h : bytes.length ≤ Layout.pageBytes) :
    (bytes ++ List.replicate (Layout.pageBytes - bytes.length) 0).length = Layout.pageBytes := by
  rw [List.length_append, List.length_replicate]
  omega

/-- Nothing of what was in a buffer before gets into the page that is read into it: bytes are laid
over its front, and the rest is cleared. -/
theorem words_clearFrom (b : PageBuffer) {bytes : List UInt8}
    (h : bytes.length ≤ Layout.pageBytes) :
    ((b.overlay 0 bytes).clearFrom bytes.length).words = pageOfBytes bytes := by
  have hzeros : bytes.length + (List.replicate (Layout.pageBytes - bytes.length) (0 : UInt8)).length
      = Layout.pageBytes := by
    rw [← List.length_append, length_filled h]
  have hfront : (b.overlay 0 bytes).bytes.toList.take bytes.length = bytes := by
    rw [b.toList_overlay (by rwa [Nat.zero_add]), List.take_zero, List.nil_append, List.take_left]
  have hrest : (b.overlay 0 bytes).bytes.toList.drop Layout.pageBytes = [] :=
    List.drop_eq_nil_of_le (Nat.le_of_eq Vector.length_toList)
  rw [PageBuffer.words, PageBuffer.clearFrom,
    PageBuffer.toList_overlay _ (Nat.le_of_eq hzeros), hzeros, hfront, hrest, List.append_nil,
    pageOfBytes]

theorem length_pageOfBytes {bytes : List UInt8} (h : bytes.length ≤ Layout.pageBytes) :
    (pageOfBytes bytes).length = Layout.pageWords := by
  rw [pageOfBytes, Word.length_listOfBytes, length_filled h]
  rfl

theorem flatMap_bytes_pageOfBytes {bytes : List UInt8} (h : bytes.length ≤ Layout.pageBytes) :
    (pageOfBytes bytes).flatMap Word.bytes
      = bytes ++ List.replicate (Layout.pageBytes - bytes.length) 0 := by
  refine Word.flatMap_bytes_listOfBytes ?_
  rw [length_filled h]
  exact ⟨Layout.pageWords, rfl⟩

theorem length_of_mem_cut {n : Nat} {bytes : List UInt8} {page : List Word}
    (h : page ∈ cut n bytes) : page.length = Layout.pageWords := by
  induction n generalizing bytes with
  | zero => cases h
  | succ n ih =>
    rcases List.mem_cons.1 h with rfl | h
    · exact length_pageOfBytes (List.length_take_le ..)
    · exact ih h

/-- Pages hold the bytes that they are cut from, and zeros behind these. -/
theorem flatMap_bytes_cut (n : Nat) (bytes : List UInt8) :
    (cut n bytes).flatMap (·.flatMap Word.bytes) = bytes.take (Layout.pageBytes * n)
      ++ List.replicate (Layout.pageBytes * n - bytes.length) 0 := by
  induction n generalizing bytes with
  | zero => simp [cut]
  | succ n ih =>
    rw [cut, List.flatMap_cons, flatMap_bytes_pageOfBytes (List.length_take_le ..), ih,
      Nat.mul_succ]
    rcases Nat.le_total bytes.length Layout.pageBytes with h | h
    · have hall : bytes.length ≤ Layout.pageBytes * n + Layout.pageBytes :=
        h.trans (Nat.le_add_left ..)
      rw [List.take_of_length_le h, List.drop_eq_nil_of_le h, List.take_of_length_le hall]
      simp only [List.take_nil, List.nil_append, List.length_nil, List.append_assoc,
        List.replicate_append_replicate]
      congr 2
      omega
    · have hrest : Layout.pageBytes * n - (bytes.drop Layout.pageBytes).length
          = Layout.pageBytes * n + Layout.pageBytes - bytes.length := by
        rw [List.length_drop]
        omega
      rw [List.length_take, Nat.min_eq_left h, Nat.sub_self, List.replicate_zero, List.append_nil,
        hrest, ← List.append_assoc, Nat.add_comm (Layout.pageBytes * n), List.take_add]

end Pager

/-! ## The answers to a delivery -/

/-- What is answered at a stop in place of a page. -/
def Ending.report : Ending → List (Except InputFailure (List Word))
  | .endOfInput => []
  | .failure reason => [.error reason]

namespace Delivery

variable {d : Delivery}

/-- Number of pages of a delivery: a page that has been begun counts at the end of the input but not
at a failure. -/
def pageCount (d : Delivery) : Nat :=
  match d.ending with
  | .endOfInput => d.bytes.length ⌈/⌉ Layout.pageBytes
  | .failure _ => d.bytes.length / Layout.pageBytes

/-- The pages of a delivery. -/
def pages (d : Delivery) : List (List Word) := Pager.cut d.pageCount d.bytes

/-- The answers to a delivery. -/
def answers (d : Delivery) : List (Except InputFailure (List Word)) :=
  d.pages.map .ok ++ d.ending.report

/-- Number of bytes of a delivery that go into pages. -/
def counted (d : Delivery) : Nat :=
  match d.ending with
  | .endOfInput => d.bytes.length
  | .failure _ => Layout.pageBytes * (d.bytes.length / Layout.pageBytes)

/-- What the pages of a delivery have to be. -/
structure CutInto (d : Delivery) (pages : List (List Word)) : Prop where
  /-- Each has the length of a page. -/
  length_page : ∀ page ∈ pages, page.length = Layout.pageWords
  /-- At the end of the input they hold all bytes, and as many zeros as the last page needs. -/
  at_end : d.ending = .endOfInput → pages.length = d.bytes.length ⌈/⌉ Layout.pageBytes
    ∧ ∃ n < Layout.pageBytes,
      pages.flatMap (·.flatMap Word.bytes) = d.bytes ++ List.replicate n 0
  /-- At a failure they hold the bytes of the whole pages before it. -/
  at_failure : ∀ reason, d.ending = .failure reason →
    pages.length = d.bytes.length / Layout.pageBytes
      ∧ pages.flatMap (·.flatMap Word.bytes) = d.bytes.take (Layout.pageBytes * pages.length)

theorem cutInto_pages (d : Delivery) : d.CutInto d.pages := by
  constructor
  · exact fun page h => Pager.length_of_mem_cut h
  · intro hd
    have hcount : d.pageCount = d.bytes.length ⌈/⌉ Layout.pageBytes := by
      rw [pageCount, hd]
    have hbound : d.bytes.length ≤ Layout.pageBytes * d.pageCount
        ∧ Layout.pageBytes * d.pageCount - d.bytes.length < Layout.pageBytes := by
      rw [hcount, Nat.ceilDiv_eq_add_pred_div, Layout.pageBytes_eq]
      omega
    refine ⟨(Pager.length_cut ..).trans hcount, _, hbound.2, ?_⟩
    rw [pages, Pager.flatMap_bytes_cut, List.take_of_length_le hbound.1]
  · intro reason hd
    have hcount : d.pageCount = d.bytes.length / Layout.pageBytes := by
      rw [pageCount, hd]
    have hle : Layout.pageBytes * d.pageCount ≤ d.bytes.length := by
      rw [hcount]
      exact Nat.mul_div_le ..
    refine ⟨(Pager.length_cut ..).trans hcount, ?_⟩
    rw [pages, Pager.length_cut, Pager.flatMap_bytes_cut, Nat.sub_eq_zero_of_le hle,
      List.replicate_zero, List.append_nil]

/-- The answers depend on the bytes and the stop only. -/
theorem answers_congr {c d : Delivery} (hbytes : c.bytes = d.bytes)
    (hending : c.ending = d.ending) : c.answers = d.answers := by
  rw [answers, answers, pages, pages, pageCount, pageCount, hbytes, hending]

theorem pageCount_drop (h : Layout.pageBytes ≤ d.bytes.length) :
    d.pageCount = (d.drop Layout.pageBytes).pageCount + 1 := by
  obtain ⟨bytes, ending, behind⟩ := d
  simp only [pageCount, drop, List.length_drop, Nat.ceilDiv_eq_add_pred_div,
    Layout.pageBytes_eq] at h ⊢
  cases ending with
  | endOfInput => dsimp only; omega
  | failure reason => dsimp only; omega

theorem counted_drop (h : Layout.pageBytes ≤ d.bytes.length) :
    d.counted = Layout.pageBytes + (d.drop Layout.pageBytes).counted := by
  obtain ⟨bytes, ending, behind⟩ := d
  simp only [counted, drop, List.length_drop, Layout.pageBytes_eq] at h ⊢
  cases ending with
  | endOfInput => dsimp only; omega
  | failure reason => dsimp only; omega

/-- The first page of a delivery that begins with a whole page, and the answers to the rest. -/
theorem answers_of_le (h : Layout.pageBytes ≤ d.bytes.length) :
    d.answers = .ok (Pager.pageOfBytes (d.bytes.take Layout.pageBytes))
      :: (d.drop Layout.pageBytes).answers := by
  rw [answers, pages, pageCount_drop h]
  rfl

/-- The only answer to less than a page, if there is any. -/
theorem answers_of_lt (h : d.bytes.length < Layout.pageBytes) :
    d.answers =
      match d.ending with
      | .endOfInput => if d.bytes = [] then [] else [.ok (Pager.pageOfBytes d.bytes)]
      | .failure reason => [.error reason] := by
  obtain ⟨bytes, ending, behind⟩ := d
  have hlt : bytes.length < 4096 := h
  simp only [answers, pages, pageCount, Nat.ceilDiv_eq_add_pred_div, Layout.pageBytes_eq]
  cases ending with
  | endOfInput =>
    by_cases hb : bytes = []
    · simp [hb, Pager.cut, Ending.report]
    · have hpos := List.length_pos_iff.2 hb
      have hcount : (bytes.length + 4096 - 1) / 4096 = 1 := by omega
      dsimp only
      rw [hcount, Pager.cut, List.take_of_length_le (Nat.le_of_lt h), if_neg hb]
      rfl
  | failure reason =>
    dsimp only
    rw [Nat.div_eq_of_lt hlt]
    rfl

theorem length_answers_of_lt (h : d.bytes.length < Layout.pageBytes) : d.answers.length ≤ 1 := by
  rw [answers_of_lt h]
  split
  · split <;> simp
  · simp

end Delivery

namespace Pager

/-! ## One call -/

/-- The pager is at work, and `d` is still to be delivered to it. -/
structure Ahead (p : Pager) (d : Delivery) : Prop where
  /-- There may be more pages. -/
  finished : p.finished = false
  /-- What the source will deliver. -/
  delivery : .ofEvents p.source.events = d

theorem next_of_finished {p : Pager} (h : p.finished = true) : p.next = (none, p) := by
  rw [next, if_pos h]

variable {p : Pager} {d : Delivery}

/-- A call that finds the bytes of a whole page takes them and no more. -/
theorem Ahead.next_page (hp : p.Ahead d) (h : Layout.pageBytes ≤ d.bytes.length) :
    p.next.1 = some (.ok (pageOfBytes (d.bytes.take Layout.pageBytes)))
      ∧ p.next.2.Ahead (d.drop Layout.pageBytes)
      ∧ p.next.2.source.consumed = p.source.consumed + Layout.pageBytes
      ∧ p.next.2.bytesRead = p.bytesRead + Layout.pageBytes := by
  obtain ⟨hfinished, rfl⟩ := hp
  obtain ⟨hanswer, hbuffer, hconsumed, hrest, -⟩ :=
    Source.fill_fills (Nat.zero_le _) p.buffer p.source
  rw [Nat.zero_add] at hanswer hrest
  rw [if_pos h] at hanswer
  rw [Nat.sub_zero] at hbuffer hconsumed hrest
  rw [Nat.min_eq_left h] at hconsumed
  have hlen : ((Delivery.ofEvents p.source.events).bytes.take Layout.pageBytes).length
      = Layout.pageBytes := List.length_take_of_le h
  have hwords := words_clearFrom p.buffer (Nat.le_of_eq hlen)
  rw [hlen, ← hbuffer] at hwords
  rw [next, hfinished]
  rcases hfill : p.source.fill 0 p.buffer with ⟨answer, b', s'⟩
  rw [hfill] at hanswer hwords hconsumed hrest
  dsimp only at hanswer hwords hconsumed hrest
  subst hanswer
  refine ⟨?_, ⟨rfl, hrest h⟩, hconsumed, rfl⟩
  rw [← hwords]
  rfl

/-- A call that comes to the stop gives what there is to give and uses the stop up. -/
theorem Ahead.next_stop (hp : p.Ahead d) (h : d.bytes.length < Layout.pageBytes) :
    p.next.1 = d.answers.head? ∧ p.next.2.finished = true
      ∧ p.next.2.source = ⟨d.behind, p.source.consumed + d.bytes.length⟩
      ∧ p.next.2.bytesRead = p.bytesRead + d.counted := by
  obtain ⟨hfinished, rfl⟩ := hp
  obtain ⟨hanswer, hbuffer, hconsumed, -, hbehind⟩ :=
    Source.fill_fills (Nat.zero_le _) p.buffer p.source
  rw [Nat.zero_add] at hanswer hbehind
  rw [if_neg (Nat.not_le.2 h)] at hanswer
  rw [Nat.sub_zero] at hbuffer hconsumed
  rw [List.take_of_length_le (Nat.le_of_lt h)] at hbuffer
  rw [Nat.min_eq_right (Nat.le_of_lt h)] at hconsumed
  replace hbehind := hbehind h
  have hwords := words_clearFrom p.buffer (Nat.le_of_lt h)
  rw [← hbuffer] at hwords
  rw [Delivery.answers_of_lt h, next, hfinished]
  rcases hfill : p.source.fill 0 p.buffer with ⟨answer, b', s'⟩
  rw [hfill] at hanswer hwords hconsumed hbehind
  dsimp only at hanswer hwords hconsumed hbehind
  have hs' : s' = ⟨(Delivery.ofEvents p.source.events).behind,
      p.source.consumed + (Delivery.ofEvents p.source.events).bytes.length⟩ := by
    rw [← hconsumed, ← hbehind]
  generalize Delivery.ofEvents p.source.events = d at *
  subst hanswer
  obtain ⟨bytes, ending, behind⟩ := d
  cases ending with
  | failure reason =>
    refine ⟨rfl, rfl, hs', ?_⟩
    rw [Delivery.counted, Nat.div_eq_of_lt h]
    rfl
  | endOfInput =>
    rcases bytes with _ | ⟨b, bs⟩
    · exact ⟨rfl, rfl, hs', rfl⟩
    · refine ⟨?_, decide_eq_true h, hs', rfl⟩
      rw [← hwords]
      rfl

/-! ## Calls one after another -/

/-- The pager after `n` calls. -/
def advance : Nat → Pager → Pager
  | 0, p => p
  | n + 1, p => advance n p.next.2

/-- What the call after `n` calls answers. -/
def answer (n : Nat) (p : Pager) : Option (Except InputFailure (List Word)) :=
  (p.advance n).next.1

theorem advance_of_finished (h : p.finished = true) (n : Nat) : p.advance n = p := by
  induction n with
  | zero => rfl
  | succ n ih => rw [advance, next_of_finished h, ih]

/-- A call for each page takes the pages from the source one by one. -/
theorem Ahead.advance_pages (hp : p.Ahead d) {n : Nat}
    (h : Layout.pageBytes * n ≤ d.bytes.length) :
    (p.advance n).Ahead (d.drop (Layout.pageBytes * n))
      ∧ (p.advance n).source.consumed = p.source.consumed + Layout.pageBytes * n
      ∧ (p.advance n).bytesRead = p.bytesRead + Layout.pageBytes * n := by
  induction n generalizing p d with
  | zero => exact ⟨hp, rfl, rfl⟩
  | succ n ih =>
    rw [Nat.mul_succ] at h ⊢
    obtain ⟨-, hnext, hconsumed, hread⟩ := hp.next_page (by omega)
    have hrest : Layout.pageBytes * n ≤ (d.drop Layout.pageBytes).bytes.length := by
      simp only [Delivery.drop, List.length_drop]
      omega
    obtain ⟨hahead, hconsumed', hread'⟩ := ih hnext hrest
    rw [hconsumed] at hconsumed'
    rw [hread] at hread'
    have hdrop : (d.drop Layout.pageBytes).drop (Layout.pageBytes * n)
        = d.drop (Layout.pageBytes * n + Layout.pageBytes) := by
      rw [Delivery.drop, Delivery.drop, Delivery.drop, List.drop_drop, Nat.add_comm]
    rw [hdrop] at hahead
    refine ⟨hahead, ?_, ?_⟩
    · rw [advance]
      omega
    · rw [advance]
      omega

/-- One more call than there are whole pages uses the stop up, and that is the end of it. -/
theorem Ahead.advance_stop (hp : p.Ahead d) {n : Nat} (h : d.bytes.length / Layout.pageBytes < n) :
    (p.advance n).finished = true
      ∧ (p.advance n).source = ⟨d.behind, p.source.consumed + d.bytes.length⟩
      ∧ (p.advance n).bytesRead = p.bytesRead + d.counted := by
  induction n generalizing p d with
  | zero => exact absurd h (Nat.not_lt_zero _)
  | succ n ih =>
    rw [advance]
    by_cases hle : Layout.pageBytes ≤ d.bytes.length
    · obtain ⟨-, hnext, hconsumed, hread⟩ := hp.next_page hle
      have hlen : (d.drop Layout.pageBytes).bytes.length = d.bytes.length - Layout.pageBytes :=
        List.length_drop
      have hpages : (d.drop Layout.pageBytes).bytes.length / Layout.pageBytes < n := by
        rw [hlen]
        rw [Layout.pageBytes_eq] at h hle ⊢
        omega
      obtain ⟨hfinished, hsource, hread'⟩ := ih hnext hpages
      refine ⟨hfinished, ?_, ?_⟩
      · rw [hsource, hconsumed, hlen, Nat.add_assoc, Nat.add_sub_cancel' hle]
        rfl
      · rw [hread', hread, Delivery.counted_drop hle, Nat.add_assoc]
    · obtain ⟨-, hfinished, hsource, hread⟩ := hp.next_stop (Nat.not_le.1 hle)
      rw [advance_of_finished hfinished]
      exact ⟨hfinished, hsource, hread⟩

/-- The calls answer what the delivery gives rise to, and nothing after that. -/
theorem Ahead.answer_eq (hp : p.Ahead d) (n : Nat) : p.answer n = d.answers[n]? := by
  induction n generalizing p d with
  | zero =>
    by_cases h : Layout.pageBytes ≤ d.bytes.length
    · rw [Delivery.answers_of_le h]
      exact (hp.next_page h).1
    · rw [← List.head?_eq_getElem?]
      exact (hp.next_stop (Nat.not_le.1 h)).1
  | succ n ih =>
    by_cases h : Layout.pageBytes ≤ d.bytes.length
    · rw [Delivery.answers_of_le h, List.getElem?_cons_succ]
      exact ih (hp.next_page h).2.1
    · have hlt := Nat.not_le.1 h
      have hover := Delivery.length_answers_of_lt hlt
      have hf := (hp.next_stop hlt).2.1
      rw [List.getElem?_eq_none (by omega), answer, advance, advance_of_finished hf,
        next_of_finished hf]

/-- After `n` calls a caller cannot tell one pager from the other. -/
structure SameAfter (p q : Pager) (n : Nat) : Prop where
  /-- The next call answers the same. -/
  answer : q.answer n = p.answer n
  /-- There may be more pages of both, or of neither. -/
  finished : (q.advance n).finished = (p.advance n).finished
  /-- As many bytes have been taken from their sources. -/
  consumed : (q.advance n).source.consumed = (p.advance n).source.consumed
  /-- As many bytes have gone into their pages. -/
  bytesRead : (q.advance n).bytesRead = (p.advance n).bytesRead

/-- The bytes and the stop settle everything that a caller can see. -/
theorem Ahead.sameAfter {q : Pager} {c : Delivery} (hp : p.Ahead d) (hq : q.Ahead c)
    (hbytes : c.bytes = d.bytes) (hending : c.ending = d.ending)
    (hconsumed : q.source.consumed = p.source.consumed) (hread : q.bytesRead = p.bytesRead)
    (n : Nat) : SameAfter p q n := by
  have hcounted : c.counted = d.counted := by
    rw [Delivery.counted, Delivery.counted, hbytes, hending]
  have hanswer : q.answer n = p.answer n := by
    rw [hp.answer_eq, hq.answer_eq, Delivery.answers_congr hbytes hending]
  rcases Nat.lt_or_ge (d.bytes.length / Layout.pageBytes) n with h | h
  · obtain ⟨hpf, hps, hpr⟩ := hp.advance_stop h
    obtain ⟨hqf, hqs, hqr⟩ := hq.advance_stop (hbytes.symm ▸ h)
    refine ⟨hanswer, hqf.trans hpf.symm, ?_, ?_⟩
    · rw [hps, hqs, hbytes, hconsumed]
    · rw [hpr, hqr, hread, hcounted]
  · have hle : Layout.pageBytes * n ≤ d.bytes.length :=
      (Nat.mul_le_mul_left _ h).trans (Nat.mul_div_le ..)
    obtain ⟨hpa, hpc, hpr⟩ := hp.advance_pages hle
    obtain ⟨hqa, hqc, hqr⟩ := hq.advance_pages (hbytes.symm ▸ hle)
    refine ⟨hanswer, hqa.finished.trans hpa.finished.symm, ?_, ?_⟩
    · rw [hpc, hqc, hconsumed]
    · rw [hpr, hqr, hread]

/-! ## The whole source -/

/-- A pager answers with the pages of a delivery and takes no more from its source than it needs. -/
structure Serves (p : Pager) (d : Delivery) : Prop where
  /-- The answers are the pages of the delivery, and the failure at its stop if there is one. -/
  answers : ∃ pages, d.CutInto pages ∧ ∀ n, p.answer n = (pages.map .ok ++ d.ending.report)[n]?
  /-- After a number of whole pages just their bytes have been taken from the source. -/
  consumed : ∀ n, Layout.pageBytes * n ≤ d.bytes.length →
    (p.advance n).source.consumed = Layout.pageBytes * n
  /-- Once the stop has been met, what is behind it stays in the source, and no call looks at the
  source again. -/
  stopped : ∀ n, d.bytes.length / Layout.pageBytes < n →
    (p.advance n).source = ⟨d.behind, d.bytes.length⟩
      ∧ ∀ s, { p.advance n with source := s }.next = (none, { p.advance n with source := s })

/-- **Pages from a delivery.**  A pager at the start of a source serves what the source delivers.
Sources that deliver the same bytes and stop in the same way cannot be told apart, however they
split their bytes and wherever they are interrupted, and neither can buffers with other bytes left
in them. -/
theorem answers_delivered (events : List Event) :
    (ofSource (.ofEvents events)).Serves (.ofEvents events)
      ∧ ∀ others buffer, (Delivery.ofEvents others).bytes = (Delivery.ofEvents events).bytes →
        (Delivery.ofEvents others).ending = (Delivery.ofEvents events).ending →
        ∀ n, SameAfter (ofSource (.ofEvents events)) (ofSource (.ofEvents others)) n
          ∧ SameAfter (ofSource (.ofEvents events))
            { ofSource (.ofEvents others) with buffer } n := by
  have hstart : (ofSource (.ofEvents events)).Ahead (.ofEvents events) := ⟨rfl, rfl⟩
  refine ⟨⟨?_, ?_, ?_⟩, ?_⟩
  · exact ⟨_, Delivery.cutInto_pages _, hstart.answer_eq⟩
  · intro n hn
    obtain ⟨-, hconsumed, -⟩ := hstart.advance_pages hn
    rw [hconsumed]
    exact Nat.zero_add _
  · intro n hn
    obtain ⟨hfinished, hsource, -⟩ := hstart.advance_stop hn
    refine ⟨?_, fun s => next_of_finished hfinished⟩
    rw [hsource]
    exact congrArg (Source.mk _) (Nat.zero_add _)
  · intro others buffer hbytes hending n
    have hother : (ofSource (.ofEvents others)).Ahead (.ofEvents others) := ⟨rfl, rfl⟩
    have hused : ({ ofSource (.ofEvents others) with buffer } : Pager).Ahead (.ofEvents others) :=
      ⟨rfl, rfl⟩
    exact ⟨hstart.sameAfter hother hbytes hending rfl rfl n,
      hstart.sameAfter hused hbytes hending rfl rfl n⟩

end Pager

end PageCodec
