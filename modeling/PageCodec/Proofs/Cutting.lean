import PageCodec.Proofs.Pages

/-!
# Sources cut short

A source can be cut short after a number of bytes: it delivers the same bytes up to there and then
it ends.  Whoever asks for no more than these bytes gets the same from it, and leaves the events
past the cut as they are, be they bytes, the end or a failure.

* `Source.upTo`, `Source.past` — the events up to a number of bytes and those past them;
  `Source.cut` is the source that ends there.
* `Source.fill_past` — what filling a buffer leaves.
* `Source.DeliversExactly` — events that deliver just a number of bytes, whatever comes behind them.
* `Delivery.answers_upTo` — the pages of a source that is cut short.
* `Pager.Ahead.advance_past` — what calls for whole pages leave.
-/

namespace PageCodec

namespace Source

/-! ## Sources cut short -/

/-- The events up to the first `n` bytes; with none behind them the input ends there. -/
def upTo : Nat → List Event → List Event
  | 0, _ => []
  | _ + 1, [] => []
  | n + 1, .data bytes :: rest =>
    if bytes.length ≤ n + 1 then .data bytes :: upTo (n + 1 - bytes.length) rest
    else [.data (bytes.take (n + 1))]
  | n + 1, event :: rest => event :: upTo (n + 1) rest

/-- The events past the first `n` bytes. -/
def past : Nat → List Event → List Event
  | 0, events => events
  | _ + 1, [] => []
  | n + 1, .data bytes :: rest =>
    if bytes.length ≤ n + 1 then past (n + 1 - bytes.length) rest
    else .data (bytes.drop (n + 1)) :: rest
  | n + 1, _ :: rest => past (n + 1) rest

/-- The source that ends after `n` more bytes. -/
def cut (n : Nat) (s : Source) : Source := { s with events := upTo n s.events }

/-- The source with more events behind the others. -/
def followedBy (s : Source) (back : List Event) : Source := { s with events := s.events ++ back }

section

variable {bytes : List UInt8} (hb : bytes ≠ []) (n : Nat) (rest : List Event)

include hb

/-- Bytes in front of the cut are taken as they are. -/
theorem upTo_data :
    upTo (bytes.length + n) (.data bytes :: rest) = .data bytes :: upTo n rest := by
  obtain ⟨m, hm⟩ := Nat.exists_eq_succ_of_ne_zero (mt List.length_eq_zero_iff.1 hb)
  have hsum : bytes.length + n = m + n + 1 := by omega
  rw [hsum, upTo, if_pos (by omega), ← hsum, Nat.add_sub_cancel_left]

/-- Bytes in front of the cut are passed. -/
theorem past_data : past (bytes.length + n) (.data bytes :: rest) = past n rest := by
  obtain ⟨m, hm⟩ := Nat.exists_eq_succ_of_ne_zero (mt List.length_eq_zero_iff.1 hb)
  have hsum : bytes.length + n = m + n + 1 := by omega
  rw [hsum, past, if_pos (by omega), ← hsum, Nat.add_sub_cancel_left]

end

/-- A source that is cut short delivers the bytes up to the cut, and if there are enough of them it
ends there. -/
theorem ofEvents_upTo (n : Nat) (events : List Event) :
    (Delivery.ofEvents (upTo n events)).bytes = (Delivery.ofEvents events).bytes.take n
      ∧ (Delivery.ofEvents (upTo n events)).ending
        = if n ≤ (Delivery.ofEvents events).bytes.length then .endOfInput
          else (Delivery.ofEvents events).ending := by
  fun_induction upTo n events with
  | case1 events => simp [Delivery.ofEvents]
  | case2 n => simp [Delivery.ofEvents]
  | case3 n bytes rest h ih =>
    by_cases hb : bytes = []
    · simp [hb, Delivery.ofEvents]
    · simp only [Delivery.ofEvents_data hb, Delivery.prepend, ih.1, ih.2, List.take_append,
        List.length_append, List.take_of_length_le h, Nat.sub_le_iff_le_add']
      exact ⟨trivial, trivial⟩
  | case4 n bytes rest h =>
    have hb : bytes ≠ [] := by
      rintro rfl
      exact h (Nat.zero_le _)
    have hcut : bytes.take (n + 1) ≠ [] := by simpa using hb
    have hle : n + 1 ≤ bytes.length := Nat.le_of_not_le h
    simp only [Delivery.ofEvents_data hb, Delivery.ofEvents_data hcut, Delivery.prepend,
      List.take_append_of_le_length hle, List.length_append]
    exact ⟨List.append_nil _, (if_pos (hle.trans (Nat.le_add_right ..))).symm⟩
  | case5 n event rest h ih =>
    cases event with
    | data bytes => exact absurd rfl (h bytes)
    | endOfInput => simp [Delivery.ofEvents]
    | failure reason =>
      by_cases hr : reason.kind = .interrupted
      · simpa only [Delivery.ofEvents, if_pos hr] using ih
      · simp [Delivery.ofEvents, if_neg hr]

/-- The events past a number of bytes are reached in one go or in two.  The induction is on the
first of the two, and when it ends within some bytes the second goes on in the middle of them. -/
theorem past_add (m n : Nat) (events : List Event) :
    past (m + n) events = past n (past m events) := by
  fun_induction past m events with
  | case1 events => rw [Nat.zero_add]
  | case2 m => cases n <;> simp [past]
  | case3 m bytes rest h ih =>
    rw [← ih, Nat.succ_add, past, if_pos (by omega)]
    congr 1
    omega
  | case4 m bytes rest h =>
    rw [Nat.succ_add, past]
    cases n with
    | zero => rw [Nat.add_zero, if_neg h, past]
    | succ n =>
      rw [past, List.length_drop, List.drop_drop]
      by_cases hle : bytes.length ≤ m + (n + 1) + 1
      · rw [if_pos hle, if_pos (by omega)]
        congr 1
        omega
      · rw [if_neg hle, if_neg (by omega)]
        congr 3
        omega
  | case5 m event rest h ih =>
    rw [← ih, Nat.succ_add]
    cases event with
    | data bytes => exact absurd rfl (h bytes)
    | endOfInput => rfl
    | failure reason => rfl

/-! ## Reading up to the cut -/

/-- A read that gives bytes, or fails, goes that far towards the cut. -/
theorem read_past {want : Nat} (hw : want ≠ 0) (s : Source) :
    match s.read want with
    | (.ok bytes, s') => bytes ≠ [] → past want s.events = past (want - bytes.length) s'.events
    | (.error _, s') => past want s.events = past want s'.events := by
  obtain ⟨events, consumed⟩ := s
  obtain ⟨n, rfl⟩ := Nat.exists_eq_succ_of_ne_zero hw
  rcases events with _ | ⟨event, rest⟩
  · exact fun h => absurd rfl h
  · rcases event with bytes | _ | reason
    · intro htaken
      show past (n + 1) (.data bytes :: rest) = past (n + 1 - (bytes.take (n + 1)).length)
        (if (bytes.drop (n + 1)).isEmpty then rest else .data (bytes.drop (n + 1)) :: rest)
      rw [past, List.length_take]
      by_cases h : bytes.length ≤ n + 1
      · rw [if_pos h, List.drop_eq_nil_of_le h, Nat.min_eq_right h]
        rfl
      · have hleft : bytes.drop (n + 1) ≠ [] := mt List.drop_eq_nil_iff.1 h
        rw [if_neg h, Nat.min_eq_left (Nat.le_of_not_le h), Nat.sub_self,
          if_neg (by rwa [List.isEmpty_iff]), past]
    · exact fun h => absurd rfl h
    · rfl

/-- A buffer that the source can fill leaves the events past it as they are. -/
theorem fill_past (filled : Nat) (b : PageBuffer) (s : Source)
    (h : Layout.pageBytes ≤ filled + (Delivery.ofEvents s.events).bytes.length) :
    (s.fill filled b).2.2.events = past (Layout.pageBytes - filled) s.events := by
  fun_induction fill filled b s with
  | case1 filled b s hroom reason s' hread hr ih =>
    have hcases := read_cases (Nat.sub_ne_zero_of_lt hroom) s
    have hpast := read_past (Nat.sub_ne_zero_of_lt hroom) s
    rw [hread] at hcases hpast
    rw [hcases.1, if_pos hr] at h
    exact (ih h).trans hpast.symm
  | case2 filled b s hroom reason s' hread hr =>
    have hcases := read_cases (Nat.sub_ne_zero_of_lt hroom) s
    rw [hread] at hcases
    rw [hcases.1, if_neg hr] at h
    exact absurd h (Nat.not_le.2 hroom)
  | case3 filled b s hroom s' hread =>
    have hcases := read_cases (Nat.sub_ne_zero_of_lt hroom) s
    rw [hread] at hcases
    rw [hcases.1] at h
    exact absurd h (Nat.not_le.2 hroom)
  | case4 filled b s hroom x xs s' hread ih =>
    have hcases := read_cases (Nat.sub_ne_zero_of_lt hroom) s
    have hpast := read_past (Nat.sub_ne_zero_of_lt hroom) s
    rw [hread] at hcases hpast
    rw [hcases.1, Delivery.prepend, List.length_append] at h
    rw [Nat.sub_add_eq] at ih
    exact (ih (by omega)).trans (hpast (List.cons_ne_nil x xs)).symm
  | case5 filled b s hfull => rw [Nat.sub_eq_zero_of_le (Nat.not_lt.1 hfull), past]

/-! ## What stands behind the cut -/

/-- Just `n` bytes are delivered by these events, and the last of them ends the events. -/
inductive DeliversExactly : Nat → List Event → Prop where
  | nil : DeliversExactly 0 []
  | data {n : Nat} {bytes : List UInt8} {rest : List Event} :
    bytes ≠ [] → DeliversExactly n rest → DeliversExactly (bytes.length + n) (.data bytes :: rest)
  | interrupted {n : Nat} {reason : InputFailure} {rest : List Event} :
    reason.kind = .interrupted → DeliversExactly (n + 1) rest →
      DeliversExactly (n + 1) (.failure reason :: rest)

theorem deliversExactly_upTo {n : Nat} {events : List Event}
    (h : n ≤ (Delivery.ofEvents events).bytes.length) : DeliversExactly n (upTo n events) := by
  fun_induction upTo n events with
  | case1 events => exact .nil
  | case2 n => exact absurd h (Nat.not_succ_le_zero _)
  | case3 n bytes rest hle ih =>
    by_cases hb : bytes = []
    · subst hb
      exact absurd h (Nat.not_succ_le_zero _)
    · rw [Delivery.ofEvents_data hb, Delivery.prepend, List.length_append] at h
      have hrest := DeliversExactly.data hb (ih (by omega))
      rwa [Nat.add_sub_cancel' hle] at hrest
  | case4 n bytes rest hlong =>
    have hcut : (bytes.take (n + 1)).length = n + 1 :=
      List.length_take_of_le (Nat.le_of_not_le hlong)
    have hall : DeliversExactly ((bytes.take (n + 1)).length + 0) [.data (bytes.take (n + 1))] := by
      refine .data ?_ .nil
      rw [← List.length_pos_iff, hcut]
      exact Nat.succ_pos n
    rwa [Nat.add_zero, hcut] at hall
  | case5 n event rest hevent ih =>
    cases event with
    | data bytes => exact absurd rfl (hevent bytes)
    | endOfInput => exact absurd h (Nat.not_succ_le_zero _)
    | failure reason =>
      rw [Delivery.ofEvents] at h
      split at h
      · exact .interrupted ‹_› (ih h)
      · exact absurd h (Nat.not_succ_le_zero _)

namespace DeliversExactly

variable {n : Nat} {front : List Event} (h : DeliversExactly n front) (back : List Event)

include h

theorem length_bytes_append :
    (Delivery.ofEvents (front ++ back)).bytes.length
      = n + (Delivery.ofEvents back).bytes.length := by
  induction h with
  | nil => exact (Nat.zero_add _).symm
  | data hb _ ih =>
    rw [List.cons_append, Delivery.ofEvents_data hb, Delivery.prepend, List.length_append, ih,
      Nat.add_assoc]
  | interrupted hr _ ih => rwa [List.cons_append, Delivery.ofEvents, if_pos hr]

theorem upTo_append : upTo n (front ++ back) = front := by
  induction h with
  | nil => rw [upTo]
  | data hb _ ih => rw [List.cons_append, upTo_data hb, ih]
  | interrupted _ _ ih => exact congrArg _ ih

theorem past_append : past n (front ++ back) = back := by
  induction h with
  | nil => exact past.eq_1 back
  | data hb _ ih => rw [List.cons_append, past_data hb, ih]
  | interrupted _ _ ih => exact ih

end DeliversExactly

end Source

/-! ## Answers to a source that is cut short -/

namespace Delivery

/-- A delivery that is cut short after a number of whole pages is answered with these pages.  The
induction is on their number. -/
theorem answers_of_cut {c d : Delivery} {n : Nat}
    (hbytes : c.bytes = d.bytes.take (Layout.pageBytes * n))
    (hending : c.ending = if Layout.pageBytes * n ≤ d.bytes.length then .endOfInput
      else d.ending) : c.answers = d.answers.take n := by
  induction n generalizing c d with
  | zero =>
    have hc : c.bytes = [] := hbytes
    have hlt : c.bytes.length < Layout.pageBytes := by
      rw [hc]
      decide
    have hend : c.ending = .endOfInput := hending.trans (if_pos (Nat.zero_le _))
    rw [List.take_zero, answers_of_lt hlt, hend]
    exact if_pos hc
  | succ n ih =>
    rw [Nat.mul_succ] at hbytes hending
    by_cases h : Layout.pageBytes ≤ d.bytes.length
    · have hc : Layout.pageBytes ≤ c.bytes.length := by
        rw [hbytes, List.length_take]
        omega
      have hfirst : c.bytes.take Layout.pageBytes = d.bytes.take Layout.pageBytes := by
        rw [hbytes, List.take_take, Nat.min_eq_left (Nat.le_add_left ..)]
      rw [answers_of_le h, answers_of_le hc, hfirst, List.take_succ_cons]
      congr 1
      refine ih ?_ ?_
      · rw [drop, drop, hbytes, List.drop_take, Nat.add_sub_cancel]
      · rw [drop, drop, List.length_drop, hending]
        congr 1
        rw [eq_iff_iff]
        omega
    · have hlt := Nat.not_le.1 h
      have hall : c.answers = d.answers := by
        refine answers_congr ?_ ?_
        · rw [hbytes, List.take_of_length_le (by omega)]
        · rw [hending, if_neg (by omega)]
      have hshort := length_answers_of_lt hlt
      rw [hall, List.take_of_length_le (by omega)]

theorem answers_upTo (n : Nat) (events : List Event) :
    (ofEvents (Source.upTo (Layout.pageBytes * n) events)).answers
      = (ofEvents events).answers.take n := by
  obtain ⟨hbytes, hending⟩ := Source.ofEvents_upTo (Layout.pageBytes * n) events
  exact answers_of_cut hbytes hending

end Delivery

namespace Pager

theorem next_source {p : Pager} (h : p.finished = false) :
    p.next.2.source = (p.source.fill 0 p.buffer).2.2 := by
  rw [next, h]
  rcases p.source.fill 0 p.buffer with ⟨reason | filled, b', s'⟩
  · rfl
  · by_cases hfilled : filled = 0 <;> simp [hfilled]

variable {p : Pager} {d : Delivery}

/-- Calls for whole pages leave the events past them as they are. -/
theorem Ahead.advance_past (hp : p.Ahead d) {n : Nat}
    (h : Layout.pageBytes * n ≤ d.bytes.length) :
    (p.advance n).source
      = ⟨Source.past (Layout.pageBytes * n) p.source.events,
        p.source.consumed + Layout.pageBytes * n⟩ := by
  have hevents : (p.advance n).source.events
      = Source.past (Layout.pageBytes * n) p.source.events := by
    induction n generalizing p d with
    | zero => exact (Source.past.eq_1 _).symm
    | succ n ih =>
      rw [Nat.mul_succ] at h ⊢
      obtain ⟨-, hnext, -⟩ := hp.next_page (by omega)
      have hrest : Layout.pageBytes * n ≤ (d.drop Layout.pageBytes).bytes.length := by
        rw [Delivery.drop, List.length_drop]
        omega
      have hfirst : p.next.2.source.events = Source.past Layout.pageBytes p.source.events := by
        rw [next_source hp.finished, Source.fill_past, Nat.sub_zero]
        rw [hp.delivery]
        omega
      rw [advance, ih hnext hrest, hfirst, Nat.add_comm, Source.past_add]
  obtain ⟨-, hconsumed, -⟩ := hp.advance_pages h
  rw [← hevents, ← hconsumed]

end Pager

end PageCodec
