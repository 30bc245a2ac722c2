import PageCodec.Input.Pager

/-!
# What a source delivers

A source splits its bytes over reads in any way it likes, and reads may be interrupted in between.
None of this shows to whoever asks for a number of bytes and waits until they are there: all that
counts is the bytes that come before the source first stops, and how it stops.

* `Delivery.ofEvents` — the bytes before the first stop, the stop, and what is behind it.
* `Source.read_cases` — what one read tells about the delivery.
* `Source.Fills` — what becomes of a buffer that is to be filled.
* `Source.fill_fills` — a buffer is filled from the delivery, however it is split.
-/

namespace PageCodec

/-- How a source stops. -/
inductive Ending where
  /-- A read gave no bytes. -/
  | endOfInput
  /-- A read failed and was not just interrupted. -/
  | failure (reason : InputFailure)
  deriving DecidableEq

/-- What a stop answers to a demand that has been met with so many bytes. -/
def Ending.answer (filled : Nat) : Ending → Except InputFailure Nat
  | .endOfInput => .ok filled
  | .failure reason => .error reason

/-- What a source delivers. -/
structure Delivery where
  /-- The bytes before the first stop. -/
  bytes : List UInt8
  /-- The first stop. -/
  ending : Ending
  /-- The events behind the first stop. -/
  behind : List Event
  deriving DecidableEq

namespace Delivery

/-- What a source with these events delivers. -/
def ofEvents : List Event → Delivery
  | [] => ⟨[], .endOfInput, []⟩
  | .endOfInput :: rest => ⟨[], .endOfInput, rest⟩
  | .data [] :: rest => ⟨[], .endOfInput, rest⟩
  | .data (b :: bs) :: rest => { ofEvents rest with bytes := b :: bs ++ (ofEvents rest).bytes }
  | .failure reason :: rest =>
    if reason.kind = .interrupted then ofEvents rest else ⟨[], .failure reason, rest⟩

/-- The delivery without its first `n` bytes. -/
def drop (n : Nat) (d : Delivery) : Delivery := { d with bytes := d.bytes.drop n }

/-- The delivery with more bytes in front. -/
def prepend (bs : List UInt8) (d : Delivery) : Delivery := { d with bytes := bs ++ d.bytes }

theorem ofEvents_data {bs : List UInt8} (h : bs ≠ []) (rest : List Event) :
    ofEvents (.data bs :: rest) = (ofEvents rest).prepend bs := by
  cases bs with
  | nil => exact absurd rfl h
  | cons b bs => rfl

end Delivery

namespace Source

/-! ## One read -/

/-- Bytes that are read come first in the delivery, and they are counted and no more than asked for;
a read without bytes or with a failure is its stop, and an interrupted read is no part of it. -/
theorem read_cases {want : Nat} (hw : want ≠ 0) (s : Source) :
    match s.read want with
    | (.ok [], s') =>
      Delivery.ofEvents s.events = ⟨[], .endOfInput, s'.events⟩ ∧ s'.consumed = s.consumed
    | (.ok (b :: bs), s') =>
      Delivery.ofEvents s.events = (Delivery.ofEvents s'.events).prepend (b :: bs)
        ∧ s'.consumed = s.consumed + (b :: bs).length ∧ (b :: bs).length ≤ want
    | (.error reason, s') =>
      Delivery.ofEvents s.events = (if reason.kind = .interrupted then Delivery.ofEvents s'.events
        else ⟨[], .failure reason, s'.events⟩) ∧ s'.consumed = s.consumed := by
  obtain ⟨events, consumed⟩ := s
  obtain ⟨n, rfl⟩ := Nat.exists_eq_succ_of_ne_zero hw
  rcases events with _ | ⟨event, rest⟩
  · exact ⟨rfl, rfl⟩
  · rcases event with bytes | _ | reason
    · rcases bytes with _ | ⟨b, bs⟩
      · exact ⟨rfl, rfl⟩
      · refine ⟨?_, rfl, Nat.succ_le_succ (List.length_take_le ..)⟩
        -- what a read does not take of an event stays in front of the other events
        show Delivery.ofEvents (.data (b :: bs) :: rest) = (Delivery.ofEvents
          (if (bs.drop n).isEmpty then rest else .data (bs.drop n) :: rest)).prepend
            (b :: bs.take n)
        by_cases hleft : bs.drop n = []
        · have hbs : bs.take n = bs := List.take_of_length_le (List.drop_eq_nil_iff.1 hleft)
          rw [hleft, hbs]
          rfl
        · rw [if_neg (by rwa [List.isEmpty_iff]), Delivery.ofEvents_data hleft]
          simp only [Delivery.ofEvents, Delivery.prepend, List.cons_append, ← List.append_assoc,
            List.take_append_drop]
    · exact ⟨rfl, rfl⟩
    · exact ⟨rfl, rfl⟩

/-! ## Filling a buffer -/

/-- What becomes of a buffer `b` with `filled` bytes in it, where `d` is still to be delivered and
`n` bytes have been handed out. -/
structure Fills (d : Delivery) (n filled : Nat) (b : PageBuffer) (answer : Except InputFailure Nat)
    (b' : PageBuffer) (s' : Source) : Prop where
  /-- The buffer is full, or the stop before that answers. -/
  answer : answer = if Layout.pageBytes ≤ filled + d.bytes.length then .ok Layout.pageBytes
    else d.ending.answer (filled + d.bytes.length)
  /-- The bytes that there is room for are laid over the buffer, also before a failure. -/
  buffer : b' = b.overlay filled (d.bytes.take (Layout.pageBytes - filled))
  /-- No more bytes are taken than there is room for. -/
  consumed : s'.consumed = n + min (Layout.pageBytes - filled) d.bytes.length
  /-- If the buffer is full before the stop, the rest is still to come. -/
  rest : Layout.pageBytes ≤ filled + d.bytes.length →
    .ofEvents s'.events = d.drop (Layout.pageBytes - filled)
  /-- If it is not, the stop is used up and nothing behind it. -/
  behind : filled + d.bytes.length < Layout.pageBytes → s'.events = d.behind

variable {filled : Nat} {b : PageBuffer}

theorem fills_stop (h : filled < Layout.pageBytes) (b : PageBuffer) (ending : Ending) (s : Source) :
    Fills ⟨[], ending, s.events⟩ s.consumed filled b (ending.answer filled) b s := by
  have hunmet : ¬ Layout.pageBytes ≤ filled + ([] : List UInt8).length := Nat.not_le.2 h
  constructor
  · rw [if_neg hunmet]
    rfl
  · rw [List.take_nil, PageBuffer.overlay]
  · rw [List.length_nil, Nat.min_zero, Nat.add_zero]
  · exact fun h => absurd h hunmet
  · exact fun _ => rfl

/-- Bytes that are read leave room for others behind them. -/
theorem Fills.prepend {d : Delivery} {n : Nat} {bs : List UInt8} {b' : PageBuffer} {s' : Source}
    {answer : Except InputFailure Nat} (hb : bs.length ≤ Layout.pageBytes - filled)
    (h : Fills d (n + bs.length) (filled + bs.length) (b.overlay filled bs) answer b' s') :
    Fills (d.prepend bs) n filled b answer b' s' := by
  obtain ⟨hanswer, hbuffer, hconsumed, hrest, hbehind⟩ := h
  have hlen : filled + (d.prepend bs).bytes.length = filled + bs.length + d.bytes.length := by
    rw [Delivery.prepend, List.length_append, Nat.add_assoc]
  have hroom : Layout.pageBytes - (filled + bs.length) = Layout.pageBytes - filled - bs.length :=
    Nat.sub_add_eq ..
  rw [hroom] at hbuffer hconsumed hrest
  constructor
  · rw [hanswer, hlen]
    rfl
  · rw [hbuffer, ← PageBuffer.overlay_append, Delivery.prepend, List.take_append,
      List.take_of_length_le hb]
  · rw [hconsumed, Delivery.prepend, List.length_append]
    omega
  · intro hmet
    rw [hlen] at hmet
    rw [hrest hmet]
    simp [Delivery.prepend, Delivery.drop, List.drop_append, List.drop_eq_nil_of_le hb]
  · intro hunmet
    rw [hlen] at hunmet
    exact hbehind hunmet

/-- A buffer is filled from what the source delivers.  The induction is on the reads; each of them
lays bytes over the buffer, or is interrupted, or stops. -/
theorem fill_fills (h : filled ≤ Layout.pageBytes) (b : PageBuffer) (s : Source) :
    Fills (.ofEvents s.events) s.consumed filled b (s.fill filled b).1 (s.fill filled b).2.1
      (s.fill filled b).2.2 := by
  fun_induction fill filled b s with
  | case1 filled b s hroom reason s' hread hr ih =>
    have hcases := read_cases (Nat.sub_ne_zero_of_lt hroom) s
    rw [hread] at hcases
    obtain ⟨hd, hconsumed⟩ := hcases
    rw [hd, if_pos hr, ← hconsumed]
    exact ih h
  | case2 filled b s hroom reason s' hread hr =>
    have hcases := read_cases (Nat.sub_ne_zero_of_lt hroom) s
    rw [hread] at hcases
    obtain ⟨hd, hconsumed⟩ := hcases
    rw [hd, if_neg hr, ← hconsumed]
    exact fills_stop hroom b (.failure reason) s'
  | case3 filled b s hroom s' hread =>
    have hcases := read_cases (Nat.sub_ne_zero_of_lt hroom) s
    rw [hread] at hcases
    obtain ⟨hd, hconsumed⟩ := hcases
    rw [hd, ← hconsumed]
    exact fills_stop hroom b .endOfInput s'
  | case4 filled b s hroom x xs s' hread ih =>
    have hcases := read_cases (Nat.sub_ne_zero_of_lt hroom) s
    rw [hread] at hcases
    obtain ⟨hd, hconsumed, hle⟩ := hcases
    rw [hconsumed] at ih
    rw [hd]
    exact (ih (by omega)).prepend hle
  | case5 filled b s hfull =>
    obtain rfl : filled = Layout.pageBytes := Nat.le_antisymm h (Nat.not_lt.1 hfull)
    constructor
    · rw [if_pos (Nat.le_add_right ..)]
    · rw [Nat.sub_self, List.take_zero, PageBuffer.overlay]
    · rw [Nat.sub_self, Nat.zero_min, Nat.add_zero]
    · intro _
      rw [Nat.sub_self]
      rfl
    · exact fun h => absurd h (Nat.not_lt.2 (Nat.le_add_right ..))

end Source

end PageCodec
