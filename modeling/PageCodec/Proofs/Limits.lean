import PageCodec.Proofs.Cutting
import PageCodec.Proofs.Measurement

/-!
# Measuring up to a limit

A measurement with a page limit comes to the same as one without a limit of an input that ends
there.  What stands behind the limit does not show, be it bytes, the end or a failure, because it
is not read: the source is left with the very events that come after the bytes of the last page.

* `Measure.SameOutcome` — measurements that come to the same.
* `Measure.Limited` — a measurement up to a limit, and what it leaves of its source.
* `Measure.measure_limited` — every measurement with a limit is one.
-/

namespace PageCodec

namespace Measure

/-! ## Measurements with a limit -/

/-- The settings with another limit. -/
def Settings.within (settings : Settings) (limit : Option Nat) : Settings :=
  { settings with limit }

/-- Measurements that end in the same way and show the same lines. -/
structure SameOutcome (m m' : Measured) : Prop where
  /-- They end with the same totals, or for the same reason. -/
  result : m.result = m'.result
  /-- They show the same lines. -/
  lines : Emission.lines m.emitted = Emission.lines m'.emitted

/-- A measurement up to a limit, and what it leaves of its source. -/
structure Limited (clock : Clock) (name : String) (settings : Settings) (source : Source)
    (limit : Nat) : Prop where
  /-- It comes to the same as one without a limit of the source that is cut short at the limit. -/
  agree : SameOutcome (measured clock name (settings.within (some limit)) source)
    (measured clock name (settings.within none) (source.cut (Layout.pageBytes * limit)))
  /-- It takes no more bytes than the limit allows. -/
  consumed : (measured clock name (settings.within (some limit)) source).source.consumed
    ≤ source.consumed + Layout.pageBytes * limit
  /-- If there are enough bytes, it leaves all that stands behind the last of them. -/
  past : Layout.pageBytes * limit ≤ (Delivery.ofEvents source.events).bytes.length →
    (measured clock name (settings.within (some limit)) source).source
      = ⟨Source.past (Layout.pageBytes * limit) source.events,
        source.consumed + Layout.pageBytes * limit⟩
  /-- If there are not, it leaves all that stands behind the stop. -/
  behind : (Delivery.ofEvents source.events).bytes.length < Layout.pageBytes * limit →
    (measured clock name (settings.within (some limit)) source).source
      = ⟨(Delivery.ofEvents source.events).behind,
        source.consumed + (Delivery.ofEvents source.events).bytes.length⟩
  /-- Whatever else may come after the bytes of the last page makes no difference and is left there
  unread. -/
  unread : Layout.pageBytes * limit ≤ (Delivery.ofEvents source.events).bytes.length →
    ∀ back other, (source.cut (Layout.pageBytes * limit)).followedBy back = other →
      SameOutcome (measured clock name (settings.within (some limit)) other)
          (measured clock name (settings.within (some limit)) source)
        ∧ (measured clock name (settings.within (some limit)) other).source
          = ⟨back, source.consumed + Layout.pageBytes * limit⟩
  /-- With a limit of no pages the source is left alone. -/
  untouched : limit = 0 →
    (measured clock name (settings.within (some limit)) source).source = source

/-- What is yielded within a limit is all that there is in a source that is cut short there. -/
theorem yields_cut {source : Source} {limit limit' : Nat} {ps : List (List Word)}
    {failure : Option InputFailure} (h : (Pager.ofSource source).Yields limit ps failure)
    (hlimit : limit ≤ limit') :
    (Pager.ofSource (source.cut (Layout.pageBytes * limit))).Yields limit' ps failure := by
  have hahead : (Pager.ofSource source).Ahead (.ofEvents source.events) := ⟨rfl, rfl⟩
  have hcut : (Pager.ofSource (source.cut (Layout.pageBytes * limit))).Ahead
    (.ofEvents (Source.upTo (Layout.pageBytes * limit) source.events)) := ⟨rfl, rfl⟩
  refine ⟨fun n _ => ?_, h.within.trans hlimit⟩
  rw [hcut.answer_eq, Delivery.answers_upTo]
  rcases Nat.lt_or_ge n limit with hn | hn
  · rw [List.getElem?_take_of_lt hn, ← hahead.answer_eq, h.answers n hn]
  · rw [List.getElem?_eq_none ((List.length_take_le ..).trans hn),
      List.getElem?_eq_none (h.within.trans hn)]

section

variable (clock : Clock) {limit : Nat} (name : String) (settings : Settings) (source : Source)

/-- A measurement with a limit comes to the same as one of the source that is cut short. -/
theorem sameOutcome_cut (hlimit : limit ≤ noLimit) :
    SameOutcome (measured clock name (settings.within (some limit)) source)
      (measured clock name (settings.within none) (source.cut (Layout.pageBytes * limit))) := by
  have hahead : (Pager.ofSource source).Ahead (.ofEvents source.events) := ⟨rfl, rfl⟩
  obtain ⟨ps, failure, hyields⟩ : ∃ ps failure, (Pager.ofSource source).Yields
    ((settings.within (some limit)).limit.getD noLimit) ps failure := hahead.exists_yields limit
  have hyields' : (Pager.ofSource (source.cut (Layout.pageBytes * limit))).Yields
      ((settings.within none).limit.getD noLimit) ps failure := yields_cut hyields hlimit
  obtain ⟨hresult, hlines⟩ := measured_of_yields name hyields
  obtain ⟨hresult', hlines'⟩ := measured_of_yields name hyields'
  refine ⟨?_, hlines.trans hlines'.symm⟩
  cases failure <;> exact hresult.trans hresult'.symm

theorem source_of_le
    (h : Layout.pageBytes * limit ≤ (Delivery.ofEvents source.events).bytes.length) :
    (measured clock name (settings.within (some limit)) source).source
      = ⟨Source.past (Layout.pageBytes * limit) source.events,
        source.consumed + Layout.pageBytes * limit⟩ := by
  have hahead : (Pager.ofSource source).Ahead (.ofEvents source.events) := ⟨rfl, rfl⟩
  rw [measured_source]
  exact hahead.advance_past h

theorem source_of_lt
    (h : (Delivery.ofEvents source.events).bytes.length < Layout.pageBytes * limit) :
    (measured clock name (settings.within (some limit)) source).source
      = ⟨(Delivery.ofEvents source.events).behind,
        source.consumed + (Delivery.ofEvents source.events).bytes.length⟩ := by
  have hahead : (Pager.ofSource source).Ahead (.ofEvents source.events) := ⟨rfl, rfl⟩
  rw [measured_source]
  exact (hahead.advance_stop (Nat.div_lt_of_lt_mul h)).2.1

end

/-- **A limit cuts the input short.**  A measurement up to any number of pages ends like one without
a limit of an input that ends after as many pages, and shows the same lines.  It does not read on
when it has the bytes of its last page, and with a limit of no pages it does not read at all. -/
theorem measure_limited (clock : Clock) (name : String) (settings : Settings) (source : Source)
    (limit : UInt64) : Limited clock name settings source limit.toNat := by
  have hlimit : limit.toNat ≤ noLimit := Nat.le_pred_of_lt limit.toNat_lt
  have hagree := sameOutcome_cut clock name settings source hlimit
  refine ⟨hagree, ?_, source_of_le clock name settings source,
    source_of_lt clock name settings source, ?_, ?_⟩
  · rcases Nat.lt_or_ge (Delivery.ofEvents source.events).bytes.length
      (Layout.pageBytes * limit.toNat) with h | h
    · rw [source_of_lt clock name settings source h]
      exact Nat.add_le_add_left (Nat.le_of_lt h) _
    · rw [source_of_le clock name settings source h]
  · rintro h back other rfl
    have hexact := Source.deliversExactly_upTo h
    have hroom : Layout.pageBytes * limit.toNat ≤ (Delivery.ofEvents
        ((source.cut (Layout.pageBytes * limit.toNat)).followedBy back).events).bytes.length :=
      (Nat.le_add_right ..).trans_eq (hexact.length_bytes_append back).symm
    -- cut again at the same place, the source with another end is the one that was cut before
    have hcut : ((source.cut (Layout.pageBytes * limit.toNat)).followedBy back).cut
        (Layout.pageBytes * limit.toNat) = source.cut (Layout.pageBytes * limit.toNat) :=
      congrArg (Source.mk · source.consumed) (hexact.upTo_append back)
    have hother := sameOutcome_cut clock name settings
      ((source.cut (Layout.pageBytes * limit.toNat)).followedBy back) hlimit
    rw [hcut] at hother
    refine ⟨⟨hother.result.trans hagree.result.symm, hother.lines.trans hagree.lines.symm⟩, ?_⟩
    exact (source_of_le clock name settings _ hroom).trans
      (congrArg (Source.mk · _) (hexact.past_append back))
  · intro h
    rw [h, source_of_le clock name settings source (Nat.zero_le _), Nat.mul_zero, Source.past.eq_1]
    rfl

end Measure

end PageCodec
