import PageCodec.Measure.Run

/-!
# Clocks

A measurement reads a clock before and after it compresses a page, and adds up the times between.
The readings of a clock do not go backwards, so these times together are never longer than a
duration can be, however many pages there are.

* `Clock` — a clock, by its readings one after another.
* `Clock.lap`, `Clock.taken` — the time between two readings, and the time of several laps.
* `Clock.add?_taken` — one more lap always fits.
* `Watcher`, `Watcher.stopwatch` — a machine that reads such a clock.
-/

namespace PageCodec

/-- A clock, by what it shows when it is read for the first time, the second time and so on.  It
does not go backwards. -/
structure Clock where
  /-- What the clock shows. -/
  reading : Nat → Duration
  /-- A reading is not before the one that came before it. -/
  mono : ∀ k, (reading k).toNanos ≤ (reading (k + 1)).toNanos

namespace Clock

variable (c : Clock)

/-- The time from one reading to the next. -/
def lap (k : Nat) : Duration := (c.reading (k + 1)).since (c.reading k)

/-- The nanoseconds of `n` laps that begin with reading `k`, where each takes two readings. -/
def nanosTaken (k : Nat) : Nat → Nat
  | 0 => 0
  | n + 1 => nanosTaken k n + (c.lap (k + 2 * n)).toNanos

/-- Laps do not overlap, so together they end before the clock is read again. -/
theorem nanosTaken_le (k n : Nat) :
    c.nanosTaken k n + (c.reading k).toNanos ≤ (c.reading (k + 2 * n)).toNanos := by
  induction n with
  | zero => exact Nat.le_of_eq (Nat.zero_add _)
  | succ n ih =>
    have hlap : (c.lap (k + 2 * n)).toNanos
        = (c.reading (k + 2 * n + 1)).toNanos - (c.reading (k + 2 * n)).toNanos :=
      Duration.toNanos_since ..
    have hstop := c.mono (k + 2 * n)
    have hnext : _ ≤ (c.reading (k + 2 * (n + 1))).toNanos := c.mono (k + 2 * n + 1)
    rw [nanosTaken, hlap]
    omega

theorem nanosTaken_lt (k n : Nat) : c.nanosTaken k n < Duration.tooLong := by
  have hle := c.nanosTaken_le k n
  have hlt := (c.reading (k + 2 * n)).toNanos_lt
  omega

/-- The time of `n` laps that begin with reading `k`. -/
def taken (k n : Nat) : Duration := .ofNanos (c.nanosTaken k n) (c.nanosTaken_lt k n)

theorem taken_zero (k : Nat) : c.taken k 0 = .zero :=
  Duration.toNanos_inj (Duration.toNanos_ofNanos _)

/-- One more lap can be added. -/
theorem add?_taken (k n : Nat) :
    (c.taken k n).add? (c.lap (k + 2 * n)) = some (c.taken k (n + 1)) := by
  have hsum : (c.taken k n).toNanos + (c.lap (k + 2 * n)).toNanos
      = (c.taken k (n + 1)).toNanos := by
    rw [taken, taken, Duration.toNanos_ofNanos, Duration.toNanos_ofNanos, nanosTaken]
  have hfits : ((c.taken k n).add? (c.lap (k + 2 * n))).isSome := by
    rw [Duration.add?_isSome_iff, hsum]
    exact Duration.toNanos_lt _
  obtain ⟨d, hd⟩ := Option.isSome_iff_exists.1 hfits
  rw [hd, Duration.toNanos_inj ((Duration.toNanos_of_add? hd).trans hsum)]

end Clock

/-! ## Machines that read a clock -/

/-- States in which it is counted how often a clock has been read. -/
structure Watcher (σ : Type) where
  /-- How often the clock has been read. -/
  readings : σ → Nat
  /-- The state after one more reading. -/
  read : σ → σ
  /-- A reading is counted. -/
  readings_read : ∀ s, readings (read s) = readings s + 1

theorem run_bind {σ α β : Type} (x : StateM σ α) (f : α → StateM σ β) (s : σ) :
    (x >>= f).run s = (f (x.run s).1).run (x.run s).2 := rfl

namespace Watcher

variable {σ : Type}

/-- Nothing but the count. -/
def counter : Watcher Nat := ⟨id, Nat.succ, fun _ => rfl⟩

/-- The state after `n` readings. -/
def reads (w : Watcher σ) : Nat → σ → σ
  | 0, s => s
  | n + 1, s => reads w n (w.read s)

theorem readings_reads (w : Watcher σ) (n : Nat) (s : σ) :
    w.readings (w.reads n s) = w.readings s + n := by
  induction n generalizing s with
  | zero => rfl
  | succ n ih => rw [reads, ih, w.readings_read, Nat.add_right_comm, Nat.add_assoc]

/-- The stopwatch of a machine on which only the clock is read. -/
def stopwatch (w : Watcher σ) (c : Clock) : Stopwatch (StateM σ) where
  now := fun s => (c.reading (w.readings s), w.read s)
  work f := fun s => (f (), s)

/-- Timed work takes two readings, and the lap between them. -/
theorem run_timed {α : Type} (w : Watcher σ) (c : Clock) (f : Unit → α) (s : σ) :
    ((w.stopwatch c).timed f).run s = ((f (), c.lap (w.readings s)), w.reads 2 s) := by
  show ((f (), (c.reading (w.readings (w.read s))).since (c.reading (w.readings s))), _) = _
  rw [w.readings_read]
  rfl

end Watcher

end PageCodec
