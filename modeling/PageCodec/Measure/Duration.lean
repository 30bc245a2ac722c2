/-!
# Durations

A duration is a whole number of seconds, held in 64 bits, and less than a second in nanoseconds.
Adding two durations carries full seconds over; a sum that does not fit is not there
(`Duration.add?`).
-/

namespace PageCodec

/-- A span of time. -/
structure Duration where
  /-- Whole seconds. -/
  seconds : Nat
  /-- The rest in nanoseconds. -/
  nanos : Nat
  /-- The seconds fit into 64 bits. -/
  seconds_lt : seconds < UInt64.size
  /-- The rest is less than a second. -/
  nanos_lt : nanos < 1000000000
  deriving DecidableEq

namespace Duration

/-- No time at all. -/
def zero : Duration := ⟨0, 0, by decide, by decide⟩

instance : Inhabited Duration := ⟨zero⟩

/-- The whole duration in nanoseconds. -/
def toNanos (d : Duration) : Nat := d.seconds * 1000000000 + d.nanos

/-- The nanoseconds that are too many for a duration. -/
def tooLong : Nat := UInt64.size * 1000000000

theorem toNanos_lt (d : Duration) : d.toNanos < tooLong := by
  have hs := d.seconds_lt
  have hn := d.nanos_lt
  rw [toNanos, tooLong]
  omega

/-- The duration of so many nanoseconds. -/
def ofNanos (n : Nat) (h : n < tooLong) : Duration :=
  ⟨n / 1000000000, n % 1000000000, Nat.div_lt_of_lt_mul (Nat.mul_comm .. ▸ h),
    Nat.mod_lt _ (by decide)⟩

/-- The duration of so many nanoseconds, if it fits. -/
def ofNanos? (n : Nat) : Option Duration :=
  if h : n < tooLong then some (ofNanos n h) else none

/-- The sum of two durations, if it fits. -/
def add? (a b : Duration) : Option Duration :=
  if h : a.seconds + b.seconds + (a.nanos + b.nanos) / 1000000000 < UInt64.size then
    some ⟨a.seconds + b.seconds + (a.nanos + b.nanos) / 1000000000,
      (a.nanos + b.nanos) % 1000000000, h, Nat.mod_lt _ (by decide)⟩
  else none

/-- The duration from one reading of a clock to a later one, or no time at all if the clock has gone
backwards. -/
def since (later earlier : Duration) : Duration :=
  ofNanos (later.toNanos - earlier.toNanos) (Nat.lt_of_le_of_lt (Nat.sub_le ..) later.toNanos_lt)

/-- The duration in seconds. -/
def toSeconds (d : Duration) : Float :=
  Float.ofNat d.seconds + Float.ofNat d.nanos / 1e9

theorem toNanos_inj {a b : Duration} (h : a.toNanos = b.toNanos) : a = b := by
  obtain ⟨s, n, _, hn⟩ := a
  obtain ⟨t, m, _, hm⟩ := b
  simp only [toNanos] at h
  have hs : s = t := by omega
  have hnm : n = m := by omega
  subst hs hnm
  rfl

@[simp]
theorem toNanos_ofNanos {n : Nat} (h : n < tooLong) : (ofNanos n h).toNanos = n :=
  Nat.div_add_mod' ..

theorem toNanos_since (later earlier : Duration) :
    (later.since earlier).toNanos = later.toNanos - earlier.toNanos :=
  toNanos_ofNanos _

/-- A sum that is there is the exact sum. -/
theorem toNanos_of_add? {a b c : Duration} (h : a.add? b = some c) :
    c.toNanos = a.toNanos + b.toNanos := by
  unfold add? at h
  split at h
  · cases h
    simp only [toNanos]
    omega
  · cases h

/-- A sum is there if and only if it is not too long. -/
theorem add?_isSome_iff (a b : Duration) :
    (a.add? b).isSome ↔ a.toNanos + b.toNanos < tooLong := by
  unfold add?
  simp only [toNanos, tooLong]
  split
  · simp only [Option.isSome_some, true_iff]
    omega
  · simp only [Option.isSome_none, Bool.false_eq_true, false_iff]
    omega

end Duration

end PageCodec
