/-!
# Digits

The digits of a number in a base, least significant first.
-/

namespace PageCodec

namespace Digits

/-- The `n` lowest digits of a number. -/
def split (base : Nat) : Nat → Nat → List Nat
  | 0, _ => []
  | n + 1, x => x % base :: split base n (x / base)

@[simp]
theorem length_split (base n x : Nat) : (split base n x).length = n := by
  induction n generalizing x with
  | zero => rfl
  | succ n ih => rw [split, List.length_cons, ih]

theorem lt_of_mem_split {base : Nat} (hb : 0 < base) {n x d : Nat} (h : d ∈ split base n x) :
    d < base := by
  induction n generalizing x with
  | zero => simp [split] at h
  | succ n ih =>
    rcases List.mem_cons.1 h with rfl | h
    · exact Nat.mod_lt _ hb
    · exact ih h

end Digits

end PageCodec
