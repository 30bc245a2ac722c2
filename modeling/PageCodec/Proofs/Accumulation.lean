import Mathlib.Algebra.BigOperators.Group.List.Basic
import Mathlib.Algebra.Ring.Nat
import Mathlib.Data.List.Induction
import PageCodec.Measure.Totals
import PageCodec.Proofs.Trace

/-!
# Pages and times added up

Totals take in a page at a time, with the time that its compression took.  Every number in them is
an exact sum, in whatever order the pages come, as long as the whole time fits into a duration.  If
it does not, adding them breaks off in every order, at a page that is counted without its time.

* `Totals.addAll` — pages added one after another.
* `Totals.ofAdditions` — the sums over pages, and what one more page does to them
  (`Totals.add_ofAdditions`).
* `Totals.Taken`, `Totals.BreaksAt` — pages that add up, and pages that do not.
* `Totals.addAll_accumulates` — which of them it is, in every order.
-/

namespace PageCodec

/-! ## Sums -/

namespace Tally

/-- Tallies taken together, tag by tag. -/
def sum (cs : List Tally) : Tally where
  zero := (cs.map zero).sum
  exactMatch := (cs.map exactMatch).sum
  partialMatch := (cs.map partialMatch).sum
  miss := (cs.map miss).sum

theorem sum_concat (cs : List Tally) (c : Tally) : sum (cs ++ [c]) = sum cs + c := by
  show _ = Tally.add _ _
  simp [sum, Tally.add]

theorem sum_perm {cs ds : List Tally} (h : cs.Perm ds) : sum cs = sum ds := by
  simp only [sum, (h.map _).sum_eq]

theorem total_sum {cs : List Tally} {n : Nat} (h : ∀ c ∈ cs, c.total = n) :
    (sum cs).total = n * cs.length := by
  induction cs with
  | nil => rfl
  | cons c cs ih =>
    have hc : c.total = n := h c List.mem_cons_self
    have hrest := ih fun d hd => h d (List.mem_cons_of_mem c hd)
    simp only [sum, total, List.map_cons, List.sum_cons, List.length_cons] at hc hrest ⊢
    rw [Nat.mul_succ, ← hrest]
    omega

end Tally

namespace Duration

theorem add?_eq_none_iff {a b : Duration} :
    a.add? b = none ↔ tooLong ≤ a.toNanos + b.toNanos := by
  rw [← Option.not_isSome_iff_eq_none, add?_isSome_iff, Nat.not_lt]

theorem seconds_eq (d : Duration) : d.seconds = d.toNanos / 1000000000 := by
  have hn := d.nanos_lt
  rw [toNanos]
  omega

theorem nanos_eq (d : Duration) : d.nanos = d.toNanos % 1000000000 := by
  have hn := d.nanos_lt
  rw [toNanos]
  omega

end Duration

namespace Totals

/-! ## Pages one after another -/

/-- A page to add: what it comes to, and the time that it took. -/
structure Addition where
  /-- Length of the compressed page in words. -/
  compressedLength : Nat
  /-- The tags of the page. -/
  tally : Tally
  /-- The time that compressing it took. -/
  elapsed : Duration
  deriving DecidableEq

/-- Adds a page. -/
def add (c : Addition) : EStateM Stop Totals Unit := addPage c.compressedLength c.tally c.elapsed

/-- Adds pages one after another, up to the first that breaks off. -/
def addAll : List Addition → EStateM Stop Totals Unit
  | [] => pure ()
  | c :: cs => do
    add c
    addAll cs

/-- The exact time of pages in nanoseconds. -/
def nanosOf (cs : List Addition) : Nat := (cs.map (·.elapsed.toNanos)).sum

/-- The totals of pages, with a time that is still to be said. -/
def ofAdditions (name : String) (cs : List Addition) (elapsed : Duration) : Totals where
  name := name
  pages := cs.length
  compressedWords := (cs.map Addition.compressedLength).sum
  tally := .sum (cs.map Addition.tally)
  elapsed := elapsed

section

variable {name : String} {cs ds : List Addition} {c : Addition} {elapsed : Duration}

theorem nanosOf_concat (cs : List Addition) (c : Addition) :
    nanosOf (cs ++ [c]) = nanosOf cs + c.elapsed.toNanos := by
  simp [nanosOf]

theorem nanosOf_perm (h : cs.Perm ds) : nanosOf cs = nanosOf ds := (h.map _).sum_eq

theorem ofAdditions_perm (h : cs.Perm ds) :
    ofAdditions name cs elapsed = ofAdditions name ds elapsed := by
  simp only [ofAdditions, h.length_eq, (h.map Addition.compressedLength).sum_eq,
    Tally.sum_perm (h.map Addition.tally)]

theorem countPage_ofAdditions (name : String) (cs : List Addition) (c : Addition)
    (elapsed : Duration) : (ofAdditions name cs elapsed).countPage c.compressedLength c.tally
      = ofAdditions name (cs ++ [c]) elapsed := by
  simp [ofAdditions, countPage, Tally.sum_concat]

/-! ## One more page -/

/-- A page whose time fits is taken in with its time, and one whose time does not fit without. -/
theorem add_ofAdditions (name : String) (cs : List Addition) (c : Addition) (elapsed : Duration) :
    add c (ofAdditions name cs elapsed)
      = match elapsed.add? c.elapsed with
        | some sum => .ok () (ofAdditions name (cs ++ [c]) sum)
        | none => .error .timeOverflow (ofAdditions name (cs ++ [c]) elapsed) := by
  rw [add, addPage, countPage_ofAdditions]
  rfl

/-! ## All pages -/

theorem addAll_append (cs ds : List Addition) :
    addAll (cs ++ ds) = (do addAll cs; addAll ds) := by
  induction cs with
  | nil => exact (pure_bind ..).symm
  | cons c cs ih => rw [List.cons_append, addAll, addAll, ih, bind_assoc]

/-- Pages are taken in with their times, to which they add up. -/
structure Taken (name : String) (cs : List Addition) (elapsed : Duration) : Prop where
  /-- Nothing breaks off, and every number is the sum. -/
  result : addAll cs (.start name) = .ok () (ofAdditions name cs elapsed)
  /-- The time is the exact sum. -/
  time : elapsed.toNanos = nanosOf cs

/-- Adding pages breaks off at one of them: the pages `before` it are taken in with their times, and
it is counted without its own. -/
structure BreaksAt (name : String) (before : List Addition) (c : Addition) (after : List Addition)
    (elapsed : Duration) : Prop where
  /-- No page breaks off before. -/
  taken : Taken name before elapsed
  /-- The page is counted and then breaks off, and the time stays as it was. -/
  counted : add c (ofAdditions name before elapsed)
    = .error .timeOverflow (ofAdditions name (before ++ [c]) elapsed)
  /-- The pages behind it are not looked at. -/
  broken : addAll (before ++ c :: after) (.start name)
    = .error .timeOverflow (ofAdditions name (before ++ [c]) elapsed)

theorem Taken.time_lt (h : Taken name cs elapsed) : nanosOf cs < Duration.tooLong :=
  h.time ▸ elapsed.toNanos_lt

/-- One page more is taken in if its time fits. -/
theorem Taken.concat (h : Taken name cs elapsed) {sum : Duration}
    (hsum : elapsed.add? c.elapsed = some sum) : Taken name (cs ++ [c]) sum := by
  have hadd := add_ofAdditions name cs c elapsed
  rw [hsum] at hadd
  constructor
  · rw [addAll_append, bind_ok h.result, addAll, bind_ok hadd]
    rfl
  · rw [Duration.toNanos_of_add? hsum, h.time, nanosOf_concat]

/-- A page whose time does not fit is where adding breaks off, whatever comes behind it. -/
theorem Taken.breaksAt (h : Taken name cs elapsed) (hsum : elapsed.add? c.elapsed = none)
    (after : List Addition) : BreaksAt name cs c after elapsed := by
  have hadd := add_ofAdditions name cs c elapsed
  rw [hsum] at hadd
  refine ⟨h, hadd, ?_⟩
  rw [addAll_append, bind_ok h.result, addAll, bind_error hadd]

/-- Pages are all taken in, or adding them breaks off at one of them.  The induction is from the
last page: once adding has broken off, a page behind it makes no difference. -/
theorem taken_or_breaksAt (name : String) (cs : List Addition) :
    (∃ elapsed, Taken name cs elapsed) ∨ Duration.tooLong ≤ nanosOf cs
      ∧ ∃ before c after elapsed, cs = before ++ c :: after
        ∧ BreaksAt name before c after elapsed := by
  induction cs using List.reverseRecOn with
  | nil => exact .inl ⟨.zero, rfl, rfl⟩
  | append_singleton cs c ih =>
    rcases ih with ⟨elapsed, htaken⟩ | ⟨hlong, before, d, after, elapsed, rfl, hbreaks⟩
    · cases hsum : elapsed.add? c.elapsed with
      | some sum => exact .inl ⟨sum, htaken.concat hsum⟩
      | none =>
        refine .inr ⟨?_, cs, c, [], elapsed, rfl, htaken.breaksAt hsum []⟩
        rw [nanosOf_concat, ← htaken.time]
        exact Duration.add?_eq_none_iff.1 hsum
    · refine .inr ⟨?_, before, d, after ++ [c], elapsed, by simp, hbreaks.taken, hbreaks.counted,
        ?_⟩
      · rw [nanosOf_concat]
        exact Nat.le_trans hlong (Nat.le_add_right ..)
      · rw [← List.cons_append, ← List.append_assoc, addAll_append, bind_error hbreaks.broken]

/-- What comes of adding pages to the totals of an input, in whatever order. -/
structure Accumulates (name : String) (cs : List Addition) : Prop where
  /-- If the whole time fits, no page breaks off, and every order comes to the same totals, in which
  every number is the exact sum and the time is brought to seconds and less than a second. -/
  fits : nanosOf cs < Duration.tooLong → ∃ t,
    (∀ ds, ds.Perm cs → addAll ds (.start name) = .ok () t)
    ∧ t.name = name ∧ t.pages = cs.length
    ∧ t.compressedWords = (cs.map Addition.compressedLength).sum
    ∧ t.tally.zero = (cs.map (·.tally.zero)).sum
    ∧ t.tally.exactMatch = (cs.map (·.tally.exactMatch)).sum
    ∧ t.tally.partialMatch = (cs.map (·.tally.partialMatch)).sum
    ∧ t.tally.miss = (cs.map (·.tally.miss)).sum
    ∧ t.elapsed.seconds = nanosOf cs / 1000000000 ∧ t.elapsed.nanos = nanosOf cs % 1000000000
  /-- If it does not, every order breaks off at some page. -/
  breaks : Duration.tooLong ≤ nanosOf cs → ∀ ds, ds.Perm cs →
    ∃ before c after elapsed, ds = before ++ c :: after ∧ BreaksAt name before c after elapsed

/-- **Totals are exact sums.**  Pages come to the sums of all their numbers in every order as long
as their whole time is less than 2 ^ 64 seconds.  From there on adding them breaks off in every
order, at a page that has been counted without its time. -/
theorem addAll_accumulates (name : String) (cs : List Addition) : Accumulates name cs := by
  constructor
  · intro hfits
    rcases taken_or_breaksAt name cs with ⟨elapsed, htaken⟩ | ⟨hlong, -⟩
    · refine ⟨ofAdditions name cs elapsed, fun ds hperm => ?_, rfl, rfl, rfl, ?_⟩
      · rcases taken_or_breaksAt name ds with ⟨elapsed', htaken'⟩ | ⟨hlong, -⟩
        · have htime : elapsed' = elapsed := Duration.toNanos_inj
            (htaken'.time.trans ((nanosOf_perm hperm).trans htaken.time.symm))
          rw [htaken'.result, htime, ofAdditions_perm hperm]
        · rw [nanosOf_perm hperm] at hlong
          exact absurd hfits (Nat.not_lt.2 hlong)
      · rw [← htaken.time]
        simp only [ofAdditions, Tally.sum, List.map_map]
        exact ⟨rfl, rfl, rfl, rfl, elapsed.seconds_eq, elapsed.nanos_eq⟩
    · exact absurd hfits (Nat.not_lt.2 hlong)
  · intro hlong ds hperm
    rcases taken_or_breaksAt name ds with ⟨elapsed, htaken⟩ | ⟨-, hbreaks⟩
    · rw [← nanosOf_perm hperm] at hlong
      exact absurd htaken.time_lt (Nat.not_lt.2 hlong)
    · exact hbreaks

end

end Totals

end PageCodec
