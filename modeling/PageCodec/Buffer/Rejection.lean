/-!
# Rejections and stops

An operation on buffers either completes or stops.  A **rejection** is the answer to a call whose
lengths do not fit; it carries the lengths concerned and has a message.  Any other stop is a fault
in the middle of the work and carries nothing: a place that does not exist was asked for, or a time
grew past what can be held.  What was written before a stop stays written.
-/

namespace PageCodec

/-- Why a call was turned down (`WkdmError`). -/
inductive Rejection where
  /-- The page does not have the length of a page. -/
  | pageLength (expected actual : Nat)
  /-- The buffer is too short for what has to be put there. -/
  | capacity (required actual : Nat)
  /-- The run of symbols does not fill whole words. -/
  | unevenRun (packing : String) (group length : Nat)
  deriving DecidableEq, Repr

/-- The wording of a rejection. -/
def Rejection.message : Rejection → String
  | pageLength expected actual => s!"Page must hold exactly {expected} words, got {actual}"
  | capacity required actual =>
    s!"Destination holds {actual} words, at least {required} are needed"
  | unevenRun packing group length =>
    s!"{packing} needs a multiple of {group} symbols, got {length}"

/-- Why an operation did not complete. -/
inductive Stop where
  /-- The call was turned down. -/
  | rejected (reason : Rejection)
  /-- A place outside a buffer or a stream was asked for. -/
  | outOfRange
  /-- A sum of times does not fit. -/
  | timeOverflow
  deriving DecidableEq, Repr

end PageCodec
