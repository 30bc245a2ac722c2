import PageCodec.Proofs.Image

/-!
# One buffer for many pages

A buffer that pages are compressed into one after another needs no cleaning in between.  What a
call answers and what it writes depend on the page and on the length of the buffer, and on nothing
that stands in the buffer.

* `Encoder.outcome_eq` — what a call answers, in terms of its lengths and the page.
* `Encoder.getElem?_leave` — what a call leaves at each place of the buffer.
* `Encoder.Clean` — a call on a buffer in use is as good as one on a fresh buffer.
* `Encoder.outcomes`, `Encoder.reuse` — the answers to a series of calls and the buffer after it.
* `Encoder.reuse_clean` — every call of a series is clean.
-/

namespace PageCodec

namespace Encoder

variable {page : List Word} {b : Buffer}

/-! ## One call -/

/-- What a call answers. -/
def outcome (page : List Word) (b : Buffer) : Except Stop Encoded :=
  match encode page b with
  | .ok e _ => .ok e
  | .error stop _ => .error stop

/-- The buffer that a call leaves, whether or not it completes. -/
def leave (page : List Word) (b : Buffer) : Buffer :=
  match encode page b with
  | .ok _ b => b
  | .error _ b => b

/-- Of the buffer only its length counts. -/
theorem outcome_eq (page : List Word) (b : Buffer) :
    outcome page b =
      if page.length ≠ Layout.pageWords then
        .error (.rejected (.pageLength Layout.pageWords page.length))
      else if b.length < Layout.maxWords then
        .error (.rejected (.capacity Layout.maxWords b.length))
      else .ok (trace page).encoded := by
  by_cases hp : page.length = Layout.pageWords
  · rw [if_neg (not_not.2 hp)]
    by_cases hb : b.length < Layout.maxWords
    · rw [if_pos hb, outcome, encode_of_capacity hp hb]
    · rw [if_neg hb]
      cases b with
      | nil => exact absurd (by decide) hb
      | cons algorithm b => rw [outcome, encode_eq hp (Nat.not_lt.1 hb)]
  · rw [if_pos hp, outcome, encode_of_length_ne hp]

theorem outcome_eq_ok {e : Encoded} (h : outcome page b = .ok e) :
    page.length = Layout.pageWords ∧ Layout.maxWords ≤ b.length ∧ e = (trace page).encoded := by
  rw [outcome_eq] at h
  by_cases hp : page.length = Layout.pageWords
  · rw [if_neg (not_not.2 hp)] at h
    by_cases hb : b.length < Layout.maxWords
    · rw [if_pos hb] at h
      cases h
    · rw [if_neg hb] at h
      cases h
      exact ⟨hp, Nat.not_lt.1 hb, rfl⟩
  · rw [if_pos hp] at h
    cases h

theorem encode_eq_ok {e : Encoded} {b' : Buffer} (h : encode page b = .ok e b') :
    page.length = Layout.pageWords ∧ Layout.maxWords ≤ b.length ∧ e = (trace page).encoded :=
  outcome_eq_ok (by rw [outcome, h])

/-- A call that does not complete writes nothing. -/
theorem leave_of_error {stop : Stop} (h : outcome page b = .error stop) : leave page b = b := by
  by_cases hp : page.length = Layout.pageWords
  · by_cases hb : b.length < Layout.maxWords
    · rw [leave, encode_of_capacity hp hb]
    · rw [outcome_eq, if_neg (not_not.2 hp), if_neg hb] at h
      cases h
  · rw [leave, encode_of_length_ne hp]

/-- A call that completes writes the image of its page behind the identifier and nothing else. -/
theorem getElem?_leave (hp : page.length = Layout.pageWords) (hb : Layout.maxWords ≤ b.length)
    (i : Nat) :
    (leave page b)[i]? =
      if 1 ≤ i ∧ i < (trace page).encoded.length then (trace page).image[i - 1]? else b[i]? := by
  cases b with
  | nil => exact absurd hb (by decide)
  | cons algorithm b =>
    have hlen : (trace page).image.length + 1 = (trace page).encoded.length :=
      length_cons_image hp algorithm
    rw [leave, encode_eq hp hb, ← hlen]
    cases i with
    | zero => rfl
    | succ i =>
      rw [List.cons_append, List.getElem?_cons_succ, List.getElem?_cons_succ,
        Nat.add_sub_cancel]
      by_cases hi : i < (trace page).image.length
      · rw [List.getElem?_append_left hi, if_pos (by omega)]
      · rw [List.getElem?_append_right (Nat.not_lt.1 hi), List.getElem?_drop, if_neg (by omega),
          Nat.add_sub_cancel' (Nat.not_lt.1 hi)]

theorem length_leave (page : List Word) (b : Buffer) : (leave page b).length = b.length := by
  cases h : outcome page b with
  | error stop => rw [leave_of_error h]
  | ok e =>
    obtain ⟨hp, hb, -⟩ := outcome_eq_ok h
    cases b with
    | nil => exact absurd hb (by decide)
    | cons algorithm b =>
      have hlen := length_cons_image hp algorithm
      have hmax := (Trace.length_encoded_le (length_trace hp)).trans hb
      rw [← hlen] at hmax
      rw [leave, encode_eq hp hb]
      simp only [List.length_append, List.length_cons, List.length_drop] at hmax ⊢
      omega

/-- The identifier belongs to whoever stores the page. -/
theorem getElem?_zero_leave (page : List Word) (b : Buffer) : (leave page b)[0]? = b[0]? := by
  cases h : outcome page b with
  | error stop => rw [leave_of_error h]
  | ok e =>
    obtain ⟨hp, hb, -⟩ := outcome_eq_ok h
    rw [getElem?_leave hp hb, if_neg (by omega)]

theorem outcome_of_length_eq {c : Buffer} (h : b.length = c.length) (page : List Word) :
    outcome page b = outcome page c := by
  rw [outcome_eq, outcome_eq, h]

/-! ## A buffer in use and a fresh one -/

/-- The buffer of the given length that is full of zeros. -/
def fresh (n : Nat) : Buffer := List.replicate n 0

theorem length_fresh (n : Nat) : (fresh n).length = n := List.length_replicate

/-- A call on a buffer in use is as good as one on a fresh buffer, and it disturbs nothing. -/
structure Clean (page : List Word) (initial before : Buffer) : Prop where
  /-- The call answers what it would answer on a fresh buffer. -/
  answer : outcome page before = outcome page (fresh initial.length)
  /-- The words behind the identifier are those that it would write to a fresh buffer. -/
  written : ∀ e, outcome page before = .ok e → ∀ i, 1 ≤ i → i < e.length →
    (leave page before)[i]? = (leave page (fresh initial.length))[i]?
  /-- The identifier is what it was at first. -/
  identifier : (leave page before)[0]? = initial[0]?
  /-- The words behind the page are what they were before the call. -/
  behind : ∀ e, outcome page before = .ok e → ∀ i, e.length ≤ i →
    (leave page before)[i]? = before[i]?
  /-- A call that does not complete changes nothing. -/
  stopped : ∀ stop, outcome page before = .error stop → leave page before = before

theorem clean_of_length_eq {initial before : Buffer} (hl : before.length = initial.length)
    (h0 : before[0]? = initial[0]?) (page : List Word) : Clean page initial before := by
  have hlen : before.length = (fresh initial.length).length := hl.trans (length_fresh _).symm
  constructor
  · exact outcome_of_length_eq hlen page
  · intro e he i h1 hi
    obtain ⟨hp, hb, rfl⟩ := outcome_eq_ok he
    have hfresh := hlen ▸ hb
    rw [getElem?_leave hp hb, getElem?_leave hp hfresh, if_pos ⟨h1, hi⟩, if_pos ⟨h1, hi⟩]
  · rw [getElem?_zero_leave, h0]
  · intro e he i hi
    obtain ⟨hp, hb, rfl⟩ := outcome_eq_ok he
    rw [getElem?_leave hp hb, if_neg (fun h => Nat.not_lt.2 hi h.2)]
  · intro stop hstop
    exact leave_of_error hstop

/-! ## A series of calls -/

/-- What a series of calls on one buffer answers. -/
def outcomes : List (List Word) → Buffer → List (Except Stop Encoded)
  | [], _ => []
  | page :: pages, b => outcome page b :: outcomes pages (leave page b)

/-- The buffer that a series of calls leaves. -/
def reuse : List (List Word) → Buffer → Buffer
  | [], b => b
  | page :: pages, b => reuse pages (leave page b)

theorem length_reuse (pages : List (List Word)) (b : Buffer) :
    (reuse pages b).length = b.length := by
  induction pages generalizing b with
  | nil => rfl
  | cons page pages ih => rw [reuse, ih, length_leave]

theorem getElem?_zero_reuse (pages : List (List Word)) (b : Buffer) :
    (reuse pages b)[0]? = b[0]? := by
  induction pages generalizing b with
  | nil => rfl
  | cons page pages ih => rw [reuse, ih, getElem?_zero_leave]

/-- A series of calls answers what each call would answer on any other buffer of the length. -/
theorem outcomes_eq_map {c : Buffer} (pages : List (List Word)) (h : b.length = c.length) :
    outcomes pages b = pages.map fun page => outcome page c := by
  induction pages generalizing b with
  | nil => rfl
  | cons page pages ih =>
    rw [outcomes, List.map_cons, outcome_of_length_eq h, ih ((length_leave page b).trans h)]

/-- **Reuse.**  In a series of calls on one buffer, with pages of any lengths and whatever stands in
the buffer at first, the calls answer what they would answer alone on a fresh buffer, and each call
is clean. -/
theorem reuse_clean (pages : List (List Word)) (initial : Buffer) :
    outcomes pages initial = pages.map (fun page => outcome page (fresh initial.length))
      ∧ ∀ n page, pages[n]? = some page → Clean page initial (reuse (pages.take n) initial) := by
  refine ⟨outcomes_eq_map pages (length_fresh _).symm, ?_⟩
  intro n page _
  exact clean_of_length_eq (length_reuse ..) (getElem?_zero_reuse ..) page

end Encoder

end PageCodec
