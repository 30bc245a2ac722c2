import PageCodec.Measure.Run

/-!
# The columns of a line

A line about a page has eight numbers in it, of which one is hexadecimal.  They can be read off the
line again, since each of them stands by itself between blanks and names, and blanks in front of a
number or zeros in front of its digits make no difference.

* `Text.takeNumber`, `Text.takeColumn`, `Text.takeName` — how a line is read.
* `Measure.Row` — the numbers in a line, and `Measure.Row.read?`, which reads them.
* `Measure.read?_pageLine` — the line about a page shows its numbers.
-/

namespace PageCodec

/-! ## Reading numbers and names -/

namespace Text

/-- The value of a digit, of which those from ten up are letters. -/
def digitValue (c : Char) : Nat :=
  if c.isDigit then c.toNat - '0'.toNat else c.toNat - 'a'.toNat + 10

/-- The character is a digit in a base. -/
def isDigitOf (base : Nat) (c : Char) : Bool := c.isAlphanum && digitValue c < base

/-- The number with given digits, the last of which are the lowest. -/
def digitsValue (base : Nat) (cs : List Char) : Nat :=
  cs.foldl (fun n c => base * n + digitValue c) 0

/-- Reads the number in front of a text. -/
def takeNumber (base : Nat) (cs : List Char) : Option (Nat × List Char) :=
  let digits := cs.takeWhile (isDigitOf base)
  if digits.isEmpty then none
  else some (digitsValue base digits, cs.dropWhile (isDigitOf base))

/-- Reads the decimal number behind some blanks. -/
def takeColumn (cs : List Char) : Option (Nat × List Char) :=
  takeNumber 10 (cs.dropWhile (· = ' '))

/-- Reads a given text. -/
def takeName (name : String) (cs : List Char) : Option (List Char) :=
  if cs.take name.length = name.toList then some (cs.drop name.length) else none

/-- Reads the column behind a given text. -/
def takeNamed (name : String) (cs : List Char) : Option (Nat × List Char) :=
  (takeName name cs).bind takeColumn

section

variable {base : Nat} (hone : 1 < base) (hbase : base ≤ 16)

include hbase in
theorem digitOf_digitChar {d : Nat} (h : d < base) :
    isDigitOf base d.digitChar = true ∧ digitValue d.digitChar = d := by
  have hall : ∀ d < 16, d.digitChar.isAlphanum = true ∧ digitValue d.digitChar = d := by decide
  obtain ⟨halnum, hvalue⟩ := hall d (Nat.lt_of_lt_of_le h hbase)
  refine ⟨?_, hvalue⟩
  rw [isDigitOf, halnum, hvalue]
  exact decide_eq_true h

/-- Zeros in front of digits add nothing to their value. -/
theorem digitsValue_zeros (zeros : Nat) (cs : List Char) :
    digitsValue base (List.replicate zeros '0' ++ cs) = digitsValue base cs := by
  induction zeros with
  | zero => rfl
  | succ zeros ih =>
    have hzero : base * 0 + digitValue '0' = 0 := rfl
    rw [← ih, digitsValue, List.replicate_succ, List.cons_append, List.foldl_cons, hzero]
    rfl

theorem digitsValue_concat (cs : List Char) (c : Char) :
    digitsValue base (cs ++ [c]) = base * digitsValue base cs + digitValue c :=
  List.foldl_append

/-- A number ends at the first character that is no digit. -/
theorem takeNumber_append {digits rest : List Char} (hne : digits ≠ [])
    (hdigits : ∀ c ∈ digits, isDigitOf base c = true)
    (hrest : ∀ c ∈ rest.head?, isDigitOf base c = false) :
    takeNumber base (digits ++ rest)
      = some (digitsValue base digits, rest) := by
  have hend : rest.takeWhile (isDigitOf base) = [] ∧ rest.dropWhile (isDigitOf base) = rest := by
    cases rest with
    | nil => exact ⟨rfl, rfl⟩
    | cons c cs =>
      have hc : isDigitOf base c = false := hrest c rfl
      simp [hc]
  unfold takeNumber
  dsimp only
  rw [List.takeWhile_append_of_pos hdigits, List.dropWhile_append_of_pos hdigits, hend.1, hend.2,
    List.append_nil, if_neg (by rwa [List.isEmpty_iff])]

include hone hbase

/-- The digits of a number are digits, and they have its value.  The induction is on the number
without its last digit. -/
theorem digits_toDigits (n : Nat) : (∀ c ∈ Nat.toDigits base n, isDigitOf base c = true)
    ∧ digitsValue base (Nat.toDigits base n) = n := by
  induction n using Nat.strongRecOn with
  | _ n ih =>
    by_cases h : n < base
    · obtain ⟨hdigit, hvalue⟩ := digitOf_digitChar hbase h
      rw [Nat.toDigits_of_lt_base h]
      simp [digitsValue, hdigit, hvalue]
    · have hlast : n % base < base := Nat.mod_lt _ (Nat.lt_trans Nat.zero_lt_one hone)
      have hrest : n / base < n := Nat.div_lt_self (by omega) hone
      obtain ⟨hdigit, hvalue⟩ := digitOf_digitChar hbase hlast
      obtain ⟨hdigits, hvalues⟩ := ih _ hrest
      rw [Nat.toDigits_of_base_le hone (Nat.not_lt.1 h)]
      constructor
      · intro c hc
        rcases List.mem_append.1 hc with hc | hc
        · exact hdigits c hc
        · rw [List.mem_singleton.1 hc, hdigit]
      · rw [digitsValue_concat, hvalues, hvalue, Nat.div_add_mod]

/-- A number is read from its digits, also with zeros in front, up to what is no digit. -/
theorem takeNumber_digits (zeros n : Nat) {rest : List Char}
    (hrest : ∀ c ∈ rest.head?, isDigitOf base c = false) :
    takeNumber base (List.replicate zeros '0' ++ Nat.toDigits base n ++ rest)
      = some (n, rest) := by
  obtain ⟨hdigits, hvalue⟩ := digits_toDigits hone hbase n
  have hzero : isDigitOf base '0' = true :=
    (digitOf_digitChar hbase (Nat.lt_trans Nat.zero_lt_one hone)).1
  have hne : List.replicate zeros '0' ++ Nat.toDigits base n ≠ [] :=
    List.append_ne_nil_of_right_ne_nil _ Nat.toDigits_ne_nil
  have hall : ∀ c ∈ List.replicate zeros '0' ++ Nat.toDigits base n, isDigitOf base c = true := by
    intro c hc
    rcases List.mem_append.1 hc with hc | hc
    · rw [List.eq_of_mem_replicate hc, hzero]
    · exact hdigits c hc
  rw [takeNumber_append hne hall hrest, digitsValue_zeros, hvalue]

end

/-- The next character is a blank, or there is none. -/
def AtBlank (rest : List Char) : Prop := ∀ c ∈ rest.head?, c = ' '

theorem takeColumn_alignRight (width n : Nat) {rest : List Char} (hrest : AtBlank rest) :
    takeColumn ((alignRight width (toString n)).toList ++ rest) = some (n, rest) := by
  obtain ⟨hdigits, -⟩ := digits_toDigits (by decide : 1 < 10) (by decide) n
  have hend : ∀ c ∈ rest.head?, isDigitOf 10 c = false := by
    intro c hc
    rw [hrest c hc]
    decide
  have hblanks : ∀ k, (List.replicate k ' ' ++ (Nat.toDigits 10 n ++ rest)).dropWhile (· = ' ')
      = Nat.toDigits 10 n ++ rest := by
    intro k
    rw [List.dropWhile_append_of_pos (by simp)]
    obtain ⟨c, cs, hcs⟩ := List.exists_cons_of_ne_nil (Nat.toDigits_ne_nil (n := n) (b := 10))
    have hc : c ≠ ' ' := by
      rintro rfl
      exact absurd (hdigits ' ' (hcs ▸ List.mem_cons_self)) (by decide)
    rw [hcs, List.cons_append, List.dropWhile_cons_of_neg (by simpa using hc)]
  have hread := takeNumber_digits (by decide : 1 < 10) (by decide) 0 n hend
  rw [List.replicate_zero, List.nil_append] at hread
  rw [takeColumn, alignRight, String.toList_append, String.toList_ofList, Nat.toString_eq_repr,
    Nat.toList_repr, List.append_assoc, hblanks, hread]

/-- Eight hexadecimal digits at the front of a line. -/
def hexColumn (n : Nat) (rest : List Char) : List Char :=
  List.replicate (8 - (hexDigits n).length) '0' ++ hexDigits n ++ rest

theorem takeNumber_hexColumn (n : Nat) {rest : List Char} (hrest : AtBlank rest) :
    takeNumber 16 (hexColumn n rest) = some (n, rest) := by
  refine takeNumber_digits (by decide) (by decide) _ n ?_
  intro c hc
  rw [hrest c hc]
  decide

theorem takeName_append (name : String) (rest : List Char) :
    takeName name (name.toList ++ rest) = some rest := by
  unfold takeName
  rw [← String.length_toList, List.take_left, if_pos rfl, List.drop_left]

/-- A name at the front of a line, with the column behind it. -/
def namedColumn (name : String) (n : Nat) (rest : List Char) : List Char :=
  name.toList ++ ((alignRight 5 (toString n)).toList ++ rest)

theorem takeNamed_namedColumn (name : String) (n : Nat) {rest : List Char} (hrest : AtBlank rest) :
    takeNamed name (namedColumn name n rest) = some (n, rest) := by
  rw [takeNamed, namedColumn, takeName_append, Option.bind_some, takeColumn_alignRight 5 n hrest]

theorem atBlank_nil : AtBlank [] := fun c hc => by cases hc

theorem atBlank_append {name : String} (h : name.toList.head? = some ' ') (rest : List Char) :
    AtBlank (name.toList ++ rest) := by
  intro c hc
  rw [List.head?_append, h] at hc
  cases hc
  rfl

theorem atBlank_namedColumn {name : String} (h : name.toList.head? = some ' ') (n : Nat)
    (rest : List Char) : AtBlank (namedColumn name n rest) := atBlank_append h _

end Text

/-! ## The line about a page -/

namespace Measure

/-- The numbers in a line about a page. -/
structure Row where
  /-- Place of the page in its input. -/
  index : Nat
  /-- The identifier. -/
  algorithm : Nat
  /-- Length of the compressed page in words. -/
  length : Nat
  /-- Number of full words. -/
  fullWords : Nat
  /-- The tags of the page. -/
  tally : Tally
  deriving DecidableEq, Repr

/-- Reads the numbers in a line, each by the name that it is shown with. -/
def Row.read? (text : String) : Option Row := do
  let (index, cs) ← Text.takeColumn text.toList
  let cs ← Text.takeName " 0x" cs
  let (algorithm, cs) ← Text.takeNumber 16 cs
  let (length, cs) ← Text.takeNamed " " cs
  let (fullWords, cs) ← Text.takeNamed " words  full" cs
  let (z, cs) ← Text.takeNamed " z" cs
  let (e, cs) ← Text.takeNamed " e" cs
  let (p, cs) ← Text.takeNamed " p" cs
  let (m, cs) ← Text.takeNamed " m" cs
  if cs.isEmpty then some ⟨index, algorithm, length, fullWords, ⟨z, e, p, m⟩⟩ else none

/-- The numbers of a line are read one after another. -/
theorem Row.read?_eq {text : String} {index algorithm length fullWords z e p m : Nat}
    {c₁ c₂ c₃ c₄ c₅ c₆ c₇ c₈ : List Char}
    (hindex : Text.takeColumn text.toList = some (index, c₁))
    (hname : Text.takeName " 0x" c₁ = some c₂)
    (halgorithm : Text.takeNumber 16 c₂ = some (algorithm, c₃))
    (hlength : Text.takeNamed " " c₃ = some (length, c₄))
    (hfull : Text.takeNamed " words  full" c₄ = some (fullWords, c₅))
    (hz : Text.takeNamed " z" c₅ = some (z, c₆)) (he : Text.takeNamed " e" c₆ = some (e, c₇))
    (hp : Text.takeNamed " p" c₇ = some (p, c₈)) (hm : Text.takeNamed " m" c₈ = some (m, [])) :
    Row.read? text = some ⟨index, algorithm, length, fullWords, ⟨z, e, p, m⟩⟩ := by
  simp only [Row.read?, hindex, hname, halgorithm, hlength, hfull, hz, he, hp, hm,
    Option.bind_eq_bind, Option.bind_some]
  rfl

/-- The numbers in the line about a page are those of its header and its tags. -/
theorem read?_pageLine (index : Nat) (h : Header) (t : Tally) :
    Row.read? (pageLine index h t)
      = some ⟨index, h.algorithm.toNat, h.compressedLength, h.fullWordCount, t⟩ := by
  have hline : (pageLine index h t).toList = (Text.alignRight 8 (toString index)).toList
      ++ (" 0x".toList ++ Text.hexColumn h.algorithm.toNat
        (Text.namedColumn " " h.compressedLength (Text.namedColumn " words  full" h.fullWordCount
          (Text.namedColumn " z" t.zero (Text.namedColumn " e" t.exactMatch
            (Text.namedColumn " p" t.partialMatch (Text.namedColumn " m" t.miss []))))))) := by
    have htext : ∀ text : String, toString text = text := fun _ => rfl
    simp [pageLine, Text.hexColumn, Text.namedColumn, Text.hexWord, String.toList_append, htext]
  have hblank : ∀ name : String, name.toList.head? = some ' ' → ∀ n rest,
      Text.AtBlank (Text.namedColumn name n rest) := fun _ => Text.atBlank_namedColumn
  refine Row.read?_eq ?_ (Text.takeName_append ..)
    (Text.takeNumber_hexColumn _ (hblank " " (by decide) _ _))
    (Text.takeNamed_namedColumn _ _ (hblank " words  full" (by decide) _ _))
    (Text.takeNamed_namedColumn _ _ (hblank " z" (by decide) _ _))
    (Text.takeNamed_namedColumn _ _ (hblank " e" (by decide) _ _))
    (Text.takeNamed_namedColumn _ _ (hblank " p" (by decide) _ _))
    (Text.takeNamed_namedColumn _ _ (hblank " m" (by decide) _ _))
    (Text.takeNamed_namedColumn _ _ Text.atBlank_nil)
  rw [hline]
  exact Text.takeColumn_alignRight 8 index (Text.atBlank_append (by decide) _)

end Measure

end PageCodec
