/-!
# Numbers as text

Hexadecimal numbers and right-aligned columns, as they are used in the lines about single pages.
-/

namespace PageCodec

namespace Text

/-- The text with blanks in front up to a width; longer text is left as it is. -/
def alignRight (width : Nat) (text : String) : String :=
  String.ofList (List.replicate (width - text.length) ' ') ++ text

/-- The lower-case hexadecimal digits of a number. -/
def hexDigits (n : Nat) : List Char := Nat.toDigits 16 n

/-- A number in hexadecimal, with its mark. -/
def hex (n : Nat) : String := "0x" ++ String.ofList (hexDigits n)

/-- A word in hexadecimal with all its digits, with its mark. -/
def hexWord (n : Nat) : String :=
  "0x" ++ String.ofList (List.replicate (8 - (hexDigits n).length) '0' ++ hexDigits n)

end Text

end PageCodec
