/-
How the digits of a number are laid out as text. Which numbers are
written with all their places, and which with an exponent, is a choice
of the writer, held in one record; so is the mark that a whole number
carries.
-/
import CommandGrammar.Decimal.Shortest

namespace CommandGrammar.Decimal

/-- A way to write numbers. -/
structure Layout where
  /-- Whether a number whose leading digit stands for this power of ten
  is written with all its places. -/
  positional : Int → Bool
  /-- What follows a whole number. -/
  whole : List Char

namespace Layout

/-- Every number with all its places; a whole number carries no mark. -/
def plain : Layout where
  positional _ := true
  whole := []

/-- Numbers from a ten-thousandth to below ten to the sixteenth with all
their places, others with an exponent; a whole number ends in `.0`. -/
def marked : Layout where
  positional lead := -4 ≤ lead && lead ≤ 15
  whole := ['.', '0']

/-- A number with all its places: `digits · 10 ^ e`. -/
def place (layout : Layout) (digits : List Char) (e : Int) : List Char :=
  if 0 ≤ e then digits ++ List.replicate e.toNat '0' ++ layout.whole
  else
    let places := (-e).toNat
    if places < digits.length then
      digits.take (digits.length - places) ++ '.' :: digits.drop (digits.length - places)
    else '0' :: '.' :: List.replicate (places - digits.length) '0' ++ digits

/-- A number as its leading digit, the others behind a point, and the
power of ten of the leading digit. -/
def scientific (digits : List Char) (lead : Int) : List Char :=
  digits.take 1 ++ (if digits.length ≤ 1 then [] else '.' :: digits.drop 1)
    ++ 'e' :: (toString lead).toList

/-- The text of `n · 10 ^ e` under a sign. -/
def write (layout : Layout) (negative : Bool) (n : Nat) (e : Int) : String :=
  let digits := Nat.toDigits 10 n
  let lead := e + digits.length - 1
  String.ofList <|
    (if negative then ['-'] else [])
      ++ if layout.positional lead then layout.place digits e else scientific digits lead

end Layout

namespace Binary

variable {f : Format}

/-- The text of a number: its shortest decimal, never with an exponent
and without a mark on whole numbers. -/
def text (x : Binary f) : String :=
  Layout.plain.write x.negative x.shortest.1 x.shortest.2

/-- The text of a number in a record: whole numbers are marked, and very
large and very small ones have an exponent. -/
def recordText (x : Binary f) : String :=
  Layout.marked.write x.negative x.shortest.1 x.shortest.2

end Binary

end CommandGrammar.Decimal
