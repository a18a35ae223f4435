/-
Floating-point numbers. A word is an optional minus sign, ASCII digits
with at most one point and at least one digit, and at most one letter
that names the format. Its number is the one of the format nearest to
the decimal, rounded once; beyond the bound the word is refused with the
largest number there is.
-/
import CommandGrammar.Argument.Number
import CommandGrammar.Text.Digit

namespace CommandGrammar.Fraction

open Decimal Text

-- powers of naturals are the core library's, whatever else is imported
attribute [local instance (2000)] instPowNat

/-- What a format is called in words and refusals. -/
structure Naming where
  /-- The name in a refusal. -/
  kind : String
  /-- The letters that may end a number. -/
  letters : List Char

/-- The names of the format of 32 bits. -/
def float : Naming := { kind := "float", letters := ['f', 'F'] }

/-- The names of the format of 64 bits. -/
def double : Naming := { kind := "double", letters := ['d', 'D'] }

/-- Whether the sign is minus, and the text behind it. -/
def splitSign : List Char → Bool × List Char
  | '-' :: rest => (true, rest)
  | text => (false, text)

/-- The text without a format letter at its end. -/
def dropLetter (naming : Naming) (text : List Char) : List Char :=
  match text.getLast? with
  | some c => if c ∈ naming.letters then text.dropLast else text
  | none => text

/-- The characters before the first point and those behind it. -/
def splitPoint (text : List Char) : List Char × List Char :=
  (text.takeWhile (· != '.'), (text.dropWhile (· != '.')).drop 1)

/-- Reads a word as a number of a format. -/
def read (f : Format) (naming : Naming) (word : String) : Except Refusal (Binary f) :=
  let (negative, rest) := splitSign word.toList
  let (whole, decimals) := splitPoint (dropLetter naming rest)
  let digits := whole ++ decimals
  if digits.isEmpty || !digits.all Char.isDigit then .error (.invalidFormat naming.kind)
  else
    match Binary.ofRatio? f negative (digitsValue digits) (10 ^ decimals.length) with
    | some x => .ok x
    | none =>
        let most := (Binary.largest f negative).text
        .error (if negative then .numberTooSmall most else .numberTooBig most)

/-- Whether a text could be the beginning of a number: sign, digits of
any script, point and letter, each of them optional. -/
def canBegin (naming : Naming) (typed : String) : Bool :=
  let (_, rest) := splitSign typed.toList
  let (whole, decimals) := splitPoint (dropLetter naming rest)
  (whole ++ decimals).all isDecimalNumber

instance : Number (Binary .single) where
  kind := float.kind
  read := read .single float
  canBegin := canBegin float
  text := Binary.text
  toValue x := .float x
  next? := Binary.next?
  listed := Number.stepped Binary.next? Binary.text

instance : Number (Binary .double) where
  kind := double.kind
  read := read .double double
  canBegin := canBegin double
  text := Binary.text
  toValue x := .double x
  next? := Binary.next?
  listed := Number.stepped Binary.next? Binary.text

end CommandGrammar.Fraction
