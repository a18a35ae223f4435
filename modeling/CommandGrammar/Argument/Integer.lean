/-
Whole numbers of 64 bits. A word is an optional sign and one or more
ASCII digits; it is read from the left and refused at the first digit
that leaves the range or the first character that is no digit, so what
comes first decides the refusal.

The numbers of a range that begin with a digit text are found without
looking at the others: a text `p` without leading zero begins exactly
the numbers from `p · 10 ^ k` to `(p + 1) · 10 ^ k - 1`, one span for
each count `k` of further digits, and no number of 64 bits has more than
nineteen digits.
-/
import CommandGrammar.Argument.Number
import CommandGrammar.Text.Digit

namespace CommandGrammar.Integer

open Text

-- powers of naturals are the core library's, whatever else is imported
attribute [local instance (2000)] instPowNat

-- ============================================================== reading

/-- Why digits are no number within a limit. -/
inductive Fault where
  /-- A character is no digit. -/
  | notDigit
  /-- The digits so far exceed the limit. -/
  | beyond
  deriving DecidableEq

/-- Reads digits behind those already read, up to a limit. -/
def readDigits (limit : Nat) : Nat → List Char → Except Fault Nat
  | n, [] => .ok n
  | n, c :: rest =>
      match digit? c with
      | none => .error .notDigit
      | some d =>
          if 10 * n + d ≤ limit then readDigits limit (10 * n + d) rest
          else .error .beyond

/-- Whether a sign is minus, and the text behind it. -/
def splitSign : List Char → Bool × List Char
  | '-' :: rest => (true, rest)
  | '+' :: rest => (false, rest)
  | text => (false, text)

/-- The name of the type in a refusal. -/
def kind : String := "integer"

/-- Reads a word as a number of 64 bits. -/
def read (word : String) : Except Refusal Int64 :=
  let (negative, digits) := splitSign word.toList
  if digits.isEmpty then .error (.invalidFormat kind)
  else
    match readDigits (if negative then 2 ^ (63 : Nat) else 2 ^ (63 : Nat) - 1) 0 digits with
    | .ok n => .ok (Int64.ofInt (if negative then -n else n))
    | .error .notDigit => .error (.invalidFormat kind)
    | .error .beyond =>
        .error <|
          if negative then .numberTooSmall (toString Int64.minValue.toInt)
          else .numberTooBig (toString Int64.maxValue.toInt)

/-- Whether a text could be the beginning of a number: an optional minus
sign and ASCII digits. -/
def canBegin (typed : String) : Bool :=
  match typed.toList with
  | '-' :: digits => digits.all Char.isDigit
  | digits => digits.all Char.isDigit

-- ============================================================== ranges

/-- A range of whole numbers, both ends included; empty if the upper end
is below the lower one. -/
abbrev Span : Type := Int × Int

/-- What two spans share. -/
def Span.meet (a b : Span) : Span :=
  (max a.1 b.1, min a.2 b.2)

/-- The first numbers of a span, at most so many. -/
def Span.first (limit : Nat) (span : Span) : List Int :=
  (List.range (min limit (span.2 + 1 - span.1).toNat)).map fun (i : Nat) => span.1 + i

/-- The first numbers of several spans, one span after the other. -/
def firstOf (limit : Nat) : List Span → List Int
  | [] => []
  | span :: rest =>
      let here := span.first limit
      here ++ firstOf (limit - here.length) rest

/-- The number that begins every number of the spans: digits behind an
optional plus sign, not all of them zero. More than `2 ^ 63` begins no
number of 64 bits, so reading stops there and all ends of spans stay
within 128 bits. -/
def leading? (digits : List Char) : Option Nat :=
  let digits := match digits with
    | '+' :: rest => rest
    | _ => digits
  match readDigits (2 ^ (63 : Nat)) 0 digits with
  | .ok n => if 0 < n then some n else none
  | .error _ => none

/-- The magnitudes whose text begins with that of `n`, by the count of
further digits. -/
def magnitudes (n : Nat) : List Span :=
  (List.range 19).map fun k => ((n * 10 ^ k : Nat), ((n + 1) * 10 ^ k : Nat) - 1)

/-- The span of the opposite numbers. -/
def Span.opposite (span : Span) : Span :=
  (-span.2, -span.1)

/-- The numbers of a range that begin with what was typed, as ascending
spans. Only zero itself begins with a zero. -/
def spans (range : Span) (typed : List Char) : List Span :=
  match typed with
  | ['-'] => [range.meet (range.1, -1)]
  | '-' :: '0' :: _ => []
  | '-' :: digits =>
      match leading? digits with
      | some n => ((magnitudes n).map Span.opposite).reverse.map range.meet
      | none => []
  | [] => [range]
  | ['0'] => [range.meet (0, 0)]
  | '0' :: _ => []
  | digits =>
      match leading? digits with
      | some n => (magnitudes n).map range.meet
      | none => []

/-- At most `limit` numbers between two bounds that begin with what was
typed, in ascending order. -/
def listed (min max : Int64) (typed : String) (limit : Nat) : List Int64 :=
  (firstOf limit (spans (min.toInt, max.toInt) typed.toList)).map Int64.ofInt

instance : Number Int64 where
  kind := kind
  read := read
  canBegin := canBegin
  text n := toString n.toInt
  toValue n := .int n
  next? n := if n < Int64.maxValue then some (n + 1) else none
  listed := listed

end CommandGrammar.Integer
