/-
Numeric arguments. What the numeric types share is a class: how a word
is read, which beginnings of words to put up with while the number is
being typed, how a number is written, and which numbers of a range to
propose. A numeric argument adds bounds, both inclusive.
-/
import CommandGrammar.Argument.Hint
import CommandGrammar.Argument.Reader
import CommandGrammar.Spec.Defect
import CommandGrammar.Text.Alternatives

namespace CommandGrammar

open Text

/-- A type of numbers that an argument can bind. -/
class Number (N : Type) [LT N] where
  /-- The name of the type in a refusal. -/
  kind : String
  /-- Reads a whole word; a number out of the type's range is refused as
  too big or too small. -/
  read : String → Except Refusal N
  /-- Whether a text could be the beginning of a number. -/
  canBegin : String → Bool
  /-- The text of a number. -/
  text : N → String
  /-- The number as a value. -/
  toValue : {α : Type} → N → Value α
  /-- The next larger number to propose, if there is one. -/
  next? : N → Option N
  /-- At most `limit` numbers between two bounds whose text begins with
  what was typed, in ascending order. -/
  listed : (min max : N) → (typed : String) → (limit : Nat) → List N

namespace Number

/-- How many numbers of a range an argument proposes at most. -/
def suggestionLimit : Nat := 20

/-- How many numbers of a range are looked at where they are stepped
through one by one. -/
def stepLimit : Nat := 1000

/-- The numbers from one on by repeated steps, up to a bound and to a
count. -/
def upTo {N : Type} [LE N] [DecidableLE N] (next? : N → Option N) (max : N) :
    Nat → N → List N
  | 0, _ => []
  | count + 1, n =>
      if n ≤ max then
        match next? n with
        | some after => n :: upTo next? max count after
        | none => [n]
      else []

/-- The numbers met when stepping from the lower bound to the upper whose
text begins with what was typed. -/
def stepped {N : Type} [LE N] [DecidableLE N] (next? : N → Option N) (text : N → String)
    (min max : N) (typed : String) (limit : Nat) : List N :=
  ((upTo next? max stepLimit min).filter fun n => begins (text n) typed).take limit

variable {N : Type} [LT N]

/-- A numeric argument. -/
structure Bounded (N : Type) where
  /-- The smallest number accepted. -/
  min : Option N
  /-- The largest number accepted. -/
  max : Option N
  /-- What its suggestions show. -/
  hint : Hint

namespace Bounded

variable [DecidableLT N] [Number N] {α : Type}

/-- The bound that a parameter of a node sets. A value that is no number
of the type is a defect of the node. -/
def bound (N : Type) [LT N] [Number N] (node : Spec.Node) (key : String) :
    Except Spec.Defect (Option N) :=
  match node.parameters.get? key with
  | some value =>
      match Number.read value with
      | .ok n => .ok (some n)
      | .error _ => .error (.invalidParameter node.name key value)
  | none => .ok none

/-- The argument with the bounds that a node sets. -/
def ofNode (N : Type) [LT N] [Number N] (node : Spec.Node) :
    Except Spec.Defect (Bounded N) := do
  let min ← bound N node "min"
  let max ← bound N node "max"
  return { min, max, hint := .ofNode node }

/-- Refuses a number outside the bounds, looking at the lower one first. -/
def check (bounded : Bounded N) (n : N) : Except Refusal N := do
  if let some min := bounded.min then
    if n < min then throw (.numberTooSmall (text min))
  if let some max := bounded.max then
    if max < n then throw (.numberTooBig (text max))
  return n

/-- Reads a number within the bounds. -/
def readWord (bounded : Bounded N) (word : String) : Except Refusal (Value α) := do
  let n ← Number.read word
  let n ← bounded.check n
  return toValue n

/-- With both bounds, numbers between them; else the placeholder; and
nothing where no number begins with what was typed. -/
def suggest (bounded : Bounded N) (line : Line) : List SuggestionGroup :=
  if canBegin N line.current then
    match bounded.min, bounded.max with
    | some min, some max =>
        SuggestionGroup.alone <|
          (listed min max line.current suggestionLimit).map fun n =>
            bounded.hint.accepted (text n)
    | _, _ => [[bounded.hint.freeInput line.current]]
  else []

/-- The reader of a numeric argument. -/
def reader (bounded : Bounded N) : Reader α :=
  .ofWord bounded.readWord bounded.suggest

end Bounded

end Number

end CommandGrammar
