/-
Values and bindings. An argument binds a value of one of the built-in
types, or a value of a type `α` that the application adds. What a chain
binds is a list of slots, one per argument; the slots that are not
suppressed are the arguments handed to whoever executes the command.
-/
import CommandGrammar.Decimal.Layout
import CommandGrammar.Text.Record

namespace CommandGrammar

open Decimal Text

/-- A value bound by an argument. -/
inductive Value (α : Type) where
  /-- Text, of words to accept and of free text. -/
  | text (text : String)
  /-- A whole number of 64 bits. -/
  | int (n : Int64)
  /-- A floating-point number of 32 bits. -/
  | float (x : Binary .single)
  /-- A floating-point number of 64 bits. -/
  | double (x : Binary .double)
  /-- A value of an added kind. -/
  | other (value : α)

namespace Value

variable {α : Type}

/-- Values are equal if they have one type and are worth the same; of
two values of an added kind their own equality decides. -/
instance [BEq α] : BEq (Value α) where
  beq
    | text a, text b => a == b
    | int a, int b => a == b
    | float a, float b => a.signed == b.signed
    | double a, double b => a.signed == b.signed
    | other a, other b => a == b
    | _, _ => false

/-- The text, if the value is one. -/
def text? : Value α → Option String
  | text s => some s
  | _ => none

/-- The whole number, if the value is one. -/
def int? : Value α → Option Int64
  | int n => some n
  | _ => none

/-- The number of 32 bits, if the value is one. -/
def float? : Value α → Option (Binary .single)
  | float x => some x
  | _ => none

/-- The number of 64 bits, if the value is one. -/
def double? : Value α → Option (Binary .double)
  | double x => some x
  | _ => none

/-- The number of 64 bits nearest to a value that is a number. -/
def toDouble? : Value α → Option (Binary .double)
  | int n => Binary.ofInt? .double n.toInt
  | float x => x.convert? .double
  | double x => some x
  | _ => none

/-- The record of a value. One of an added kind is not looked into. -/
def record : Value α → Record
  | text s => .call "String" (.quoted s)
  | int n => .call "Int" (.word (toString n.toInt))
  | float x => .call "Float" (.word x.recordText)
  | double x => .call "Double" (.word x.recordText)
  | other _ => .word "Other(..)"

end Value

/-- What one argument bound. A missing optional argument without a
default binds nothing. -/
structure Binding (α : Type) where
  /-- The value, if there is one. -/
  value : Option (Value α)
  /-- Whether the value was only checked and is not handed on. -/
  suppressed : Bool

/-- The slots handed to whoever executes a command, in order. -/
structure Arguments (α : Type) where
  /-- One slot per argument that is not suppressed. -/
  slots : List (Option (Value α))

namespace Arguments

variable {α : Type}

/-- The slots of bindings, without the suppressed ones. -/
def ofBindings (bindings : List (Binding α)) : Arguments α :=
  ⟨(bindings.filter (!·.suppressed)).map Binding.value⟩

/-- The record of the slots. -/
def record (arguments : Arguments α) : Record :=
  .fields "Arguments"
    [("values", .list (arguments.slots.map fun slot => .option (slot.map Value.record)))]

/-- The number of slots. -/
def size (arguments : Arguments α) : Nat :=
  arguments.slots.length

/-- Whether there is no slot. -/
def isEmpty (arguments : Arguments α) : Bool :=
  arguments.slots.isEmpty

/-- The value in a slot; nothing past the end or in an unset slot. -/
def get? (arguments : Arguments α) (i : Nat) : Option (Value α) :=
  arguments.slots[i]?.join

/-- The text in a slot. -/
def text? (arguments : Arguments α) (i : Nat) : Option String :=
  (arguments.get? i).bind Value.text?

/-- The whole number in a slot. -/
def int? (arguments : Arguments α) (i : Nat) : Option Int64 :=
  (arguments.get? i).bind Value.int?

/-- The number of 32 bits in a slot. -/
def float? (arguments : Arguments α) (i : Nat) : Option (Binary .single) :=
  (arguments.get? i).bind Value.float?

/-- The number of 64 bits in a slot. -/
def double? (arguments : Arguments α) (i : Nat) : Option (Binary .double) :=
  (arguments.get? i).bind Value.double?

end Arguments

end CommandGrammar
