/-
One-line records, the form in which a value is shown to whoever looks
for a fault: named fields in braces, lists in brackets, texts in quotes,
and an absent value by its own word. A record is data first; `render`
is the one place that knows the punctuation.
-/
namespace CommandGrammar.Text

/-- What a record is made of. -/
inductive Record where
  /-- A word or a number, written as it is. -/
  | word (text : String)
  /-- A text, written in double quotes. -/
  | quoted (text : String)
  /-- A list of records. -/
  | list (items : List Record)
  /-- A name with one record in parentheses. -/
  | call (name : String) (item : Record)
  /-- A name with named fields. -/
  | fields (name : String) (items : List (String × Record))

namespace Record

/-- A value that may be absent. -/
def option : Option Record → Record
  | some item => .call "Some" item
  | none => .word "None"

/-- A number. -/
def nat (n : Nat) : Record :=
  .word (toString n)

/-- A truth value. -/
def bool (b : Bool) : Record :=
  .word (if b then "true" else "false")

/-- A character within double quotes. The quote, the backslash and the
control characters are escaped. -/
def escapeChar (c : Char) : List Char :=
  if c = '"' ∨ c = '\\' then ['\\', c]
  else if c = '\n' then ['\\', 'n']
  else if c = '\r' then ['\\', 'r']
  else if c = '\t' then ['\\', 't']
  else if c.toNat = 0 then ['\\', '0']
  else if c.toNat < 0x20 ∨ c.toNat = 0x7F then
    '\\' :: 'u' :: '\x7b' :: Nat.toDigits 16 c.toNat ++ ['\x7d']
  else [c]

/-- A text in double quotes. -/
def quote (text : String) : String :=
  String.ofList ('"' :: text.toList.flatMap escapeChar ++ ['"'])

mutual

/-- The line of a record. -/
def render : Record → String
  | word text => text
  | quoted text => quote text
  | list items => "[" ++ ", ".intercalate (renderAll items) ++ "]"
  | call name item => name ++ "(" ++ render item ++ ")"
  | fields name items => name ++ " \x7b " ++ ", ".intercalate (renderFields items) ++ " \x7d"

/-- The lines of several records. -/
def renderAll : List Record → List String
  | [] => []
  | item :: rest => render item :: renderAll rest

/-- The lines of several fields. -/
def renderFields : List (String × Record) → List String
  | [] => []
  | (name, item) :: rest => (name ++ ": " ++ render item) :: renderFields rest

end

end Record

end CommandGrammar.Text
