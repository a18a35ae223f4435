/-
Spec nodes and how they are written. A node is a name with parameters;
its written form is the name alone, or the name with its parameters in
parentheses, in key order. A value is quoted exactly when reading it
bare would lose it: when it is empty, has blanks at an end, or holds a
character that ends or quotes a value.
-/
import CommandGrammar.Spec.Parameters
import CommandGrammar.Text.Blank
import CommandGrammar.Text.Quoted

namespace CommandGrammar.Spec

open Text

/-- One element of a spec: a name such as `give`, `mike|milly` or
`@int`, and its parameters. -/
structure Node where
  /-- The name: words to accept, or `@` and the kind of an argument. -/
  name : String
  /-- What configures the node. -/
  parameters : Parameters := ∅
  deriving DecidableEq, Inhabited

namespace Node

/-- The node with one more parameter, or with that one replaced. -/
def set (node : Node) (key value : String) : Node :=
  { node with parameters := node.parameters.insert key value }

-- ======================================================= the written form

/-- The characters that a bare value must not hold. -/
def isReserved (c : Char) : Bool :=
  c == ',' || c == '(' || c == ')' || isSeparator c || isQuote c || c == '\\'

/-- Whether a value has to be quoted to be read back. -/
def needsQuotes (value : List Char) : Bool :=
  value.isEmpty || trim value != value || value.any isReserved

/-- A value as it is written: bare where that is safe. -/
def writeValue (value : List Char) : List Char :=
  if needsQuotes value then '\'' :: escape '\'' value ++ ['\''] else value

/-- One `key=value` pair as it is written. -/
def writeEntry (entry : String × String) : List Char :=
  entry.1.toList ++ '=' :: writeValue entry.2.toList

/-- The pairs between the parentheses, parted by commas. -/
def writeEntries (entries : List (String × String)) : List Char :=
  [','].intercalate (entries.map writeEntry)

/-- The characters of the written form. -/
def write (node : Node) : List Char :=
  if node.parameters.isEmpty then node.name.toList
  else node.name.toList ++ '(' :: writeEntries node.parameters.entries ++ [')']

/-- The written form of a node. -/
def text (node : Node) : String :=
  String.ofList node.write

end Node

end CommandGrammar.Spec
