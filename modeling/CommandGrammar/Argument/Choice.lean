/-
Text arguments. A choice takes one word: any word, or one of a list.
The list is the name of a literal node, such as `mike|milly`, or the
`options` parameter of a string.
-/
import CommandGrammar.Argument.Hint
import CommandGrammar.Argument.Reader
import CommandGrammar.Text.Alternatives

namespace CommandGrammar

open Text

/-- A text argument. -/
structure Choice where
  /-- The words accepted; without a list, every word is. -/
  options : Option (List String)
  /-- What its suggestions show. -/
  hint : Hint

namespace Choice

/-- The words between the bars of a text, empty ones left out. -/
def optionsOf (text : String) : List String :=
  ((alternatives text).filter (!·.isEmpty)).map String.ofList

/-- The choice among the words that a node's name lists. -/
def literal (node : Spec.Node) : Choice where
  options := some (optionsOf node.name)
  hint := .ofNode node

/-- The choice among the words of a node's `options`, if it has any. -/
def string (node : Spec.Node) : Choice where
  options := (node.parameters.get? "options").map optionsOf
  hint := .ofNode node

/-- Whether a word is accepted. -/
def accepts (choice : Choice) (word : String) : Bool :=
  match choice.options with
  | some options => options.contains word
  | none => true

variable {α : Type}

/-- Reads a word that is accepted. -/
def readWord (choice : Choice) (word : String) : Except Refusal (Value α) :=
  if choice.accepts word then .ok (.text word)
  else .error (.invalidOption word (choice.options.getD []))

/-- The listed words that begin with what was typed, or the placeholder
where every word is accepted. -/
def suggest (choice : Choice) (line : Line) : List SuggestionGroup :=
  match choice.options with
  | some options =>
      SuggestionGroup.alone <|
        (options.filter (begins · line.current)).map choice.hint.accepted
  | none => [[choice.hint.freeInput line.current]]

/-- The reader of a choice. -/
def reader (choice : Choice) : Reader α :=
  .ofWord choice.readWord choice.suggest

end Choice

end CommandGrammar
