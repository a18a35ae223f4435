/-
What is offered for the word being completed. The suggestions of one
argument at one place form a group; the groups of different arguments
are kept apart, so that they can be shown apart.
-/
import CommandGrammar.Text.Record

namespace CommandGrammar

open Text

/-- One proposal for the word being completed. -/
structure Suggestion where
  /-- The text that would take the word's place. -/
  value : String
  /-- What is shown: the value, or a hint such as `<amount>`. -/
  title : String := value
  /-- A help text. -/
  description : Option String := none
  /-- Which argument makes the proposal. -/
  key : String
  deriving DecidableEq, Inhabited

/-- The proposals of one argument, in its order. -/
abbrev SuggestionGroup : Type := List Suggestion

/-- The texts that a group proposes. -/
def SuggestionGroup.values (group : SuggestionGroup) : List String :=
  group.map Suggestion.value

/-- The record of a suggestion. -/
def Suggestion.record (suggestion : Suggestion) : Record :=
  .fields "CompletionCandidate"
    [("value", .quoted suggestion.value), ("title", .quoted suggestion.title),
     ("description", .option (suggestion.description.map .quoted)),
     ("key", .quoted suggestion.key)]

/-- The record of a group. -/
def SuggestionGroup.record (group : SuggestionGroup) : Record :=
  .fields "CompletionGroup" [("candidates", .list (group.map Suggestion.record))]

end CommandGrammar
