/-
What the suggestions of an argument say about it: a key that tells the
argument from others, a description, and the placeholder shown where
there is nothing to choose from.
-/
import CommandGrammar.Spec.Node
import CommandGrammar.Suggestion

namespace CommandGrammar

/-- The parameters of a node that its suggestions show. -/
structure Hint where
  /-- The name of the switch, or else of the node. -/
  key : String
  /-- The help text. -/
  description : Option String
  /-- What to show for free input. -/
  placeholder : Option String
  deriving DecidableEq, Inhabited

namespace Hint

/-- The hint that a node's parameters give. -/
def ofNode (node : Spec.Node) : Hint where
  key := (node.parameters.get? "switch").getD node.name
  description := node.parameters.get? "description"
  placeholder := node.parameters.get? "placeholder"

/-- The title of free input: the placeholder, or the key in angle
brackets without the signs that mark a kind. -/
def title (hint : Hint) : String :=
  hint.placeholder.getD <|
    String.ofList ('<' :: hint.key.toList.dropWhile (· == '@') ++ ['>'])

/-- The suggestion that keeps what was typed and shows what to type. -/
def freeInput (hint : Hint) (typed : String) : Suggestion where
  value := typed
  title := hint.title
  description := hint.description
  key := hint.key

/-- The suggestion of a value that the argument accepts. -/
def accepted (hint : Hint) (value : String) : Suggestion where
  value
  description := hint.description
  key := hint.key

end Hint

end CommandGrammar
