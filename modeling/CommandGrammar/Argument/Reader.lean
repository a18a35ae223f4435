/-
Readers: what an argument does with the words of a line. A reader takes
the words it needs from the front and binds a value, or refuses them, in
which case the line is where it was. Apart from that it can read a
single word that comes from elsewhere, the value of a switch, and it
can propose completions of the current word.
-/
import CommandGrammar.Line
import CommandGrammar.Suggestion
import CommandGrammar.Value

namespace CommandGrammar

/-- The behaviour of one argument. -/
structure Reader (α : Type) where
  /-- Reads a single word. -/
  readWord : String → Except Refusal (Value α)
  /-- Reads the words it needs from a line; the line behind them. -/
  read : Line → Except Refusal (Value α × Line)
  /-- Proposals for the current word of a line. There may be several
  groups, and none is a refusal. -/
  suggest : Line → List SuggestionGroup

/-- The reader that takes exactly one word. -/
def Reader.ofWord {α : Type} (readWord : String → Except Refusal (Value α))
    (suggest : Line → List SuggestionGroup) : Reader α where
  readWord
  suggest
  read line := do
    let (word, rest) ← line.next
    let value ← readWord word
    return (value, rest)

/-- A group on its own; no group at all if it is empty. -/
def SuggestionGroup.alone (group : SuggestionGroup) : List SuggestionGroup :=
  if group.isEmpty then [] else [group]

end CommandGrammar
