/-
Completing a word with a chain. The word belongs to one argument of the
chain at most: to the switch whose flag stands before it, or to the
argument that is next when all words before it are read. Only that
argument is asked; if one before it refuses its words, nobody is. Where
an argument is asked by its place, or all arguments are read, the flags
not given yet are proposed as well.
-/
import CommandGrammar.Chain.Switch

namespace CommandGrammar

open Text

variable {α : Type}

namespace Chain

/-- The flag of a switch name. -/
def flagText (name : String) : String :=
  "-" ++ name

/-- The flags, not given yet, that begin with what was typed. They are
proposed for a word that is empty or begins with a minus sign. -/
def flagSuggestions (chain : Chain α) (given : List (Given α)) (typed : String) :
    SuggestionGroup :=
  if typed.isEmpty || begins typed "-" then
    chain.arguments.zipIdx.filterMap fun entry =>
      if given.any (·.place == entry.2) then none
      else
        entry.1.switch.bind fun name =>
          if begins (flagText name) typed then
            some { value := flagText name, key := name
                   description := entry.1.node.parameters.get? "description" }
          else none
  else []

/-- Asks the argument, among those that are not switches, that is next at
the word being completed. -/
def suggestAmong (flags : Line → SuggestionGroup) : Line → List (Argument α) → List SuggestionGroup
  | line, [] => if line.atCompletion then (flags line).alone else []
  | line, argument :: rest =>
      if line.atCompletion then argument.reader.suggest line ++ (flags line).alone
      else if line.isEnd then []
      else
        match argument.reader.read line with
        | .ok (_, behind) => suggestAmong flags behind rest
        | .error _ => []

/-- Proposals for the word being completed, if it lies ahead of the
cursor and belongs to the chain. -/
def suggest (chain : Chain α) (line : Line) : List SuggestionGroup :=
  match line.completion with
  | none => []
  | some typing =>
      if typing < line.index then []
      else
        let given := chain.given (some typing) line
        match given.find? (·.flag + 1 == typing) with
        | some switch => switch.argument.reader.suggest (line.moveTo typing)
        | none =>
            suggestAmong (fun line => chain.flagSuggestions given line.current)
              (withoutGiven given line)
              (chain.arguments.filter fun argument => argument.switch.isNone)

end Chain

end CommandGrammar
