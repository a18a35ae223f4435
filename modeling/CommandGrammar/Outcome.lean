/-
Outcomes: what matching a line against a tree found. An outcome holds
the best way to execute the line, the best refusal that somebody wants
to be told of, the handler that may still change the suggestions, every
refusal and every group of suggestions. Merging two outcomes keeps the
heavier of the candidates, the first on ties, and strings the lists
together; recording a finding is merging an outcome that holds nothing
else.

Handlers run in a monad `m` of the application, which gives them
whatever they need to see or change.
-/
import CommandGrammar.Outcome.Weighted
import CommandGrammar.Refusal
import CommandGrammar.Suggestion
import CommandGrammar.Value

namespace CommandGrammar

open Text

variable {m : Type → Type} {α : Type}

-- ============================================================== handlers

/-- What a report handler is told. -/
structure Report where
  /-- The heaviest refusal at a node with a handler. -/
  refusal : Refusal
  /-- The words consumed before it. -/
  weight : Nat
  /-- The whole line, for display. -/
  input : String
  deriving DecidableEq

/-- Executes a command, or says why it cannot. -/
abbrev ExecuteHandler (m : Type → Type) (α : Type) : Type :=
  Arguments α → m (Except String Unit)

/-- Is told of a refusal where nothing can be executed. -/
abbrev ReportHandler (m : Type → Type) : Type :=
  Report → m (Except String Unit)

/-- Changes the suggestions gathered. -/
abbrev CompleteHandler (m : Type → Type) : Type :=
  List SuggestionGroup → m (List SuggestionGroup)

-- ============================================================== outcomes

/-- A handler with the arguments to execute it with. -/
structure Execution (m : Type → Type) (α : Type) where
  /-- The handler. -/
  handler : ExecuteHandler m α
  /-- Its arguments. -/
  arguments : Arguments α

/-- A handler with the refusal to tell it of. -/
structure Reporting (m : Type → Type) where
  /-- The handler. -/
  handler : ReportHandler m
  /-- The refusal. -/
  refusal : Refusal
  /-- The whole line. -/
  input : String

/-- What matching a line against a tree found. -/
structure Outcome (m : Type → Type) (α : Type) where
  /-- The heaviest match that can be executed. -/
  execution : Option (Weighted (Execution m α)) := none
  /-- The heaviest refusal with a handler. -/
  reporting : Option (Weighted (Reporting m)) := none
  /-- Present where suggestions may be shown, with the handler that
  changes them, if there is one. -/
  completion : Option (Weighted (Option (CompleteHandler m))) := none
  /-- Every refusal, in the order found. -/
  refusals : List (Weighted Refusal) := []
  /-- Every group of suggestions, in the order found. -/
  suggestions : List SuggestionGroup := []

namespace Outcome

/-- The outcome that found nothing. -/
instance : EmptyCollection (Outcome m α) := ⟨{ execution := none }⟩

instance : Inhabited (Outcome m α) := ⟨∅⟩

/-- The outcome of one way to execute a line. -/
def ofExecution (handler : ExecuteHandler m α) (bindings : List (Binding α)) (weight : Nat) :
    Outcome m α :=
  { execution := some ⟨weight, handler, .ofBindings bindings⟩ }

/-- The outcome of one refusal, which may have a handler. -/
def ofRefusal (refusal : Refusal) (weight : Nat) (handler : Option (ReportHandler m))
    (input : String) : Outcome m α :=
  { reporting := handler.map fun handler => ⟨weight, handler, refusal, input⟩
    refusals := [⟨weight, refusal⟩] }

/-- The outcome that lets suggestions be shown. -/
def ofCompletion (handler : Option (CompleteHandler m)) (weight : Nat) : Outcome m α :=
  { completion := some ⟨weight, handler⟩ }

/-- The outcome of groups of suggestions; no group changes nothing. -/
def ofSuggestions (groups : List SuggestionGroup) (handler : Option (CompleteHandler m))
    (weight : Nat) : Outcome m α :=
  if groups.isEmpty then ∅
  else { ofCompletion handler weight with suggestions := groups }

/-- The outcome of a refusal that no node made and nobody is told of. -/
def refused (refusal : Refusal) : Outcome m α :=
  { refusals := [⟨0, refusal⟩] }

/-- One outcome after another. -/
def merge (a b : Outcome m α) : Outcome m α where
  execution := Weighted.heavier a.execution b.execution
  reporting := Weighted.heavier a.reporting b.reporting
  completion := Weighted.heavier a.completion b.completion
  refusals := a.refusals ++ b.refusals
  suggestions := a.suggestions ++ b.suggestions

instance : Append (Outcome m α) := ⟨merge⟩

/-- The outcome with words consumed before all of its findings. -/
def offset (outcome : Outcome m α) (words : Nat) : Outcome m α where
  execution := outcome.execution.map (·.offset words)
  reporting := outcome.reporting.map (·.offset words)
  completion := outcome.completion.map (·.offset words)
  refusals := outcome.refusals.map (·.offset words)
  suggestions := outcome.suggestions

-- =============================================================== reading

/-- Whether there is a handler to call. -/
def canExecute (outcome : Outcome m α) : Bool :=
  outcome.execution.isSome || outcome.reporting.isSome

/-- The heaviest refusal, the first on ties. -/
def bestRefusal (outcome : Outcome m α) : Option (Weighted Refusal) :=
  Weighted.heaviest outcome.refusals

/-- The arguments that executing the line passes on. -/
def arguments (outcome : Outcome m α) : Option (Arguments α) :=
  outcome.execution.map (·.item.arguments)

/-- What a report handler is told. -/
def report (outcome : Outcome m α) : Option Report :=
  outcome.reporting.map fun found => ⟨found.item.refusal, found.weight, found.item.input⟩

/-- Whether the outcome holds an execution or a refusal heavier than a
weight. -/
def outweighs (outcome : Outcome m α) (weight : Nat) : Bool :=
  outcome.execution.any (weight < ·.weight) || outcome.refusals.any (weight < ·.weight)

/-- The record of an outcome: its weights and texts, without handlers. -/
def record (outcome : Outcome m α) : Record :=
  .fields "ParserTreeResult"
    [("execute_weight", .option (outcome.execution.map fun found => .nat found.weight)),
     ("arguments", .option (outcome.arguments.map Arguments.record)),
     ("error", .option (outcome.report.map fun report =>
        .fields "ErrorReport"
          [("error", report.refusal.record), ("weight", .nat report.weight),
           ("input", .quoted report.input)])),
     ("complete_weight", .option (outcome.completion.map fun found => .nat found.weight)),
     ("errors", .list (outcome.refusals.map fun found =>
        .fields "WeightedError" [("error", found.item.record), ("weight", .nat found.weight)])),
     ("completions", .list (outcome.suggestions.map SuggestionGroup.record))]

-- ================================================================ acting

/-- Why nothing was executed. -/
inductive Failure where
  /-- A handler was called and failed. -/
  | handler (message : String)
  /-- Nothing matches; the best refusal. -/
  | refused (cause : Refusal)
  /-- Nothing matches, and nothing was refused either. -/
  | notExecutable
  deriving DecidableEq

/-- The sentence shown for a failure. -/
def Failure.message : Failure → String
  | .handler message => message
  | .refused cause => cause.message
  | .notExecutable => "no handler accepted the input"

/-- A handler's answer as the answer of executing an outcome. -/
def ofHandler : Except String Unit → Except Failure Unit
  | .ok () => .ok ()
  | .error message => .error (.handler message)

/-- Calls the execute handler; without one the report handler; without
either the best refusal is the answer. -/
def execute [Monad m] (outcome : Outcome m α) : m (Except Failure Unit) :=
  match outcome.execution, outcome.reporting with
  | some found, _ => ofHandler <$> found.item.handler found.item.arguments
  | none, some found =>
      ofHandler <$> found.item.handler ⟨found.item.refusal, found.weight, found.item.input⟩
  | none, none =>
      match outcome.bestRefusal with
      | some best => pure (.error (.refused best.item))
      | none => pure (.error .notExecutable)

/-- The suggestions to show: those gathered, passed through the complete
handler if there is one; none where nothing lets them be shown. -/
def complete [Monad m] (outcome : Outcome m α) : m (List SuggestionGroup) :=
  match outcome.completion with
  | some ⟨_, some handler⟩ => handler outcome.suggestions
  | some ⟨_, none⟩ => pure outcome.suggestions
  | none => pure []

end Outcome

end CommandGrammar
