/-
Walking a line through a tree. Every node is reached with the line its
parent left and with what the parent hands down; it is entered if its
guard lets it be and its chain matches. All children of an entered node
are walked, whatever the others find, and the findings of the whole
walk are merged in the order of declaration.

A walk also says whether a node *accepted* words: whether its own chain
got further, or a child did. Words that no child accepts are refused at
the node, or left to its fallback.
-/
import CommandGrammar.Chain.Completion
import CommandGrammar.Chain.Match
import CommandGrammar.Tree

namespace CommandGrammar.Tree

variable {m : Type → Type} {α : Type}

-- ========================================================== one node

/-- What a node hands down to its children. -/
structure Standing (m : Type → Type) (α : Type) where
  /-- What was bound so far. -/
  bindings : List (Binding α) := []
  /-- The words consumed so far. -/
  weight : Nat := 0
  /-- The nearest handler for refusals. -/
  report : Option (ReportHandler m) := none
  /-- The nearest handler for suggestions. -/
  complete : Option (CompleteHandler m) := none

/-- The standing with a node's own handlers in front. -/
def Standing.under (standing : Standing m α) (handlers : Handlers m α) : Standing m α :=
  { standing with
    report := handlers.report <|> standing.report
    complete := handlers.complete <|> standing.complete }

/-- The standing behind a match. -/
def Standing.advance (standing : Standing m α) (matched : Match α) : Standing m α :=
  { standing with
    bindings := standing.bindings ++ matched.bindings
    weight := standing.weight + matched.consumed }

/-- How a node meets a line. -/
inductive Arrival (m : Type → Type) (α : Type) where
  /-- Its chain does not match; whether it consumed words all the same. -/
  | refused (outcome : Outcome m α) (accepted : Bool)
  /-- It is entered: the line for its children and what it hands down. -/
  | entered (outcome : Outcome m α) (line : Line) (standing : Standing m α)

/-- What the end of a line means at a node: the line can be executed, or
more is expected. Suggestions may be shown where the node has a handler
of its own for them or nothing below it. -/
def atEnd (tree : Tree m α) (line : Line) (standing : Standing m α) : Outcome m α :=
  (match tree.handlers.execute with
    | some handler => .ofExecution handler standing.bindings standing.weight
    | none => .ofRefusal .inputExpected standing.weight standing.report line.text)
  ++ if tree.handlers.complete.isSome || tree.children.isEmpty then
      .ofCompletion standing.complete standing.weight
    else ∅

/-- Enters a node behind its chain: its text is put into the line. -/
def enter (tree : Tree m α) (found : Outcome m α) (line : Line) (standing : Standing m α) :
    Arrival m α :=
  let line := tree.expansion.elim line line.insert
  .entered (if line.isEnd then found ++ tree.atEnd line standing else found) line standing

/-- Meets a node whose guard is open. -/
def arrive (tree : Tree m α) (line : Line) (standing : Standing m α) : Arrival m α :=
  let standing := standing.under tree.handlers
  match tree.chain with
  | none => tree.enter ∅ line standing
  | some chain =>
      let found : Outcome m α :=
        .ofSuggestions (chain.suggest line) standing.complete standing.weight
      match chain.parse line with
      | .ok matched => tree.enter found matched.rest (standing.advance matched)
      | .error shortfall =>
          .refused
            (found ++ .ofRefusal shortfall.refusal (standing.weight + shortfall.consumed)
              standing.report line.text)
            (0 < shortfall.consumed)

/-- What happens to words that no child accepted: the fallback takes
over, or the next word is refused. -/
def leftover [Monad m] (tree : Tree m α) (found : Outcome m α) (line : Line)
    (standing : Standing m α) (accepted : Bool) : m (Outcome m α × Bool) :=
  match tree.handlers.fallback with
  | some fallback =>
      if !line.isEnd || line.atCompletion then do
        let taken ← fallback ⟨line, standing.bindings, standing.weight⟩
        let taken := taken.offset standing.weight
        return (found ++ taken, accepted || taken.outweighs standing.weight)
      else return (found, accepted)
  | none =>
      if line.isEnd then return (found, accepted)
      else
        return (found ++ .ofRefusal (.unexpectedInput line.current) standing.weight
          standing.report line.text, accepted)

/-- Whether the guard of a node lets it be entered. -/
def isOpen [Monad m] (tree : Tree m α) : m Bool :=
  tree.handlers.guard.getD (pure true)

-- =========================================================== whole trees

mutual

/-- Walks a line through a node and everything below it: what was found,
and whether words were accepted. -/
def walk [Monad m] (line : Line) (standing : Standing m α) :
    Tree m α → m (Outcome m α × Bool)
  | ⟨chain, expansion, handlers, children⟩ => do
      let tree : Tree m α := ⟨chain, expansion, handlers, children⟩
      if ← tree.isOpen then
        match tree.arrive line standing with
        | .refused found accepted => return (found, accepted)
        | .entered found behind handed =>
            let below ← walkAll behind handed children
            if below.2 then return (found ++ below.1, true)
            else
              tree.leftover (found ++ below.1) behind handed
                (standing.weight < handed.weight)
      else return (∅, false)

/-- Walks a line through several nodes, one after the other. -/
def walkAll [Monad m] (line : Line) (standing : Standing m α) :
    List (Tree m α) → m (Outcome m α × Bool)
  | [] => return (∅, false)
  | tree :: rest => do
      let first ← walk line standing tree
      let others ← walkAll line standing rest
      return (first.1 ++ others.1, first.2 || others.2)

end

/-- Matches a line against a tree. -/
def parse [Monad m] (tree : Tree m α) (line : Line) : m (Outcome m α) := do
  let found ← tree.walk line {}
  return found.1

end CommandGrammar.Tree
