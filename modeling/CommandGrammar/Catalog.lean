/-
Catalogs: command trees by name. The first word of a line names the
command, by its primary name or by an alias, and the other words are
matched against the command's tree under that name.
-/
import CommandGrammar.Text.Alternatives
import CommandGrammar.Tree.Usage
import CommandGrammar.Tree.Walk

namespace CommandGrammar

open Text

variable {m : Type → Type} {α : Type}

/-- A command tree with its names, the primary one first. -/
structure Command (m : Type → Type) (α : Type) where
  /-- The names. -/
  names : List String
  /-- The tree. -/
  tree : Tree m α := {}

/-- Commands in the order of their registration. -/
structure Catalog (m : Type → Type) (α : Type) where
  /-- The commands. -/
  commands : List (Command m α) := []

namespace Catalog

/-- The names between the bars of a text, trimmed, empty ones left out. -/
def namesOf (text : String) : List String :=
  (((alternatives text).map trim).filter (!·.isEmpty)).map String.ofList

/-- Registers a command: the catalog, and the place of the command in
it. The first command that has one of the names is used again. -/
def register (catalog : Catalog m α) (names : String) : Catalog m α × Nat :=
  let names := namesOf names
  match catalog.commands.findIdx? fun command => command.names.any names.contains with
  | some place => (catalog, place)
  | none => (⟨catalog.commands ++ [{ names }]⟩, catalog.commands.length)

/-- The catalog with the tree of the command at a place changed. -/
def changeTree (catalog : Catalog m α) (place : Nat) (change : Tree m α → Tree m α) :
    Catalog m α :=
  ⟨catalog.commands.modify place fun command => { command with tree := change command.tree }⟩

/-- The tree of the command at a place. -/
def treeAt? (catalog : Catalog m α) (place : Nat) : Option (Tree m α) :=
  catalog.commands[place]?.map Command.tree

/-- The tree registered under a name. -/
def find? (catalog : Catalog m α) (name : String) : Option (Tree m α) :=
  (catalog.commands.find? (·.names.contains name)).map Command.tree

/-- The primary names. -/
def names (catalog : Catalog m α) : List String :=
  catalog.commands.filterMap (·.names.head?)

/-- The specs of all lines that can be executed, each behind the name of
its command. -/
def usage (catalog : Catalog m α) : List String :=
  catalog.commands.flatMap fun command =>
    command.tree.usage.map fun path =>
      if path.isEmpty then command.names.headD "" else command.names.headD "" ++ " " ++ path

-- ============================================================== matching

/-- Matches a typed line: its first word against the names, the others
against the tree found. -/
def parse [Monad m] (catalog : Catalog m α) (input : String) : m (Outcome m α) :=
  let line := Line.ofText input
  let name := line.current
  match catalog.find? name with
  | some tree =>
      tree.parse (((Line.ofWords line.ahead.tail).withLabel name).withTrailingSpace
        line.trailingSpace)
  | none => pure (.refused (.unknownCommand name))

/-- Executes a typed line. -/
def dispatch [Monad m] (catalog : Catalog m α) (input : String) :
    m (Except Outcome.Failure Unit) := do
  let outcome ← catalog.parse input
  outcome.execute

/-- Texts for the last word of a typed line: names while the first word
is being typed; after that what the command's tree proposes, each text
once and no empty one. -/
def suggest [Monad m] (catalog : Catalog m α) (input : String) : m (List String) := do
  let line := Line.ofText input
  if line.size ≤ 1 && !line.trailingSpace then
    return (catalog.commands.flatMap Command.names).filter (begins · line.current)
  else
    let outcome ← catalog.parse input
    let groups ← outcome.complete
    return ((groups.flatMap SuggestionGroup.values).filter (!·.isEmpty)).eraseDups

end Catalog

end CommandGrammar
