/-
Command trees. A node of a tree has a chain to match, handlers, a text
to put into the line behind what it matched, and children that go on
from there. A node without a chain only groups its children. Nodes are
named by paths: the places to take among the children, one after the
other, from the root.
-/
import CommandGrammar.Chain
import CommandGrammar.Outcome

namespace CommandGrammar

variable {m : Type → Type} {α : Type}

/-- What a fallback handler is given: the state at its node. -/
structure Pending (α : Type) where
  /-- The line, at the first word that no child accepts. -/
  line : Line
  /-- What was bound on the way to the node. -/
  bindings : List (Binding α)
  /-- The words consumed on the way. -/
  weight : Nat

/-- What an application attaches to a node. -/
structure Handlers (m : Type → Type) (α : Type) where
  /-- Executes a line that ends at the node. -/
  execute : Option (ExecuteHandler m α) := none
  /-- Is told of refusals at the node and below. -/
  report : Option (ReportHandler m) := none
  /-- Changes the suggestions found at the node and below. -/
  complete : Option (CompleteHandler m) := none
  /-- Takes over where no child accepts the next word. -/
  fallback : Option (Pending α → m (Outcome m α)) := none
  /-- Decides, at every match, whether the node may be entered. -/
  guard : Option (m Bool) := none

/-- A node with everything below it. -/
structure Tree (m : Type → Type) (α : Type) where
  /-- What the node matches. -/
  chain : Option (Chain α) := none
  /-- The text put into the line behind the match. -/
  expansion : Option String := none
  /-- What is attached to the node. -/
  handlers : Handlers m α := {}
  /-- The children, in the order of their declaration. -/
  children : List (Tree m α) := []

namespace Tree

instance : Inhabited (Tree m α) := ⟨{}⟩

/-- The node that matches a chain. -/
def ofChain (chain : Chain α) : Tree m α :=
  { chain := some chain }

/-- The node that matches a spec. -/
def ofSpec (registry : Registry α) (spec : String) : Except Spec.Defect (Tree m α) :=
  (Chain.ofSpec registry spec).map ofChain

/-- Whether a line may end at the node. -/
def isExecutable (tree : Tree m α) : Bool :=
  tree.handlers.execute.isSome

/-- The spec of the node's chain. -/
def chainText (tree : Tree m α) : Option String :=
  tree.chain.map Chain.text

-- ================================================================= paths

/-- The way from a node to one below it: the place to take among the
children, and so on. -/
abbrev Path : Type := List Nat

/-- The node at the end of a path. -/
def at? (tree : Tree m α) : Path → Option (Tree m α)
  | [] => some tree
  | place :: rest => (tree.children[place]?).bind fun child => child.at? rest

/-- The tree with the node at the end of a path changed, and what the
change answers; nothing if the path leads nowhere. -/
def alter? {β : Type} (change : Tree m α → Tree m α × β) (tree : Tree m α) :
    Path → Option (Tree m α × β)
  | [] => some (change tree)
  | place :: rest =>
      (tree.children[place]?).bind fun child =>
        (child.alter? change rest).map fun changed =>
          ({ tree with children := tree.children.set place changed.1 }, changed.2)

end Tree

end CommandGrammar
