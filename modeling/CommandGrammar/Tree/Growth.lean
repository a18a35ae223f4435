/-
Growing a tree. A path of single arguments, or a chain as a whole, is
added below a node; a child that was built from the same nodes is used
again, unless it puts text into the line, so that each spec leads to
one node. What exists is never changed, and what was added before a
defect was found stays.
-/
import CommandGrammar.Tree

namespace CommandGrammar.Tree

variable {m : Type → Type} {α : Type}

/-- Whether a node matches exactly a list of spec nodes and puts nothing
into the line. -/
def isFor (tree : Tree m α) (nodes : List Spec.Node) : Bool :=
  tree.expansion.isNone && tree.chain.any (·.nodes == nodes)

/-- The place of the first child to use again for a list of spec nodes. -/
def childFor? (tree : Tree m α) (nodes : List Spec.Node) : Option Nat :=
  tree.children.findIdx? (·.isFor nodes)

/-- The tree with one more child, and the place of the child. -/
def add (tree child : Tree m α) : Tree m α × Path :=
  ({ tree with children := tree.children ++ [child] }, [tree.children.length])

/-- Adds a path of nodes with one argument each, and leads to its end. -/
def extend (registry : Registry α) :
    List Spec.Node → Tree m α → Tree m α × Except Spec.Defect Path
  | [], tree => (tree, .ok [])
  | node :: rest, tree =>
      match (tree.childFor? [node]).bind fun place =>
          tree.children[place]?.map fun child => (place, child) with
      | some (place, child) =>
          let grown := extend registry rest child
          ({ tree with children := tree.children.set place grown.1 }, grown.2.map (place :: ·))
      | none =>
          match Chain.ofNodes registry [node] with
          | .error defect => (tree, .error defect)
          | .ok chain =>
              let grown := extend registry rest (ofChain chain)
              ({ tree with children := tree.children ++ [grown.1] },
                grown.2.map (tree.children.length :: ·))

/-- Adds a path with one argument for each node of a spec. -/
def create (registry : Registry α) (spec : String) (tree : Tree m α) :
    Tree m α × Except Spec.Defect Path :=
  match Spec.nodes spec with
  | [] => (tree, .error .emptySpec)
  | nodes => extend registry nodes tree

/-- Adds one child that matches the whole of a spec. -/
def createChain (registry : Registry α) (spec : String) (tree : Tree m α) :
    Tree m α × Except Spec.Defect Path :=
  match tree.childFor? (Spec.nodes spec) with
  | some place => (tree, .ok [place])
  | none =>
      match Chain.ofSpec registry spec with
      | .error defect => (tree, .error defect)
      | .ok chain => (tree.add (ofChain chain)).map id .ok

end CommandGrammar.Tree
