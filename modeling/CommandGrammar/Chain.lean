/-
Chains of arguments. A chain is built from the nodes of a spec, one
argument a node, and is written as those nodes are.
-/
import CommandGrammar.Argument
import CommandGrammar.Spec.Reader

namespace CommandGrammar

/-- Arguments that are read one after the other. -/
structure Chain (α : Type) where
  /-- The arguments in the order of the spec. -/
  arguments : List (Argument α)

namespace Chain

variable {α : Type}

/-- The chain of a list of nodes; there has to be at least one. -/
def ofNodes (registry : Registry α) (nodes : List Spec.Node) :
    Except Spec.Defect (Chain α) := do
  let arguments ← nodes.mapM (Argument.ofNode registry)
  if arguments.isEmpty then throw .emptySpec
  return ⟨arguments⟩

/-- The chain of a spec. -/
def ofSpec (registry : Registry α) (spec : String) : Except Spec.Defect (Chain α) :=
  ofNodes registry (Spec.nodes spec)

/-- The nodes that the chain was built from. -/
def nodes (chain : Chain α) : List Spec.Node :=
  chain.arguments.map Argument.node

/-- The spec of the chain. -/
def text (chain : Chain α) : String :=
  Spec.text chain.nodes

end Chain

end CommandGrammar
