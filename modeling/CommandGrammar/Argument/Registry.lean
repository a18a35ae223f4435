/-
The kinds of arguments. A node whose name begins with an at sign asks
for the kind that follows the sign; every other node is a literal. Each
tree is built from a registry of its own, so trees with different kinds
live side by side.
-/
import CommandGrammar.Argument.Choice
import CommandGrammar.Argument.Fraction
import CommandGrammar.Argument.Integer
import CommandGrammar.Text.Record

namespace CommandGrammar

open Decimal

/-- Builds the reader of a node, or says what is wrong with the node. -/
abbrev Factory (α : Type) : Type := Spec.Node → Except Spec.Defect (Reader α)

/-- The argument kinds by name. -/
structure Registry (α : Type) where
  /-- The factory of each kind. -/
  kinds : Dictionary (Factory α)

namespace Registry

variable {α : Type}

/-- The registry without any kind, not even literals. -/
def empty : Registry α := ⟨∅⟩

/-- The registry with one more kind, or with that one replaced. -/
def register (registry : Registry α) (kind : String) (factory : Factory α) : Registry α :=
  ⟨registry.kinds.insert kind factory⟩

/-- Whether a kind is known. -/
def contains (registry : Registry α) (kind : String) : Bool :=
  registry.kinds.contains kind

/-- The reader of a numeric node. -/
def number (N : Type) [LT N] [DecidableLT N] [Number N] : Factory α := fun node => do
  let bounded ← Number.Bounded.ofNode N node
  return bounded.reader

/-- The registry of the built-in kinds. -/
def standard : Registry α :=
  empty
    |>.register "literal" (fun node => .ok (Choice.literal node).reader)
    |>.register "string" (fun node => .ok (Choice.string node).reader)
    |>.register "int" (number Int64)
    |>.register "integer" (number Int64)
    |>.register "long" (number Int64)
    |>.register "float" (number (Binary .single))
    |>.register "double" (number (Binary .double))

/-- The kind that a node asks for. -/
def kindOf (node : Spec.Node) : String :=
  match node.name.toList with
  | '@' :: kind => String.ofList kind
  | _ => "literal"

/-- The reader of a node. -/
def create (registry : Registry α) (node : Spec.Node) : Except Spec.Defect (Reader α) :=
  match registry.kinds.get? (kindOf node) with
  | some factory => factory node
  | none => .error (.unknownKind (kindOf node))

/-- The record of a registry: the kinds it knows. -/
def record (registry : Registry α) : Text.Record :=
  .fields "ParserRegistry" [("kinds", .list (registry.kinds.keys.map .quoted))]

end Registry

end CommandGrammar
