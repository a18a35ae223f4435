/-
Arguments: what a spec node stands for once it is built. Besides the
reader of its kind, an argument of any kind may be optional, may have a
text that stands in for missing words, may be checked without being
handed on, and may be given out of its place as a switch.
-/
import CommandGrammar.Argument.Registry

namespace CommandGrammar

/-- One argument of a chain. -/
structure Argument (α : Type) where
  /-- The node it was built from. -/
  node : Spec.Node
  /-- How it reads its words. -/
  reader : Reader α
  /-- Whether the end of the line refuses it. -/
  required : Bool
  /-- The text read in the stead of missing words. -/
  preset : Option String
  /-- Whether its value is checked but not handed on. -/
  suppressed : Bool
  /-- The name under which it is given as `-name value`. -/
  switch : Option String

namespace Argument

variable {α : Type}

/-- Reads a text of its own as a reader reads a line. -/
def readText (reader : Reader α) (text : String) : Except Refusal (Value α) :=
  (reader.read (.ofText text)).map Prod.fst

/-- The argument of a node. The text for missing words has to be
readable, whether it is ever used or not. -/
def ofNode (registry : Registry α) (node : Spec.Node) : Except Spec.Defect (Argument α) := do
  let reader ← registry.create node
  let argument : Argument α :=
    { node, reader
      required := node.parameters.flag "required" true
      preset := node.parameters.get? "default"
      suppressed := node.parameters.flag "suppress" false
      switch := node.parameters.get? "switch" }
  match argument.preset with
  | some text =>
      match readText reader text with
      | .ok _ => return argument
      | .error _ => throw (.invalidParameter node.name "default" text)
  | none => return argument

/-- What the argument binds where the line has no words for it. -/
def missing (argument : Argument α) : Except Refusal (Option (Value α)) :=
  if argument.required then .error .endOfInput
  else
    match argument.preset with
    | some text => (readText argument.reader text).map some
    | none => .ok none

end Argument

end CommandGrammar
