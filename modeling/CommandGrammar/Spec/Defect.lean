/-
Why nothing can be built from a spec.
-/
namespace CommandGrammar.Spec

/-- What is wrong with a spec from which a chain or a tree is built. -/
inductive Defect where
  /-- A node asks for an argument kind that nobody registered. -/
  | unknownKind (kind : String)
  /-- A parameter of a node has a value that it cannot have. -/
  | invalidParameter (node key value : String)
  /-- The spec has no node. -/
  | emptySpec
  deriving DecidableEq, Inhabited

/-- The sentence shown to whoever wrote the spec. -/
def Defect.message : Defect → String
  | .unknownKind kind => "unknown parser kind \"" ++ kind ++ "\""
  | .invalidParameter node key value =>
      "invalid value \"" ++ value ++ "\" for parameter \"" ++ key ++ "\" of \"" ++ node ++ "\""
  | .emptySpec => "empty parser spec"

end CommandGrammar.Spec
