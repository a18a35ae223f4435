/-
The parameters of a spec node: texts by key. Keys are told apart by
case; what a value means is up to whoever reads it, and the one reading
that several readers share, a truth value, is here.
-/
import CommandGrammar.Dictionary

namespace CommandGrammar.Spec

/-- The `key=value` pairs of a node. -/
abbrev Parameters : Type := Dictionary String

/-- The truth value at a key: `true` in any mix of ASCII case is true,
every other text is false, and an absent key leaves the choice to the
caller. -/
def Parameters.flag (parameters : Parameters) (key : String) (absent : Bool) : Bool :=
  match parameters.get? key with
  | some value => value.toList.map Char.toLower == "true".toList
  | none => absent

end CommandGrammar.Spec
