/-
Weights. Several paths through a tree may match one line, and the one
that consumed the most words is to win; among equals the first found
does. So findings carry their weight, and `heavier` keeps the left of
two unless the right one is strictly heavier.
-/
namespace CommandGrammar

/-- A finding and the number of words consumed on the way to it. -/
structure Weighted (β : Type) where
  /-- The words consumed on the way. -/
  weight : Nat
  /-- What was found. -/
  item : β
  deriving DecidableEq

namespace Weighted

variable {β : Type}

/-- The finding with words consumed before it. -/
def offset (finding : Weighted β) (words : Nat) : Weighted β :=
  { finding with weight := finding.weight + words }

/-- The heavier of two findings that may be missing, the first on a tie. -/
def heavier : Option (Weighted β) → Option (Weighted β) → Option (Weighted β)
  | none, b => b
  | some a, none => some a
  | some a, some b => if a.weight < b.weight then some b else some a

/-- The first heaviest of a list of findings. -/
def heaviest (findings : List (Weighted β)) : Option (Weighted β) :=
  findings.foldl (fun best finding => heavier best (some finding)) none

end Weighted

end CommandGrammar
