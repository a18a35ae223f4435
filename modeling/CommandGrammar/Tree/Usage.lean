/-
Listing a tree: its nodes in the order of declaration, each before its
children, the specs of all lines that it can execute, and its record.
-/
import CommandGrammar.Tree

namespace CommandGrammar.Tree

variable {m : Type → Type} {α : Type}

mutual

/-- A node and everything below it, each with its depth, a node before
its children. -/
def preorder (depth : Nat) : Tree m α → List (Nat × Tree m α)
  | ⟨chain, expansion, handlers, children⟩ =>
      (depth, ⟨chain, expansion, handlers, children⟩) :: preorderAll (depth + 1) children

/-- Several nodes, one after the other. -/
def preorderAll (depth : Nat) : List (Tree m α) → List (Nat × Tree m α)
  | [] => []
  | tree :: rest => preorder depth tree ++ preorderAll depth rest

end

/-- All nodes with their depths. -/
def nodes (tree : Tree m α) : List (Nat × Tree m α) :=
  tree.preorder 0

/-- The spec of a node as a part of the specs below it; a node without
one takes no part. -/
def usagePart (tree : Tree m α) : List String :=
  (tree.chainText.filter (!·.isEmpty)).toList

mutual

/-- The specs of the lines that end at a node or below, behind the parts
above the node. -/
def usageFrom (above : List String) : Tree m α → List String
  | ⟨chain, expansion, handlers, children⟩ =>
      let tree : Tree m α := ⟨chain, expansion, handlers, children⟩
      let parts := above ++ tree.usagePart
      (if tree.isExecutable then [" ".intercalate parts] else []) ++ usageAll parts children

/-- The specs of the lines that end at several nodes or below. -/
def usageAll (above : List String) : List (Tree m α) → List String
  | [] => []
  | tree :: rest => usageFrom above tree ++ usageAll above rest

end

/-- The specs of all lines that can be executed. -/
def usage (tree : Tree m α) : List String :=
  tree.usageFrom []

-- =============================================================== records

mutual

/-- The record of a node and everything below it, without handlers. -/
def record : Tree m α → Text.Record
  | ⟨chain, expansion, handlers, children⟩ =>
      .fields "TreeNode"
        [("chain", .option (chain.map fun chain => .quoted chain.text)),
         ("expand", .option (expansion.map .quoted)),
         ("executable", .bool handlers.execute.isSome),
         ("children", .list (recordAll children))]

/-- The records of several nodes. -/
def recordAll : List (Tree m α) → List Text.Record
  | [] => []
  | tree :: rest => record tree :: recordAll rest

end

end CommandGrammar.Tree
