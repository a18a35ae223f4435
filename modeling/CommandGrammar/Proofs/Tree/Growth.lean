/-
Grown trees: what an application can build of the empty tree by adding
paths and chains below any node and attaching handlers to the nodes it
added. Growing never changes a node that exists, so what holds of every
node when it is added holds of all nodes of the tree, except for the root,
which was never added (`rooted_of_grown`).

A change is described once by what it leaves as it was (`Grows`): adding
one child, replacing one, and the paths of both are instances, and the
change at the end of a path is carried up to the root by induction over
the path.
-/
import CommandGrammar.Proofs.Chain.Building
import CommandGrammar.Proofs.Spec.RoundTrip
import CommandGrammar.Proofs.Tree.Visit
import CommandGrammar.Tree.Growth

namespace CommandGrammar

variable {m : Type → Type} {α : Type}

-- ======================================================= chains of a tree

/-- An argument as it is read from a spec. -/
structure Argument.Settled (argument : Argument α) : Prop where
  /-- It is what its node stands for. -/
  built : Argument.ofNode .standard argument.node = .ok argument
  /-- Its node is read as it is written. -/
  wellFormed : argument.node.WellFormed

/-- A chain as it is read from a spec. -/
structure Chain.Settled (chain : Chain α) : Prop where
  /-- There is an argument. -/
  nonempty : chain.arguments ≠ []
  /-- All arguments are read from the spec. -/
  arguments : ∀ argument ∈ chain.arguments, argument.Settled

theorem Chain.settled_of_ofNodes {nodes : List Spec.Node} {chain : Chain α}
    (h : ofNodes .standard nodes = .ok chain) (hnodes : ∀ node ∈ nodes, node.WellFormed) :
    chain.Settled := by
  obtain ⟨hbuilt, hne⟩ := ofNodes_eq_ok_iff.1 h
  refine ⟨hne, fun argument hargument => ?_⟩
  obtain ⟨hnode, hself⟩ := Argument.ofNode_of_mem hbuilt hargument
  exact ⟨hself, hnodes _ hnode⟩

namespace Tree

-- ================================================================ growing

/-- A node as it is added to a growing tree. Handlers may be attached to
it, but none that takes a part in matching. -/
structure Planted (node : Tree m α) : Prop where
  /-- It has a chain, read from a spec. -/
  chain : ∃ chain, node.chain = some chain ∧ chain.Settled
  /-- It puts nothing into the line. -/
  expansion : node.expansion = none
  /-- It has no guard. -/
  guard : node.handlers.guard = none
  /-- It has no fallback. -/
  fallback : node.handlers.fallback = none

/-- The trees that are grown from the empty one. -/
inductive Grown : Tree m α → Prop
  /-- The empty tree. -/
  | root : Grown {}
  /-- A path of single arguments is added below a node, as far as it can be
  built. -/
  | create {tree grown : Tree m α} {path : Path} {spec : String}
      {result : Except Spec.Defect Path} : Grown tree →
      tree.alter? (create .standard spec) path = some (grown, result) → Grown grown
  /-- A chain is added below a node, if it can be built. -/
  | createChain {tree grown : Tree m α} {path : Path} {spec : String}
      {result : Except Spec.Defect Path} : Grown tree →
      tree.alter? (createChain .standard spec) path = some (grown, result) → Grown grown
  /-- Handlers are attached to a node below the root. -/
  | attach {tree grown : Tree m α} {place : Nat} {rest : Path} {handlers : Handlers m α} :
      Grown tree → handlers.guard = none → handlers.fallback = none →
      tree.alter? (fun node => ({ node with handlers }, ())) (place :: rest) = some (grown, ()) →
      Grown grown

/-- A property of everything below a node. -/
def Below (P : Tree m α → Prop) (tree : Tree m α) : Prop :=
  ∀ child ∈ tree.children, child.Every P

/-- A tree is changed below its root only, and what is added is planted. -/
structure Grows (tree grown : Tree m α) : Prop where
  /-- The chain stays. -/
  chain : grown.chain = tree.chain
  /-- The text stays. -/
  expansion : grown.expansion = tree.expansion
  /-- The handlers stay. -/
  handlers : grown.handlers = tree.handlers
  /-- If everything below was planted, it still is. -/
  below : tree.Below Planted → grown.Below Planted

namespace Grows

theorem refl (tree : Tree m α) : tree.Grows tree :=
  ⟨rfl, rfl, rfl, id⟩

theorem planted {tree grown : Tree m α} (h : tree.Grows grown) (htree : tree.Every Planted) :
    grown.Every Planted := by
  obtain ⟨hnode, hbelow⟩ := every_iff.1 htree
  refine every_iff.2 ⟨⟨?_, ?_, ?_, ?_⟩, h.below hbelow⟩
  · rw [h.chain]
    exact hnode.chain
  · rw [h.expansion, hnode.expansion]
  · rw [h.handlers, hnode.guard]
  · rw [h.handlers, hnode.fallback]

/-- A child takes the place of another one. -/
theorem set {tree child grown : Tree m α} {place : Nat}
    (hchild : tree.children[place]? = some child) (h : child.Every Planted → grown.Every Planted) :
    tree.Grows { tree with children := tree.children.set place grown } := by
  refine ⟨rfl, rfl, rfl, fun hbelow other hother => ?_⟩
  rcases List.mem_or_eq_of_mem_set hother with hother | rfl
  · exact hbelow other hother
  · exact h (hbelow child (List.mem_of_getElem? hchild))

/-- A child is added. -/
theorem add {child : Tree m α} (h : child.Every Planted) (tree : Tree m α) :
    tree.Grows { tree with children := tree.children ++ [child] } := by
  refine ⟨rfl, rfl, rfl, fun hbelow other hother => ?_⟩
  rcases List.mem_append.1 hother with hother | hother
  · exact hbelow other hother
  · rwa [List.mem_singleton.1 hother]

end Grows

theorem planted_ofChain {chain : Chain α} (h : chain.Settled) :
    (ofChain chain : Tree m α).Every Planted :=
  every_iff.2 ⟨⟨⟨chain, rfl, h⟩, rfl, rfl, rfl⟩, List.forall_mem_nil _⟩

theorem grows_extend {nodes : List Spec.Node} (h : ∀ node ∈ nodes, node.WellFormed) :
    ∀ tree : Tree m α, tree.Grows (extend .standard nodes tree).1 := by
  induction nodes with
  | nil => exact fun tree => .refl tree
  | cons node rest ih =>
      obtain ⟨hnode, hrest⟩ := List.forall_mem_cons.1 h
      intro tree
      unfold extend
      split
      · next place child hfound =>
        obtain ⟨_, -, hfound⟩ := Option.bind_eq_some_iff.1 hfound
        obtain ⟨_, hchild, hfound⟩ := Option.map_eq_some_iff.1 hfound
        cases hfound
        exact .set hchild (ih hrest child).planted
      · split
        · exact .refl tree
        · next chain hchain =>
          have hsettled : chain.Settled :=
            Chain.settled_of_ofNodes hchain (List.forall_mem_singleton.2 hnode)
          exact .add ((ih hrest (ofChain chain)).planted (planted_ofChain hsettled)) tree

theorem grows_create (spec : String) (tree : Tree m α) :
    tree.Grows (create .standard spec tree).1 := by
  unfold create
  split
  · exact .refl tree
  · exact grows_extend (Spec.wellFormed_of_mem_nodes spec) tree

theorem grows_createChain (spec : String) (tree : Tree m α) :
    tree.Grows (createChain .standard spec tree).1 := by
  unfold createChain
  split
  · exact .refl tree
  · split
    · exact .refl tree
    · next chain hchain =>
      have hsettled : chain.Settled :=
        Chain.settled_of_ofNodes hchain (Spec.wellFormed_of_mem_nodes spec)
      exact .add (planted_ofChain hsettled) tree

-- ============================================================== at a path

/-- A change at the end of a path below a node leaves the node itself, if
it keeps planted what is planted. -/
theorem grows_alter?_cons {β : Type} {change : Tree m α → Tree m α × β} {place : Nat}
    {rest : Path} {tree grown : Tree m α} {result : β}
    (h : ∀ {child below : Tree m α} {result : β}, child.alter? change rest = some (below, result) →
      child.Every Planted → below.Every Planted)
    (halter : tree.alter? change (place :: rest) = some (grown, result)) : tree.Grows grown := by
  obtain ⟨child, hchild, halter⟩ := Option.bind_eq_some_iff.1 halter
  obtain ⟨⟨below, found⟩, hbelow, halter⟩ := Option.map_eq_some_iff.1 halter
  injection halter with hgrown
  rw [← hgrown]
  exact .set hchild (h hbelow)

/-- If a change keeps a planted node planted, so does the change at the
end of a path. -/
theorem planted_alter? {β : Type} {change : Tree m α → Tree m α × β}
    (h : ∀ node : Tree m α, node.Every Planted → (change node).1.Every Planted) {path : Path} :
    ∀ {tree grown : Tree m α} {result : β}, tree.alter? change path = some (grown, result) →
      tree.Every Planted → grown.Every Planted := by
  induction path with
  | nil =>
      intro tree grown result halter
      injection halter with halter
      have hgrown : grown = (change tree).1 := by rw [halter]
      rw [hgrown]
      exact h tree
  | cons place rest ih => exact fun halter => (grows_alter?_cons ih halter).planted

/-- A change that leaves each node itself does so at the end of any path. -/
theorem grows_alter? {β : Type} {change : Tree m α → Tree m α × β}
    (h : ∀ node : Tree m α, node.Grows (change node).1) {path : Path} {tree grown : Tree m α}
    {result : β} (halter : tree.alter? change path = some (grown, result)) : tree.Grows grown := by
  cases path with
  | nil =>
      injection halter with halter
      have hgrown : grown = (change tree).1 := by rw [halter]
      rw [hgrown]
      exact h tree
  | cons place rest =>
      exact grows_alter?_cons (planted_alter? fun node => (h node).planted) halter

/-- What a grown tree is: an empty root, and planted nodes below it. -/
structure Rooted (tree : Tree m α) : Prop where
  /-- The root has no chain. -/
  chain : tree.chain = none
  /-- It puts nothing into the line. -/
  expansion : tree.expansion = none
  /-- It has no handlers. -/
  handlers : tree.handlers = {}
  /-- Everything below is planted. -/
  below : tree.Below Planted

theorem Rooted.grows {tree grown : Tree m α} (h : tree.Rooted) (hgrows : tree.Grows grown) :
    grown.Rooted where
  chain := hgrows.chain.trans h.chain
  expansion := hgrows.expansion.trans h.expansion
  handlers := hgrows.handlers.trans h.handlers
  below := hgrows.below h.below

theorem rooted_of_grown {tree : Tree m α} (h : tree.Grown) : tree.Rooted := by
  induction h with
  | root => exact ⟨rfl, rfl, rfl, List.forall_mem_nil _⟩
  | create _ halter ih => exact ih.grows (grows_alter? (grows_create _) halter)
  | createChain _ halter ih => exact ih.grows (grows_alter? (grows_createChain _) halter)
  | attach _ hguard hfallback halter ih =>
      refine ih.grows (grows_alter?_cons (planted_alter? fun node hnode => ?_) halter)
      obtain ⟨hroot, hbelow⟩ := every_iff.1 hnode
      exact every_iff.2 ⟨⟨hroot.chain, hroot.expansion, hguard, hfallback⟩, hbelow⟩

end Tree

end CommandGrammar
