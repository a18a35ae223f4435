/-
The nodes that a line reaches. The root is reached with the line as it
was given. A node *matches* the line it was reached with if its guard
accepts the context and its chain parses the line; each child of a
matching node is then reached with the line that is left, the node's own
text put in front of it.

`Reached` states that rule and nothing else. `visits` lists what is
reached, a node before its children and the children in the order of
their declaration, by following the tree downwards. The two agree
(`mem_visits`), and the list is in ascending order of paths
(`pairwise_visits`), so it is the only list with these members in this
order: what a walk gathers can be stated of the rule and proved of the
list.
-/
import CommandGrammar.Proofs.Context
import CommandGrammar.Tree.Walk
import Mathlib.Data.List.Lex
import Mathlib.Logic.Relation
import Mathlib.Order.Lattice.Nat

namespace CommandGrammar

open Relation (ReflTransGen)

namespace Tree

variable {m : Type → Type} {α : Type}

-- ========================================================= nodes of a tree

/-- Induction over a tree: what holds of a node whenever it holds of the
children holds of every tree. -/
theorem induction {P : Tree m α → Prop}
    (node : ∀ tree : Tree m α, (∀ child ∈ tree.children, P child) → P tree) :
    ∀ tree, P tree := by
  -- the recursor's other half is about lists of children
  refine @Tree.rec m α P (fun trees => ∀ child ∈ trees, P child) ?_ ?_ ?_
  · intro chain expansion handlers children below
    exact node ⟨chain, expansion, handlers, children⟩ below
  · intro child hchild
    cases hchild
  · intro tree rest first others child hchild
    rcases List.mem_cons.1 hchild with rfl | hchild
    · exact first
    · exact others child hchild

-- a path is followed one part after the other
theorem at?_append (tree : Tree m α) (path below : Path) :
    tree.at? (path ++ below) = (tree.at? path).bind fun node => node.at? below := by
  induction path generalizing tree with
  | nil => rfl
  | cons place rest ih =>
      simp only [List.cons_append, at?]
      cases tree.children[place]? with
      | none => rfl
      | some child => exact ih child

theorem at?_of_child {tree node child : Tree m α} {path : Path} {place : Nat}
    (hnode : tree.at? path = some node) (hchild : node.children[place]? = some child) :
    tree.at? (path ++ [place]) = some child := by
  rw [at?_append, hnode, Option.bind_some, at?, hchild]
  rfl

/-- A property of a node and of everything below it. -/
def Every (P : Tree m α → Prop) (tree : Tree m α) : Prop :=
  ∀ path node, tree.at? path = some node → P node

/-- It is a property of the node, and one of everything below for each
child. -/
theorem every_iff {P : Tree m α → Prop} {tree : Tree m α} :
    tree.Every P ↔ P tree ∧ ∀ child ∈ tree.children, child.Every P := by
  constructor
  · intro h
    refine ⟨h [] tree rfl, fun child hchild path node hnode => ?_⟩
    obtain ⟨place, hplace⟩ := List.mem_iff_getElem?.1 hchild
    refine h (place :: path) node ?_
    simp only [at?, hplace, Option.bind_some, hnode]
  · rintro ⟨here, below⟩ path node hnode
    cases path with
    | nil =>
        injection hnode with hnode
        exact hnode ▸ here
    | cons place path =>
        obtain ⟨child, hchild, hbelow⟩ := Option.bind_eq_some_iff.1 hnode
        exact below child (List.mem_of_getElem? hchild) path node hbelow

theorem Every.root {P : Tree m α → Prop} {tree : Tree m α} (h : tree.Every P) : P tree :=
  (every_iff.1 h).1

theorem Every.child {P : Tree m α → Prop} {tree child : Tree m α} (h : tree.Every P)
    (hchild : child ∈ tree.children) : child.Every P :=
  (every_iff.1 h).2 child hchild

theorem Every.below {P : Tree m α → Prop} {tree node : Tree m α} {path : Path} (h : tree.Every P)
    (hnode : tree.at? path = some node) : node.Every P := by
  intro deeper found hfound
  apply h (path ++ deeper)
  rw [at?_append, hnode, Option.bind_some, hfound]

theorem Every.imp {P Q : Tree m α → Prop} {tree : Tree m α} (h : tree.Every P)
    (himp : ∀ node, P node → Q node) : tree.Every Q :=
  fun path node hnode => himp node (h path node hnode)

-- ============================================================== matching

section Matching

variable [Monad m] (context : Context m)

/-- The handlers of a node that matching runs only read the context. -/
structure ReadsOnly (node : Tree m α) : Prop where
  /-- The guard does. -/
  guard : ∀ guard, node.handlers.guard = some guard → context.Reads guard
  /-- So does the fallback, whatever it is given. -/
  fallback : ∀ fallback, node.handlers.fallback = some fallback →
    ∀ pending, context.Reads (fallback pending)

/-- A node matches a line: its guard, if any, accepts the context, and
its chain, if any, parses the line. A node without a chain binds
nothing and leaves the line as it is. -/
structure Matches (node : Tree m α) (line : Line) (matched : Match α) : Prop where
  /-- The guard accepts the context. -/
  guard : ∀ guard, node.handlers.guard = some guard → context.ask guard = true
  /-- The chain parses the line. -/
  chain : ∀ chain, node.chain = some chain → chain.parse line = .ok matched
  /-- Without a chain nothing happens to the line. -/
  noChain : node.chain = none → matched = ⟨[], 0, line⟩

/-- What a node binds on a line if it matches. -/
def match? (node : Tree m α) (line : Line) : Option (Match α) :=
  if context.ask node.isOpen then
    match node.chain with
    | some chain => (chain.parse line).toOption
    | none => some ⟨[], 0, line⟩
  else none

/-- The line that a matching node hands to its children: what its chain
left, behind its own text. -/
def behind (node : Tree m α) (matched : Match α) : Line :=
  node.expansion.elim matched.rest matched.rest.insert

theorem ask_isOpen (node : Tree m α) :
    context.ask node.isOpen = true
      ↔ ∀ guard, node.handlers.guard = some guard → context.ask guard = true := by
  unfold isOpen
  cases node.handlers.guard with
  | none => simp [context.ask_pure]
  | some guard => simp

theorem match?_eq_some_iff {node : Tree m α} {line : Line} {matched : Match α} :
    node.match? context line = some matched ↔ Matches context node line matched := by
  unfold match?
  constructor
  · intro h
    split at h
    case isFalse => cases h
    case isTrue hopen =>
      refine ⟨(ask_isOpen context node).1 hopen, fun chain hchain => ?_, fun hchain => ?_⟩
      · rw [hchain] at h
        change (chain.parse line).toOption = some matched at h
        cases hparse : chain.parse line with
        | error shortfall => rw [hparse] at h; cases h
        | ok found =>
            rw [hparse] at h
            injection h with h
            rw [h]
      · rw [hchain] at h
        injection h with h
        exact h.symm
  · rintro ⟨hguard, hchain, hnone⟩
    rw [if_pos ((ask_isOpen context node).2 hguard)]
    cases h : node.chain with
    | none => rw [hnone h]
    | some chain =>
        show (chain.parse line).toOption = some matched
        rw [hchain chain h]
        rfl

theorem Matches.unique {node : Tree m α} {line : Line} {a b : Match α}
    (ha : node.Matches context line a) (hb : node.Matches context line b) : a = b := by
  have hboth := ((match?_eq_some_iff context).2 ha).symm.trans ((match?_eq_some_iff context).2 hb)
  injection hboth

end Matching

end Tree

-- ================================================================= visits

/-- A node that a line reaches. -/
structure Visit (m : Type → Type) (α : Type) where
  /-- The way to the node. -/
  path : Tree.Path
  /-- The node. -/
  node : Tree m α
  /-- The line that it is reached with. -/
  line : Line
  /-- What the nodes above it bound, one match a node. -/
  trail : List (Match α)

namespace Visit

variable {m : Type → Type} {α : Type}

/-- The visit of the root. -/
def start (tree : Tree m α) (line : Line) : Visit m α :=
  ⟨[], tree, line, []⟩

/-- The visit of a child behind a match. -/
def down (visit : Visit m α) (matched : Match α) (place : Nat) (child : Tree m α) : Visit m α :=
  ⟨visit.path ++ [place], child, visit.node.behind matched, visit.trail ++ [matched]⟩

variable [Monad m] (context : Context m)

/-- From a matching node the line goes on to each child. -/
inductive Step : Visit m α → Visit m α → Prop
  /-- The child at a place among the children. -/
  | down {visit : Visit m α} {matched : Match α} {place : Nat} {child : Tree m α} :
      visit.node.Matches context visit.line matched →
      visit.node.children[place]? = some child →
      Step visit (visit.down matched place child)

/-- The visits that matching a line against a tree makes. -/
def Reached (tree : Tree m α) (line : Line) (visit : Visit m α) : Prop :=
  ReflTransGen (Step context) (start tree line) visit

-- a node that does not match is where the line stops
theorem reached_iff_of_match?_eq_none {here visit : Visit m α}
    (h : here.node.match? context here.line = none) :
    ReflTransGen (Step context) here visit ↔ visit = here := by
  rw [Relation.ReflTransGen.cases_head_iff]
  constructor
  · rintro (hsame | ⟨next, hstep, -⟩)
    · exact hsame.symm
    · cases hstep with
      | down hmatch _ =>
          rw [(Tree.match?_eq_some_iff context).2 hmatch] at h
          cases h
  · exact fun hsame => Or.inl hsame.symm

-- from a matching one it goes on to what the children reach
theorem reached_iff_of_matches {here visit : Visit m α} {matched : Match α}
    (h : here.node.Matches context here.line matched) :
    ReflTransGen (Step context) here visit
      ↔ visit = here ∨ ∃ place child, here.node.children[place]? = some child
        ∧ ReflTransGen (Step context) (here.down matched place child) visit := by
  rw [Relation.ReflTransGen.cases_head_iff]
  constructor
  · rintro (hsame | ⟨next, hstep, hbelow⟩)
    · exact Or.inl hsame.symm
    · cases hstep with
      | @down other place child hmatch hchild =>
          obtain rfl := hmatch.unique context h
          exact Or.inr ⟨place, child, hchild, hbelow⟩
  · rintro (hsame | ⟨place, child, hchild, hbelow⟩)
    · exact Or.inl hsame.symm
    · exact Or.inr ⟨_, .down h hchild, hbelow⟩

/-- A node reached from another one is below it. -/
theorem path_prefix_of_reached {here visit : Visit m α}
    (h : ReflTransGen (Step context) here visit) : here.path <+: visit.path := by
  induction h with
  | refl => exact List.prefix_rfl
  | tail _ hstep ih =>
      cases hstep with
      | down _ _ => exact ih.trans (List.prefix_append _ _)

end Visit

namespace Tree

variable {m : Type → Type} {α : Type} [Monad m] (context : Context m)

mutual

/-- The visits of a node and of everything below it. -/
def visits (path : Path) (line : Line) (trail : List (Match α)) : Tree m α → List (Visit m α)
  | ⟨chain, expansion, handlers, children⟩ =>
      let tree : Tree m α := ⟨chain, expansion, handlers, children⟩
      ⟨path, tree, line, trail⟩ ::
        match tree.match? context line with
        | some matched => visitsAll path 0 (tree.behind matched) (trail ++ [matched]) children
        | none => []

/-- The visits of several children, the first of them at a place. -/
def visitsAll (path : Path) (place : Nat) (line : Line) (trail : List (Match α)) :
    List (Tree m α) → List (Visit m α)
  | [] => []
  | tree :: rest =>
      visits (path ++ [place]) line trail tree ++ visitsAll path (place + 1) line trail rest

end

/-- A node is visited before the nodes below it. -/
theorem visits_eq (path : Path) (line : Line) (trail : List (Match α)) (tree : Tree m α) :
    tree.visits context path line trail
      = ⟨path, tree, line, trail⟩ ::
        match tree.match? context line with
        | some matched =>
            visitsAll context path 0 (tree.behind matched) (trail ++ [matched]) tree.children
        | none => [] := by
  cases tree
  rw [visits]

/-- What children bring, whatever their places are. -/
theorem flatMap_eq_zipIdx {β γ : Type} (children : List γ) (f : γ → List β) :
    children.flatMap f = children.zipIdx.flatMap fun entry => f entry.1 := by
  conv_lhs => rw [← List.zipIdx_map_fst 0 children]
  rw [List.flatMap_map]

theorem visitsAll_eq (path : Path) (line : Line) (trail : List (Match α)) (trees : List (Tree m α))
    (first : Nat) :
    visitsAll context path first line trail trees
      = (trees.zipIdx first).flatMap fun entry =>
        entry.1.visits context (path ++ [entry.2]) line trail := by
  induction trees generalizing first with
  | nil => rfl
  | cons tree rest ih => rw [visitsAll, ih, List.zipIdx_cons, List.flatMap_cons]

/-- The list holds exactly what the rule reaches. -/
theorem mem_visits {visit : Visit m α} {tree : Tree m α} :
    ∀ {path : Path} {line : Line} {trail : List (Match α)},
      visit ∈ tree.visits context path line trail
        ↔ ReflTransGen (Visit.Step context) ⟨path, tree, line, trail⟩ visit := by
  induction tree using Tree.induction with
  | node tree ih =>
      intro path line trail
      rw [visits_eq, List.mem_cons]
      cases hmatch : tree.match? context line with
      | none =>
          rw [Visit.reached_iff_of_match?_eq_none context hmatch]
          exact or_iff_left List.not_mem_nil
      | some matched =>
          rw [Visit.reached_iff_of_matches context ((match?_eq_some_iff context).1 hmatch)]
          refine or_congr Iff.rfl ?_
          dsimp only
          rw [visitsAll_eq, List.mem_flatMap]
          constructor
          · rintro ⟨⟨child, place⟩, hentry, h⟩
            have hchild := List.mem_zipIdx_iff_getElem?.1 hentry
            exact ⟨place, child, hchild, (ih child (List.mem_of_getElem? hchild)).1 h⟩
          · rintro ⟨place, child, hchild, h⟩
            exact ⟨(child, place), List.mem_zipIdx_iff_getElem?.2 hchild,
              (ih child (List.mem_of_getElem? hchild)).2 h⟩

-- ========================================================= order of visits

-- of two paths that part, the one that takes the earlier place comes first
theorem Path.lt_of_parts {path a b : Path} {i j : Nat} (ha : path ++ [i] <+: a)
    (hb : path ++ [j] <+: b) (hlt : i < j) : a < b := by
  obtain ⟨a, rfl⟩ := ha
  obtain ⟨b, rfl⟩ := hb
  rw [List.append_assoc, List.append_assoc]
  exact List.append_left_lt (List.cons_lt_cons_iff.2 (Or.inl hlt))

theorem Path.lt_of_extends {path a : Path} {i : Nat} (ha : path ++ [i] <+: a) : path < a := by
  obtain ⟨a, rfl⟩ := ha
  have hlonger : path ++ [] < path ++ i :: a := List.append_left_lt (List.nil_lt_cons i a)
  rwa [List.append_nil, List.append_cons] at hlonger

/-- What a node brings, and then what its children bring at their places, is in
the order of paths if what each of them brings is. -/
theorem Path.pairwise_cons_flatMap {β γ : Type} {pathOf : β → Path} {here : β}
    {children : List γ} {below : γ × Nat → List β}
    (hpath : ∀ entry ∈ children.zipIdx, ∀ found ∈ below entry,
      pathOf here ++ [entry.2] <+: pathOf found)
    (heach : ∀ entry ∈ children.zipIdx, (below entry).Pairwise fun a b => pathOf a < pathOf b) :
    (here :: children.zipIdx.flatMap below).Pairwise fun a b => pathOf a < pathOf b := by
  refine List.pairwise_cons.2 ⟨fun found hfound => ?_, List.pairwise_flatMap.2 ⟨heach, ?_⟩⟩
  · obtain ⟨entry, hentry, hfound⟩ := List.mem_flatMap.1 hfound
    exact Path.lt_of_extends (hpath entry hentry found hfound)
  · have hplaces : (children.zipIdx.map Prod.snd).Pairwise (· < ·) := by
      rw [List.zipIdx_map_snd]
      exact List.pairwise_lt_range'
    refine (List.pairwise_map.1 hplaces).imp_of_mem fun ha hb hlt first hfirst second hsecond => ?_
    exact Path.lt_of_parts (hpath _ ha first hfirst) (hpath _ hb second hsecond) hlt

/-- A visit below a node extends the node's path. -/
theorem path_prefix_of_mem_visits {visit : Visit m α} {tree : Tree m α} {path : Path}
    {line : Line} {trail : List (Match α)} (h : visit ∈ tree.visits context path line trail) :
    path <+: visit.path :=
  Visit.path_prefix_of_reached context ((mem_visits context).1 h)

/-- Visits are in the order of their paths: a node before its children,
the children in the order of their declaration. -/
theorem pairwise_visits (tree : Tree m α) :
    ∀ (path : Path) (line : Line) (trail : List (Match α)),
      (tree.visits context path line trail).Pairwise fun a b => a.path < b.path := by
  induction tree using Tree.induction with
  | node tree ih =>
      intro path line trail
      rw [visits_eq]
      cases hmatch : tree.match? context line with
      | none => exact List.pairwise_singleton ..
      | some matched =>
          dsimp only
          rw [visitsAll_eq]
          apply Path.pairwise_cons_flatMap
          · exact fun entry _ visit hvisit => path_prefix_of_mem_visits context hvisit
          · exact fun entry hentry => ih entry.1 (List.fst_mem_of_mem_zipIdx hentry) _ _ _

end Tree

end CommandGrammar
