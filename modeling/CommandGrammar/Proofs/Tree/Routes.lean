/-
Routes through a tree: for every node with a handler to execute, the
chains on the way to it as one chain. In a tree without guards,
fallbacks, texts of nodes and switches, a line is executed at a node
exactly if the route to the node matches the line to its end, with the
weight and the arguments of that match (`attempts_of_visits`): each visit
stands where the chains above its node have brought the line. What the
tree executes is then the first of the heaviest among its routes
(`execution_parse`), and the tree itself does not matter any more.
-/
import CommandGrammar.Proofs.Chain.Positional
import CommandGrammar.Proofs.Tree.Gather

namespace CommandGrammar

variable {m : Type → Type} {α : Type}

/-- An execution without its handler. -/
def Weighted.passed (found : Weighted (Execution m α)) : Weighted (Arguments α) :=
  ⟨found.weight, found.item.arguments⟩

-- ================================================================= chains

namespace Chain

theorem append_assoc (a b c : Chain α) : a ++ b ++ c = a ++ (b ++ c) :=
  congrArg mk (List.append_assoc a.arguments b.arguments c.arguments)

theorem append_nil (a : Chain α) : a ++ ⟨[]⟩ = a :=
  congrArg mk (List.append_nil a.arguments)

theorem parse_nil (line : Line) : (⟨[]⟩ : Chain α).parse line = .ok ⟨[], 0, line⟩ := by
  have hswitchless : (⟨[]⟩ : Chain α).Switchless := List.forall_mem_nil _
  rw [hswitchless.parse_eq]
  rfl

/-- What a chain by itself finds on a line, if it matches to the end. -/
def attempt (line : Line) (chain : Chain α) : Option (Weighted (Arguments α)) :=
  (chain.parse line).toOption.bind fun matched =>
    if matched.rest.isEnd then some ⟨matched.consumed, .ofBindings matched.bindings⟩ else none

/-- The first of the heaviest that several chains find. -/
def heaviest (line : Line) (chains : List (Chain α)) : Option (Weighted (Arguments α)) :=
  Weighted.heaviest (chains.filterMap (attempt line))

/-- What begins with a chain that does not match does not match. -/
theorem attempt_append_of_error {a b : Chain α} (ha : a.Switchless) (hb : b.Switchless)
    {line : Line} {shortfall : Shortfall} (h : a.parse line = .error shortfall) :
    (a ++ b).attempt line = none := by
  unfold attempt
  rw [parse_append ha hb, h]
  rfl

/-- A chain brings a line where a visit stands: it leaves the line of the
visit and binds and consumes what is on its trail. -/
structure Leads (above : Chain α) (start : Line) (trail : List (Match α)) (line : Line) : Prop where
  /-- Its arguments are bound in their places. -/
  switchless : above.Switchless
  /-- It matches. -/
  parse : above.parse start = .ok ⟨Visit.bindings trail, Visit.consumed trail, line⟩

variable {above own : Chain α} {start line : Line} {trail : List (Match α)}

/-- A chain that matches there leads on. -/
theorem Leads.append (h : Leads above start trail line) (hown : own.Switchless)
    {matched : Match α} (hparse : own.parse line = .ok matched) :
    Leads (above ++ own) start (trail ++ [matched]) matched.rest where
  switchless := h.switchless.append hown
  parse := by
    have hbindings : Visit.bindings (trail ++ [matched])
        = Visit.bindings trail ++ matched.bindings := by
      unfold Visit.bindings
      rw [List.flatMap_append, List.flatMap_singleton]
    have hconsumed : Visit.consumed (trail ++ [matched])
        = Visit.consumed trail + matched.consumed := by
      unfold Visit.consumed
      rw [List.map_append, List.sum_append]
      rfl
    rw [parse_append h.switchless hown, h.parse, hbindings, hconsumed]
    show ((own.parse line).map _).mapError _ = _
    rw [hparse]
    rfl

/-- A chain that does not match there leads nowhere. -/
theorem Leads.error (h : Leads above start trail line) (hown : own.Switchless)
    {shortfall : Shortfall} (hparse : own.parse line = .error shortfall) :
    ∃ farther, (above ++ own).parse start = .error farther := by
  refine ⟨shortfall.after (Visit.consumed trail), ?_⟩
  rw [parse_append h.switchless hown, h.parse]
  show ((own.parse line).map _).mapError _ = _
  rw [hparse]
  rfl

/-- What is found there is what the trail holds, at the end of the line. -/
theorem Leads.attempt_eq (h : Leads above start trail line) :
    above.attempt start
      = if line.isEnd then some ⟨Visit.consumed trail, .ofBindings (Visit.bindings trail)⟩
        else none := by
  unfold attempt
  rw [h.parse]
  rfl

end Chain

namespace Tree

-- ================================================================= routes

/-- The chain of a node, empty without one. -/
def own (tree : Tree m α) : Chain α :=
  tree.chain.getD ⟨[]⟩

mutual

/-- The routes to a node and to those below it, behind the chains above. -/
def routes (above : Chain α) : Tree m α → List (Chain α)
  | ⟨chain, expansion, handlers, children⟩ =>
      let tree : Tree m α := ⟨chain, expansion, handlers, children⟩
      (if tree.isExecutable then [above ++ tree.own] else [])
        ++ routesAll (above ++ tree.own) children

/-- The routes to several nodes and to those below them. -/
def routesAll (above : Chain α) : List (Tree m α) → List (Chain α)
  | [] => []
  | tree :: rest => routes above tree ++ routesAll above rest

end

theorem routes_eq (above : Chain α) (tree : Tree m α) :
    tree.routes above
      = (if tree.isExecutable then [above ++ tree.own] else [])
        ++ routesAll (above ++ tree.own) tree.children := by
  cases tree
  rw [routes]

theorem routesAll_eq (above : Chain α) (trees : List (Tree m α)) :
    routesAll above trees = trees.flatMap (routes above) := by
  induction trees with
  | nil => rfl
  | cons tree rest ih => rw [routesAll, List.flatMap_cons, ih]

/-- A route leads through the node, and then on through nodes below it. -/
theorem exists_of_mem_routes {P : Argument α → Prop} {tree : Tree m α}
    (h : tree.Every fun node => ∀ argument ∈ node.own.arguments, P argument) :
    ∀ {above route : Chain α}, route ∈ tree.routes above →
      ∃ more : Chain α, route = above ++ tree.own ++ more
        ∧ ∀ argument ∈ more.arguments, P argument := by
  induction tree using Tree.induction with
  | node tree ih =>
      intro above route hroute
      rw [routes_eq, routesAll_eq, List.mem_append] at hroute
      rcases hroute with hroute | hroute
      · refine ⟨⟨[]⟩, ?_, List.forall_mem_nil _⟩
        split at hroute
        · rw [Chain.append_nil, List.mem_singleton.1 hroute]
        · cases hroute
      · obtain ⟨child, hchild, hroute⟩ := List.mem_flatMap.1 hroute
        obtain ⟨more, rfl, hmore⟩ := ih child hchild (h.child hchild) hroute
        refine ⟨child.own ++ more, Chain.append_assoc _ _ _, fun argument hargument => ?_⟩
        rcases List.mem_append.1 hargument with hargument | hargument
        · exact (h.child hchild).root argument hargument
        · exact hmore argument hargument

-- ================================================================== visits

/-- A node where only words decide, each in its place. -/
structure Direct (node : Tree m α) : Prop where
  /-- It puts nothing into the line. -/
  expansion : node.expansion = none
  /-- It has no guard. -/
  guard : node.handlers.guard = none
  /-- It has no fallback. -/
  fallback : node.handlers.fallback = none
  /-- No argument of its chain is a switch. -/
  switchless : node.own.Switchless

theorem switchless_of_mem_routes {tree : Tree m α} (h : tree.Every Direct) {route : Chain α}
    (hroute : route ∈ tree.routes ⟨[]⟩) : route.Switchless := by
  obtain ⟨more, rfl, hmore⟩ :=
    exists_of_mem_routes (h.imp fun _ hnode => hnode.switchless) hroute
  have hnone : (⟨[]⟩ : Chain α).Switchless := List.forall_mem_nil _
  exact (hnone.append h.root.switchless).append hmore

section Visits

variable [Monad m] (context : Context m)

theorem match?_of_direct {node : Tree m α} (h : node.Direct) (line : Line) :
    node.match? context line = (node.own.parse line).toOption := by
  have hopen : context.ask node.isOpen = true := by
    unfold isOpen
    rw [h.guard]
    exact context.ask_pure true
  unfold match? own
  rw [if_pos hopen]
  cases node.chain with
  | none =>
      show _ = ((⟨[]⟩ : Chain α).parse line).toOption
      rw [Chain.parse_nil]
      rfl
  | some chain => rfl

/-- At a matching node, the route to it finds what its visit executes. -/
theorem attempts_of_visit {node : Tree m α} {above : Chain α} {start line : Line}
    {trail : List (Match α)} {matched : Match α} (path : Path)
    (hmatch : node.match? context line = some matched)
    (hbehind : node.behind matched = matched.rest)
    (hon : (above ++ node.own).Leads start (trail ++ [matched]) matched.rest) :
    (if node.isExecutable then [above ++ node.own] else []).filterMap (Chain.attempt start)
      = ((Visit.execution? context ⟨path, node, line, trail⟩).map Weighted.passed).toList := by
  unfold Visit.execution? isExecutable
  rw [hmatch, Option.bind_some, hbehind]
  cases node.handlers.execute <;> by_cases hend : matched.rest.isEnd = true <;>
    simp [hon.attempt_eq, hend, Weighted.passed]

/-- What the visits of a node and of those below it execute is what the
routes to them find. -/
theorem attempts_of_visits {tree : Tree m α} (h : tree.Every Direct) :
    ∀ {above : Chain α} {start line : Line} {trail : List (Match α)} (path : Path),
      above.Leads start trail line →
      ((tree.visits context path line trail).filterMap (Visit.execution? context)).map
          Weighted.passed
        = (tree.routes above).filterMap (Chain.attempt start) := by
  induction tree using Tree.induction with
  | node tree ih =>
      intro above start line trail path hleads
      have hmatch := match?_of_direct context h.root line
      rw [visits_eq]
      cases hparse : tree.own.parse line with
      | error shortfall =>
          rw [hparse] at hmatch
          change tree.match? context line = none at hmatch
          have hself : Visit.execution? context ⟨path, tree, line, trail⟩ = none := by
            rw [Visit.execution?, hmatch]
            rfl
          obtain ⟨farther, hnowhere⟩ := hleads.error h.root.switchless hparse
          have hroutes : ∀ route ∈ tree.routes above, route.attempt start = none := by
            intro route hroute
            obtain ⟨more, rfl, hmore⟩ :=
              exists_of_mem_routes (h.imp fun _ hnode => hnode.switchless) hroute
            exact Chain.attempt_append_of_error (hleads.switchless.append h.root.switchless) hmore
              hnowhere
          rw [hmatch, List.filterMap_cons_none hself, List.filterMap_eq_nil_iff.2 hroutes]
          rfl
      | ok matched =>
          rw [hparse] at hmatch
          change tree.match? context line = some matched at hmatch
          have hbehind : tree.behind matched = matched.rest := by
            rw [behind, h.root.expansion]
            rfl
          have hon := hleads.append h.root.switchless hparse
          have hchildren : ((visitsAll context path 0 matched.rest (trail ++ [matched])
                tree.children).filterMap (Visit.execution? context)).map Weighted.passed
              = (routesAll (above ++ tree.own) tree.children).filterMap (Chain.attempt start) := by
            rw [visitsAll_eq, routesAll_eq, flatMap_eq_zipIdx tree.children, List.filterMap_flatMap,
              List.filterMap_flatMap, List.map_flatMap]
            refine List.flatMap_congr fun entry hentry => ?_
            have hchild := List.fst_mem_of_mem_zipIdx hentry
            exact ih entry.1 hchild (h.child hchild) _ hon
          rw [hmatch]
          dsimp only
          rw [hbehind, routes_eq, List.filterMap_append,
            attempts_of_visit context path hmatch hbehind hon,
            ← hchildren, List.filterMap_cons]
          cases Visit.execution? context ⟨path, tree, line, trail⟩ <;> rfl

/-- What a tree executes is the first of the heaviest that its routes
find. -/
theorem execution_parse {tree : Tree m α} (h : tree.Every Direct) (line : Line) :
    (context.ask (tree.parse line)).execution.map Weighted.passed
      = Chain.heaviest line (tree.routes ⟨[]⟩) := by
  have hreads : tree.Every (ReadsOnly context) :=
    h.imp fun _ hnode => readsOnly_of_none context hnode.guard hnode.fallback
  have hgathered := gather_walk context hreads (h.imp fun _ hnode => hnode.fallback)
    [] line [] {} ⟨rfl, rfl⟩
  have hstart : Chain.Leads (⟨[]⟩ : Chain α) line [] line :=
    ⟨List.forall_mem_nil _, Chain.parse_nil line⟩
  rw [ask_parse context hreads, hgathered.execution, Visit.best, ← Weighted.heaviest_map,
    attempts_of_visits context h [] hstart]
  · rfl
  · exact fun _ _ => Iff.rfl

end Visits

end Tree

end CommandGrammar
