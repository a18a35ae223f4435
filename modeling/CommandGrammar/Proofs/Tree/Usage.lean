/-
The usage of a grown tree says all that the tree executes: a tree that
has each line of the usage as one chain below its root executes the same
lines, with the same weights and arguments (`usage_executes`).

The lines of the usage are the routes of the tree in writing
(`usage_eq`), and what is read of such a line is the route itself again,
however many nodes of the tree it leads through. Added one after the
other, the lines of the usage make a tree with one child for each route,
those left out that were there before (`foldlM_declare`); and leaving out
what was there before does not change what is first among the heaviest.
-/
import CommandGrammar.Proofs.Tree.Growth
import CommandGrammar.Proofs.Tree.Routes
import CommandGrammar.Tree.Usage

namespace CommandGrammar

variable {m : Type → Type} {α : Type}

-- ================================================================= chains

/-- Nodes as they are read have a text. -/
theorem Spec.text_ne_empty {nodes : List Spec.Node} (hne : nodes ≠ [])
    (h : ∀ node ∈ nodes, node.WellFormed) : Spec.text nodes ≠ "" := by
  intro hempty
  have hnodes := Spec.nodes_text h
  have hnone : Spec.nodes "" = [] := by decide +kernel
  rw [hempty, hnone] at hnodes
  exact hne hnodes.symm

namespace Chain

variable {a b chain : Chain α}

namespace Settled

theorem wellFormed (h : chain.Settled) : ∀ node ∈ chain.nodes, node.WellFormed := by
  intro node hnode
  obtain ⟨argument, hargument, rfl⟩ := List.mem_map.1 hnode
  exact (h.arguments argument hargument).wellFormed

/-- What is written of the chain is read as its nodes. -/
theorem nodes_text (h : chain.Settled) : Spec.nodes chain.text = chain.nodes :=
  Spec.nodes_text h.wellFormed

theorem ofNodes_nodes (h : chain.Settled) : ofNodes .standard chain.nodes = .ok chain :=
  Chain.ofNodes_nodes h.nonempty fun argument hargument => (h.arguments argument hargument).built

/-- And it is the chain that is built of them. -/
theorem ofSpec_text (h : chain.Settled) : ofSpec .standard chain.text = .ok chain := by
  unfold ofSpec
  rw [h.nodes_text, h.ofNodes_nodes]

/-- Chains of the same nodes are the same. -/
theorem eq_of_nodes (ha : a.Settled) (hb : b.Settled) (h : a.nodes = b.nodes) : a = b := by
  have hboth := ha.ofNodes_nodes
  rw [h, hb.ofNodes_nodes] at hboth
  injection hboth with hboth
  exact hboth.symm

theorem text_ne_empty (h : chain.Settled) : chain.text ≠ "" :=
  Spec.text_ne_empty (fun hnil => h.nonempty (List.map_eq_nil_iff.1 hnil)) h.wellFormed

end Settled

theorem text_append (ha : a.arguments ≠ []) (hb : b.arguments ≠ []) :
    (a ++ b).text = a.text ++ " " ++ b.text := by
  unfold text nodes Spec.text
  rw [arguments_append, List.map_append, List.map_append]
  apply String.intercalate_append_of_ne_nil
  · simpa using ha
  · simpa using hb

-- ======================================================== the first heaviest

theorem heaviest_append (line : Line) (before behind : List (Chain α)) :
    heaviest line (before ++ behind)
      = Weighted.heavier (heaviest line before) (heaviest line behind) := by
  unfold heaviest
  rw [List.filterMap_append, Weighted.heaviest_append]

/-- A chain that was there before adds nothing. -/
theorem heavier_of_mem {chains : List (Chain α)} (h : chain ∈ chains) (line : Line) :
    Weighted.heavier (heaviest line chains) (heaviest line [chain]) = heaviest line chains := by
  have hsingle : heaviest line [chain] = chain.attempt line := by
    unfold heaviest
    rw [List.filterMap_cons]
    cases chain.attempt line <;> rfl
  rw [hsingle]
  cases hattempt : chain.attempt line with
  | none => exact Weighted.heavier_none_right _
  | some found => exact Weighted.heavier_of_mem (List.mem_filterMap.2 ⟨chain, h, hattempt⟩)

end Chain

namespace Tree

-- ============================================================ lines of usage

/-- The parts of a line of the usage make up the chain above a node. -/
structure Written (parts : List String) (above : Chain α) : Prop where
  /-- Joined by spaces, they are what is written of the chain. -/
  text : " ".intercalate parts = above.text
  /-- There are no parts exactly if there are no arguments. -/
  nil_iff : parts = [] ↔ above.arguments = []

theorem Written.append {parts : List String} {above own : Chain α} (h : Written parts above)
    (hown : own.arguments ≠ []) : Written (parts ++ [own.text]) (above ++ own) where
  text := by
    by_cases hnil : above.arguments = []
    · have habove : above ++ own = own := by
        show Chain.mk (above.arguments ++ own.arguments) = own
        rw [hnil, List.nil_append]
      rw [h.nil_iff.2 hnil, habove, List.nil_append, String.intercalate_singleton]
    · have hparts : parts ≠ [] := fun hempty => hnil (h.nil_iff.1 hempty)
      rw [String.intercalate_append_of_ne_nil hparts (List.cons_ne_nil _ _),
        String.intercalate_singleton, h.text, Chain.text_append hnil hown]
  nil_iff := by
    rw [Chain.arguments_append]
    simp [hown]

theorem usageFrom_eq (above : List String) (tree : Tree m α) :
    tree.usageFrom above
      = (if tree.isExecutable then [" ".intercalate (above ++ tree.usagePart)] else [])
        ++ usageAll (above ++ tree.usagePart) tree.children := by
  cases tree
  rw [usageFrom]

theorem usageAll_eq (above : List String) (trees : List (Tree m α)) :
    usageAll above trees = trees.flatMap (usageFrom above) := by
  induction trees with
  | nil => rfl
  | cons tree rest ih => rw [usageAll, List.flatMap_cons, ih]

theorem preorderAll_eq (depth : Nat) (trees : List (Tree m α)) :
    preorderAll depth trees = trees.flatMap (preorder depth) := by
  induction trees with
  | nil => rfl
  | cons tree rest ih => rw [preorderAll, List.flatMap_cons, ih]

/-- A node is listed before its children, and these one after the other. -/
theorem preorder_eq (depth : Nat) (tree : Tree m α) :
    tree.preorder depth = (depth, tree) :: tree.children.flatMap (preorder (depth + 1)) := by
  cases tree
  rw [preorder, preorderAll_eq]

/-- A property of all nodes listed is one of the whole tree. -/
theorem every_of_preorder {P : Tree m α → Prop} {tree : Tree m α} :
    ∀ depth : Nat, (∀ entry ∈ tree.preorder depth, P entry.2) → tree.Every P := by
  induction tree using Tree.induction with
  | node tree ih =>
      intro depth h
      rw [preorder_eq] at h
      obtain ⟨hroot, hbelow⟩ := List.forall_mem_cons.1 h
      refine every_iff.2 ⟨hroot, fun child hchild => ?_⟩
      refine ih child hchild (depth + 1) fun entry hentry => ?_
      exact hbelow entry (List.mem_flatMap.2 ⟨child, hchild, hentry⟩)

/-- Below planted nodes the usage is what is written of the routes. -/
theorem usageFrom_of_planted {tree : Tree m α} (h : tree.Every Planted) :
    ∀ {parts : List String} {above : Chain α}, Written parts above →
      tree.usageFrom parts = (tree.routes above).map Chain.text := by
  induction tree using Tree.induction with
  | node tree ih =>
      intro parts above hwritten
      obtain ⟨chain, hchain, hsettled⟩ := h.root.chain
      have hown : tree.own = chain := by
        unfold own
        rw [hchain]
        rfl
      have hpart : tree.usagePart = [chain.text] := by
        unfold usagePart chainText
        rw [hchain, Option.map_some, Option.filter_some, if_pos]
        · rfl
        · simpa using hsettled.text_ne_empty
      have hon := hwritten.append hsettled.nonempty
      have hchildren : tree.children.flatMap (usageFrom (parts ++ [chain.text]))
          = tree.children.flatMap fun child => (child.routes (above ++ chain)).map Chain.text :=
        List.flatMap_congr fun child hchild => ih child hchild (h.child hchild) hon
      rw [usageFrom_eq, routes_eq, hown, hpart, usageAll_eq, routesAll_eq, List.map_append,
        List.map_flatMap, hchildren, hon.text]
      congr 1
      split <;> rfl

section Rooted

variable {tree : Tree m α} (h : tree.Rooted)

include h

/-- The root adds nothing to the routes of its children. -/
theorem routes_of_rooted : tree.routes ⟨[]⟩ = tree.children.flatMap (routes ⟨[]⟩) := by
  have hown : tree.own = ⟨[]⟩ := by
    unfold own
    rw [h.chain]
    rfl
  rw [routes_eq, routesAll_eq, hown, isExecutable, h.handlers]
  rfl

/-- The usage of a grown tree is what is written of its routes. -/
theorem usage_eq : tree.usage = (tree.routes ⟨[]⟩).map Chain.text := by
  have hpart : tree.usagePart = [] := by
    unfold usagePart chainText
    rw [h.chain]
    rfl
  have hnone : Written [] (⟨[]⟩ : Chain α) := ⟨rfl, by simp⟩
  unfold usage
  rw [routes_of_rooted h, usageFrom_eq, usageAll_eq, hpart, isExecutable, h.handlers,
    List.map_flatMap]
  exact List.flatMap_congr fun child hchild => usageFrom_of_planted (h.below child hchild) hnone

/-- Its routes are chains as they are read from specs. -/
theorem settled_of_mem_routes {route : Chain α} (hroute : route ∈ tree.routes ⟨[]⟩) :
    route.Settled := by
  rw [routes_of_rooted h] at hroute
  obtain ⟨child, hchild, hroute⟩ := List.mem_flatMap.1 hroute
  have howns : child.Every fun node => node.own.Settled := by
    refine (h.below child hchild).imp fun node hnode => ?_
    obtain ⟨chain, hchain, hsettled⟩ := hnode.chain
    unfold own
    rwa [hchain]
  obtain ⟨more, rfl, hmore⟩ :=
    exists_of_mem_routes (howns.imp fun _ hown => hown.arguments) hroute
  refine ⟨List.append_ne_nil_of_left_ne_nil howns.root.nonempty _, fun argument hargument => ?_⟩
  rcases List.mem_append.1 hargument with hargument | hargument
  · exact howns.root.arguments argument hargument
  · exact hmore argument hargument

end Rooted

-- ================================================================= listing

/-- The node with a handler to execute. -/
def withExecute (handler : ExecuteHandler m α) (tree : Tree m α) : Tree m α :=
  { tree with handlers := { tree.handlers with execute := some handler } }

/-- The tree with a spec added as one chain, and a handler for it; nothing
if the spec is defective. -/
def declare (tree : Tree m α) (entry : String × ExecuteHandler m α) : Option (Tree m α) :=
  match tree.createChain .standard entry.1 with
  | (grown, .ok path) =>
      (grown.alter? (fun node => (node.withExecute entry.2, ())) path).map Prod.fst
  | (_, .error _) => none

/-- The tree with chains below its root, each with a handler. -/
def listing (entries : List (Chain α × ExecuteHandler m α)) : Tree m α :=
  { children := entries.map fun entry => (ofChain entry.1).withExecute entry.2 }

theorem routes_listing (entries : List (Chain α × ExecuteHandler m α)) :
    (listing entries).routes ⟨[]⟩ = entries.map Prod.fst := by
  have hleaf : ∀ entry : Chain α × ExecuteHandler m α,
      ((ofChain entry.1).withExecute entry.2).routes ⟨[]⟩ = [entry.1] := by
    intro entry
    rw [routes_eq]
    rfl
  rw [routes_eq, routesAll_eq]
  show (entries.map _).flatMap _ = _
  rw [List.flatMap_map, List.map_eq_flatMap]
  exact List.flatMap_congr fun entry _ => hleaf entry

theorem direct_listing {entries : List (Chain α × ExecuteHandler m α)}
    (h : ∀ chain ∈ entries.map Prod.fst, chain.Switchless) :
    (listing entries).Every Direct := by
  refine every_iff.2 ⟨⟨rfl, rfl, rfl, List.forall_mem_nil _⟩, fun child hchild => ?_⟩
  obtain ⟨entry, hentry, rfl⟩ := List.mem_map.1 hchild
  have hswitchless := h entry.1 (List.mem_map_of_mem hentry)
  exact every_iff.2 ⟨⟨rfl, rfl, rfl, hswitchless⟩, List.forall_mem_nil _⟩

theorem alter?_nil {β : Type} (change : Tree m α → Tree m α × β) (tree : Tree m α) :
    tree.alter? change [] = some (change tree) := rfl

theorem alter?_singleton {β : Type} (change : Tree m α → Tree m α × β) {tree child : Tree m α}
    {place : Nat} (h : tree.children[place]? = some child) :
    tree.alter? change [place]
      = some ({ tree with children := tree.children.set place (change child).1 },
          (change child).2) := by
  rw [alter?, h]
  rfl

/-- A line of the usage that is there is used again, and otherwise it is
added behind the others. -/
theorem declare_listing {chain : Chain α} (hchain : chain.Settled)
    (handler : ExecuteHandler m α) {entries : List (Chain α × ExecuteHandler m α)}
    (hentries : ∀ other ∈ entries.map Prod.fst, other.Settled) :
    ∃ more, declare (listing entries) (chain.text, handler) = some (listing more)
      ∧ (chain ∈ entries.map Prod.fst ∧ more.map Prod.fst = entries.map Prod.fst
        ∨ more.map Prod.fst = entries.map Prod.fst ++ [chain]) := by
  unfold declare createChain
  dsimp only
  rw [hchain.nodes_text]
  cases hplace : (listing entries).childFor? chain.nodes with
  | some place =>
      obtain ⟨hlt, hfor, -⟩ := List.findIdx?_eq_some_iff_getElem.1 hplace
      have hlt' : place < entries.length := by simpa [listing] using hlt
      have hchild : (listing entries).children[place]
          = (ofChain entries[place].1).withExecute entries[place].2 := List.getElem_map ..
      have hsame : entries[place].1 = chain := by
        refine Chain.Settled.eq_of_nodes (hentries _ ?_) hchain ?_
        · exact List.mem_map_of_mem (List.getElem_mem hlt')
        · rw [hchild] at hfor
          simpa [isFor, ofChain, withExecute] using hfor
      refine ⟨entries.set place (chain, handler), ?_, .inl ⟨?_, ?_⟩⟩
      · dsimp only
        rw [alter?_singleton _ (List.getElem?_eq_getElem hlt), hchild, hsame, listing, listing,
          List.map_set]
        rfl
      · exact hsame ▸ List.mem_map_of_mem (List.getElem_mem hlt')
      · have hbound : place < (entries.map Prod.fst).length := by simpa using hlt'
        have hmap : (entries.map Prod.fst)[place] = chain := by rw [List.getElem_map, hsame]
        rw [List.map_set, ← hmap, List.set_getElem_self]
  | none =>
      dsimp only
      rw [hchain.ofSpec_text]
      refine ⟨entries ++ [(chain, handler)], ?_, .inr (List.map_append ..)⟩
      have hlast : ((listing entries).children
          ++ [ofChain chain])[(listing entries).children.length]? = some (ofChain chain) :=
        List.getElem?_concat_length ..
      show Option.map Prod.fst (((listing entries).add (ofChain chain)).1.alter? _
        [(listing entries).children.length]) = _
      rw [alter?_singleton _ hlast, listing, listing, List.map_append]
      simp [add]

/-- The lines of the usage, added one after the other, make the tree of
the routes that they are written of; and what those find is not changed by
leaving out what was there before. -/
theorem foldlM_declare {routes : List (Chain α)} (hroutes : ∀ route ∈ routes, route.Settled) :
    ∀ {listed : List (Chain α × ExecuteHandler m α)} {entries : List (String × ExecuteHandler m α)},
      (∀ chain ∈ listed.map Prod.fst, chain.Settled) →
      entries.map Prod.fst = routes.map Chain.text →
      ∃ more, entries.foldlM declare (listing listed) = some (listing more)
        ∧ more.map Prod.fst ⊆ listed.map Prod.fst ++ routes
        ∧ ∀ line, Chain.heaviest line (more.map Prod.fst)
          = Weighted.heavier (Chain.heaviest line (listed.map Prod.fst))
              (Chain.heaviest line routes) := by
  induction routes with
  | nil =>
      intro listed entries _ hentries
      rw [List.map_nil, List.map_eq_nil_iff] at hentries
      subst hentries
      exact ⟨listed, rfl, by simp, fun line => (Weighted.heavier_none_right _).symm⟩
  | cons route rest ih =>
      intro listed entries hlisted hentries
      obtain ⟨hroute, hrest⟩ := List.forall_mem_cons.1 hroutes
      obtain ⟨⟨text, handler⟩, others, rfl, rfl, hothers⟩ := List.map_eq_cons_iff.1 hentries
      obtain ⟨next, hnext, hcases⟩ := declare_listing hroute handler hlisted
      have hsub : next.map Prod.fst ⊆ listed.map Prod.fst ++ [route] := by
        rcases hcases with ⟨-, heq⟩ | heq <;> rw [heq]
        · exact List.subset_append_left _ _
        · exact List.Subset.refl _
      have hheaviest : ∀ line, Chain.heaviest line (next.map Prod.fst)
          = Weighted.heavier (Chain.heaviest line (listed.map Prod.fst))
              (Chain.heaviest line [route]) := by
        intro line
        rcases hcases with ⟨hmem, heq⟩ | heq <;> rw [heq]
        · exact (Chain.heavier_of_mem hmem line).symm
        · exact Chain.heaviest_append line _ _
      have hsettled : ∀ chain ∈ next.map Prod.fst, chain.Settled := by
        intro chain hchain
        rcases List.mem_append.1 (hsub hchain) with hchain | hchain
        · exact hlisted chain hchain
        · rwa [List.mem_singleton.1 hchain]
      obtain ⟨more, hmore, hsubset, hfinds⟩ := ih hrest hsettled hothers
      refine ⟨more, ?_, ?_, fun line => ?_⟩
      · rw [List.foldlM_cons]
        show (declare (listing listed) (route.text, handler)).bind _ = _
        rw [hnext]
        exact hmore
      · rw [List.append_cons]
        refine List.Subset.trans hsubset (List.append_subset.2 ⟨?_, List.subset_append_right _ _⟩)
        exact List.Subset.trans hsub (List.subset_append_left _ _)
      · rw [hfinds, hheaviest, Weighted.heavier_assoc, ← Chain.heaviest_append,
          List.singleton_append]

-- ================================================================== the tree

/-- Without a switch in any spec, a grown tree leaves everything to the
words in their places. -/
theorem direct_of_rooted {tree : Tree m α} (h : tree.Rooted)
    (hswitch : tree.Every fun node => ∀ chain, node.chain = some chain →
      ∀ part ∈ chain.nodes, part.parameters.get? "switch" = none) : tree.Every Direct := by
  have hroot : tree.Direct := by
    refine ⟨h.expansion, ?_, ?_, ?_⟩
    · rw [h.handlers]
    · rw [h.handlers]
    · unfold own
      rw [h.chain]
      exact List.forall_mem_nil _
  refine every_iff.2 ⟨hroot, fun child hchild path node hnode => ?_⟩
  obtain ⟨⟨chain, hchain, hsettled⟩, hexpansion, hguard, hfallback⟩ :=
    h.below child hchild path node hnode
  refine ⟨hexpansion, hguard, hfallback, fun argument hargument => ?_⟩
  have hargument : argument ∈ chain.arguments := by
    unfold own at hargument
    rwa [hchain] at hargument
  rw [(Argument.eq_of_ofNode (hsettled.arguments argument hargument).built).2]
  exact hswitch.child hchild path node hnode chain hchain _ (List.mem_map_of_mem hargument)

/-- The lines of the usage of a grown tree without switches can all be
declared, and the tree that declares them, in their order, executes what
the tree executes: the same lines, each with the same weight and the same
arguments. -/
theorem usage_executes [Monad m] {tree : Tree m α} (hgrown : tree.Grown)
    (hswitch : tree.Every fun node => ∀ chain, node.chain = some chain →
      ∀ part ∈ chain.nodes, part.parameters.get? "switch" = none)
    {entries : List (String × ExecuteHandler m α)} (hentries : entries.map Prod.fst = tree.usage) :
    ∃ listed : Tree m α, entries.foldlM declare {} = some listed
      ∧ ∀ (context : Context m) (line : Line),
          let found := context.ask (tree.parse line)
          let again := context.ask (listed.parse line)
          (found.execution.isSome ↔ again.execution.isSome)
            ∧ found.execution.map (·.weight) = again.execution.map (·.weight)
            ∧ found.arguments = again.arguments := by
  have hrooted := rooted_of_grown hgrown
  have hdirect := direct_of_rooted hrooted hswitch
  have hroutes : ∀ route ∈ tree.routes ⟨[]⟩, route.Settled :=
    fun route hroute => settled_of_mem_routes hrooted hroute
  have hempty : ∀ chain ∈ ([] : List (Chain α × ExecuteHandler m α)).map Prod.fst, chain.Settled :=
    List.forall_mem_nil _
  rw [usage_eq hrooted] at hentries
  obtain ⟨more, hmore, hsubset, hfinds⟩ := foldlM_declare hroutes hempty hentries
  have hlisting : (listing more).Every Direct := by
    refine direct_listing fun chain hchain => ?_
    have hroute := hsubset hchain
    rw [List.map_nil, List.nil_append] at hroute
    exact switchless_of_mem_routes hdirect hroute
  refine ⟨listing more, hmore, fun context line => ?_⟩
  have hsame : (context.ask (tree.parse line)).execution.map Weighted.passed
      = (context.ask ((listing more).parse line)).execution.map Weighted.passed := by
    rw [execution_parse context hdirect, execution_parse context hlisting, routes_listing, hfinds]
    exact (Weighted.heavier_none_left _).symm
  refine ⟨?_, ?_, ?_⟩
  · rw [← Option.isSome_map, hsame, Option.isSome_map]
  · have hweight := congrArg (Option.map Weighted.weight) hsame
    rwa [Option.map_map, Option.map_map] at hweight
  · have hitem := congrArg (Option.map Weighted.item) hsame
    rwa [Option.map_map, Option.map_map] at hitem

/-- A handler that leaves everything as it is. -/
def trade : ExecuteHandler (ReaderM Unit) Unit :=
  fun _ => pure (.ok ())

/-- The tree with a handler at the end of a path, if the path leads to a
node. -/
def attachTrade (path : Path) (tree : Tree (ReaderM Unit) Unit) : Tree (ReaderM Unit) Unit :=
  ((tree.alter? (fun node => ({ node with handlers := { execute := some trade } }, ())) path).map
    Prod.fst).getD tree

theorem grown_attachTrade {tree : Tree (ReaderM Unit) Unit} (h : tree.Grown) (place : Nat)
    (rest : Path) : (attachTrade (place :: rest) tree).Grown := by
  unfold attachTrade
  cases halter : tree.alter? (fun node => ({ node with handlers := { execute := some trade } }, ()))
      (place :: rest) with
  | none => exact h
  | some changed => exact .attach h rfl rfl halter

/-- A command with a number that may be left out, added as a path with a
handler for each of its nodes, and once more as a chain. -/
def market : Tree (ReaderM Unit) Unit :=
  let path := attachTrade [0, 0]
    (attachTrade [0] (create .standard "sell @int(required=false)" {}).1)
  attachTrade [1] (createChain .standard "sell @int(required=false)" path).1

/-- The chain is a line of the usage that was there before, and the number
is bound alike. -/
theorem market_usage_executes :
    let context := Context.reader ()
    market.usage = ["sell", "sell @int(required=false)", "sell @int(required=false)"]
      ∧ ∃ listed : Tree (ReaderM Unit) Unit,
          (market.usage.map fun text => (text, trade)).foldlM declare {} = some listed
          ∧ listed.children.length = 2
          ∧ (∀ text : String,
              (context.ask (market.parse (.ofText text))).arguments
                = (context.ask (listed.parse (.ofText text))).arguments)
          ∧ (context.ask (market.parse (.ofText "sell 12"))).execution.map (·.weight)
            = (context.ask (listed.parse (.ofText "sell 12"))).execution.map (·.weight)
          ∧ (context.ask (market.parse (.ofText "sell 12"))).execution.map (·.weight) = some 2 := by
  intro context
  have hgrown : market.Grown := by
    have hroot : (create .standard "sell @int(required=false)"
        ({} : Tree (ReaderM Unit) Unit)).1.Grown := .create .root (alter?_nil _ _)
    have hpath := grown_attachTrade (grown_attachTrade hroot 0 []) 0 [0]
    exact grown_attachTrade (.createChain hpath (alter?_nil _ _)) 1 []
  have hown : ∀ entry ∈ market.nodes, ∀ part ∈ entry.2.own.nodes,
      part.parameters.get? "switch" = none := by
    decide +kernel
  have hswitch : market.Every fun node => ∀ chain, node.chain = some chain →
      ∀ part ∈ chain.nodes, part.parameters.get? "switch" = none := by
    refine every_of_preorder 0 fun entry hentry chain hchain part hpart => hown entry hentry part ?_
    unfold own
    rwa [hchain]
  have hentries : (market.usage.map fun text => (text, trade)).map Prod.fst = market.usage := by
    rw [List.map_map]
    exact List.map_id _
  obtain ⟨listed, hlisted, hsame⟩ := usage_executes hgrown hswitch hentries
  have htwo : ((market.usage.map fun text => (text, trade)).foldlM declare
      ({} : Tree (ReaderM Unit) Unit)).map (·.children.length) = some 2 := by decide +kernel
  rw [hlisted] at htwo
  exact ⟨by decide +kernel, listed, hlisted, Option.some.inj htwo,
    fun text => (hsame context _).2.2, (hsame context _).2.1, by decide +kernel⟩

end Tree

end CommandGrammar
