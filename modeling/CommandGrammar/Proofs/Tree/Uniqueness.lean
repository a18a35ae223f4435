/-
One child for each spec. Paths and whole chains are added to a tree by the same
rule: a child that was built from the same nodes is used again, and only where there
is none a child is added. So in a tree that was made of the empty one by such
additions, and by attaching handlers, no node has two children built from equal
nodes, whichever way and in whatever order these were added, and however many
additions failed on their way (`unambiguous_becomes`).

Then the nodes of a spec lead one way from a node, if they lead anywhere
(`Follows.unique`). An addition answers with that way, and since no later one takes
a child away, the same nodes lead there ever after, and adding them once more adds
nothing (`additions_unique`).
-/
import CommandGrammar.Proofs.Tree.Creation

namespace CommandGrammar.Tree

variable {m : Type → Type} {α : Type}

-- ============================================================ equal children

/-- The nodes that the chain of a node was built from. -/
def builtFrom (tree : Tree m α) : Option (List Spec.Node) :=
  tree.chain.map Chain.nodes

theorem isFor_iff {tree : Tree m α} {nodes : List Spec.Node} :
    tree.isFor nodes = true ↔ tree.expansion = none ∧ tree.builtFrom = some nodes := by
  unfold isFor builtFrom
  cases tree.chain with
  | none => simp
  | some chain => simp

/-- A list of nodes leads to one child at most. -/
structure Unambiguous (node : Tree m α) : Prop where
  /-- No child puts a text into the line. -/
  plain : ∀ child ∈ node.children, child.expansion = none
  /-- No two children were built from the same nodes. -/
  distinct : (node.children.map builtFrom).Nodup

namespace Unambiguous

variable {node child : Tree m α} {nodes : List Spec.Node} {place : Nat}

theorem place_eq (h : node.Unambiguous) {other : Nat} {sibling : Tree m α}
    (hchild : node.children[place]? = some child)
    (hsibling : node.children[other]? = some sibling)
    (hbuilt : child.builtFrom = sibling.builtFrom) : place = other := by
  apply (List.getElem?_inj ?_ h.distinct).1
  · rw [List.getElem?_map, List.getElem?_map, hchild, hsibling]
    exact congrArg some hbuilt
  · rw [List.length_map]
    exact (List.getElem?_eq_some_iff.1 hchild).1

/-- The child that was built from the nodes is the one to use again. -/
theorem childFor?_eq (h : node.Unambiguous) (hchild : node.children[place]? = some child)
    (hbuilt : child.builtFrom = some nodes) : node.childFor? nodes = some place := by
  obtain ⟨hlt, hget⟩ := List.getElem?_eq_some_iff.1 hchild
  refine List.findIdx?_eq_some_iff_getElem.2 ⟨hlt, ?_, fun other hother => ?_⟩
  · rw [hget]
    exact isFor_iff.2 ⟨h.plain child (List.mem_of_getElem? hchild), hbuilt⟩
  · intro hfor
    have hsame := h.place_eq hchild (List.getElem?_eq_getElem (Nat.lt_trans hother hlt))
      (hbuilt.trans (isFor_iff.1 hfor).2.symm)
    omega

theorem add (h : node.Unambiguous) (hnone : node.childFor? nodes = none)
    (hplain : child.expansion = none) (hbuilt : child.builtFrom = some nodes) :
    Unambiguous { node with children := node.children ++ [child] } where
  plain other hother := by
    rcases List.mem_append.1 hother with hother | hother
    · exact h.plain other hother
    · rwa [List.mem_singleton.1 hother]
  distinct := by
    rw [List.map_append, List.map_singleton, hbuilt]
    refine List.nodup_append.2 ⟨h.distinct, List.nodup_singleton _, ?_⟩
    intro old hold new hnew hsame
    obtain ⟨sibling, hsibling, rfl⟩ := List.mem_map.1 hold
    have hfor : sibling.isFor nodes = true :=
      isFor_iff.2 ⟨h.plain sibling hsibling, hsame.trans (List.mem_singleton.1 hnew)⟩
    have hnever := List.findIdx?_eq_none_iff.1 hnone sibling hsibling
    rw [hfor] at hnever
    cases hnever

/-- What grows below a child is not looked at. -/
theorem set (h : node.Unambiguous) (hchild : node.children[place]? = some child)
    {grown : Tree m α} (hchain : grown.chain = child.chain)
    (hexpansion : grown.expansion = child.expansion) :
    Unambiguous { node with children := node.children.set place grown } where
  plain other hother := by
    rcases List.mem_or_eq_of_mem_set hother with hother | rfl
    · exact h.plain other hother
    · rw [hexpansion]
      exact h.plain child (List.mem_of_getElem? hchild)
  distinct := by
    obtain ⟨hlt, hget⟩ := List.getElem?_eq_some_iff.1 hchild
    have hplace : place < (node.children.map builtFrom).length := by rwa [List.length_map]
    have hbuilt : grown.builtFrom = (node.children.map builtFrom)[place] := by
      rw [List.getElem_map, hget, builtFrom, hchain]
      rfl
    have hsame : (node.children.set place grown).map builtFrom = node.children.map builtFrom := by
      rw [List.map_set, hbuilt, List.set_getElem_self hplace]
    exact hsame ▸ h.distinct

end Unambiguous

/-- A child that is built where there is none to use again leaves the whole tree
unambiguous. -/
theorem unambiguous_add_ofChain {registry : Registry α} {nodes : List Spec.Node}
    {tree : Tree m α} {chain : Chain α} (htree : tree.Every Unambiguous)
    (hnone : tree.childFor? nodes = none) (hchain : Chain.ofNodes registry nodes = .ok chain) :
    Every Unambiguous { tree with children := tree.children ++ [ofChain chain] } := by
  obtain ⟨hroot, hchildren⟩ := every_iff.1 htree
  have hbuilt : (ofChain chain : Tree m α).builtFrom = some nodes :=
    congrArg some (Chain.nodes_of_ofNodes hchain)
  refine every_iff.2 ⟨hroot.add hnone rfl hbuilt, fun other hother => ?_⟩
  rcases List.mem_append.1 hother with hother | hother
  · exact hchildren other hother
  · rw [List.mem_singleton.1 hother]
    exact every_iff.2 ⟨⟨List.forall_mem_nil _, List.nodup_nil⟩, List.forall_mem_nil _⟩

/-- A node that is put in the place of one with the same chain and the same text
leaves the nodes above unambiguous. -/
theorem unambiguous_put {path : Path} {grown : Tree m α} (hgrown : grown.Every Unambiguous) :
    ∀ {tree node : Tree m α}, tree.at? path = some node → grown.chain = node.chain →
      grown.expansion = node.expansion → tree.Every Unambiguous →
      (tree.put path grown).Every Unambiguous := by
  induction path with
  | nil => exact fun _ _ _ _ => hgrown
  | cons place rest ih =>
      intro tree node hnode hchain hexpansion htree
      obtain ⟨child, hchild, hbelow⟩ := Option.bind_eq_some_iff.1 hnode
      obtain ⟨hroot, hchildren⟩ := every_iff.1 htree
      have hput := ih hbelow hchain hexpansion (hchildren child (List.mem_of_getElem? hchild))
      have hhead : (child.put rest grown).chain = child.chain
          ∧ (child.put rest grown).expansion = child.expansion := by
        cases rest with
        | nil =>
            obtain rfl := Option.some.inj hbelow
            exact ⟨hchain, hexpansion⟩
        | cons first others =>
            obtain ⟨below, hfirst, -⟩ := Option.bind_eq_some_iff.1 hbelow
            rw [put_cons hfirst]
            exact ⟨rfl, rfl⟩
      rw [put_cons hchild]
      refine every_iff.2 ⟨hroot.set hchild hhead.1 hhead.2, fun other hother => ?_⟩
      rcases List.mem_or_eq_of_mem_set hother with hother | rfl
      · exact hchildren other hother
      · exact hput

-- ================================================================ following

/-- A path along children that were built from lists of nodes, one list after the
other. -/
inductive Follows : List (List Spec.Node) → Tree m α → Path → Prop
  /-- No list leads nowhere else. -/
  | here (tree : Tree m α) : Follows [] tree []
  /-- The first list leads to a child, and the others on from there. -/
  | step {nodes : List Spec.Node} {rest : List (List Spec.Node)} {tree child : Tree m α}
      {place : Nat} {path : Path} : tree.children[place]? = some child →
      child.builtFrom = some nodes → Follows rest child path →
      Follows (nodes :: rest) tree (place :: path)

/-- There is one way to follow at most. -/
theorem Follows.unique {steps : List (List Spec.Node)} {tree : Tree m α} {path : Path}
    (h : Follows steps tree path) :
    tree.Every Unambiguous → ∀ {other : Path}, Follows steps tree other → other = path := by
  induction h with
  | here tree =>
      intro _ other hother
      cases hother
      rfl
  | @step nodes rest tree child place path hchild hbuilt _ ih =>
      intro htree other hother
      cases hother with
      | @step _ _ _ sibling elsewhere _ hsibling hbuilt' hfollows =>
          obtain rfl : elsewhere = place :=
            htree.root.place_eq hsibling hchild (hbuilt'.trans hbuilt.symm)
          obtain rfl : sibling = child := Option.some.inj (hsibling.symm.trans hchild)
          rw [ih (htree.child (List.mem_of_getElem? hchild)) hfollows]

/-- Every node of a tree is in another one, at the same place, with the same chain. -/
def Keeps (tree later : Tree m α) : Prop :=
  ∀ path node, tree.at? path = some node →
    ∃ kept, later.at? path = some kept ∧ kept.chain = node.chain

namespace Keeps

theorem refl (tree : Tree m α) : tree.Keeps tree :=
  fun _ node hnode => ⟨node, hnode, rfl⟩

theorem trans {a b c : Tree m α} (hab : a.Keeps b) (hbc : b.Keeps c) : a.Keeps c := by
  intro path node hnode
  obtain ⟨between, hbetween, hfirst⟩ := hab path node hnode
  obtain ⟨kept, hkept, hsecond⟩ := hbc path between hbetween
  exact ⟨kept, hkept, hsecond.trans hfirst⟩

theorem of_within {tree later : Tree m α} (h : tree.Within later) : tree.Keeps later := by
  intro path node hnode
  obtain ⟨kept, hkept, hretains⟩ := h path node hnode
  exact ⟨kept, hkept, hretains.chain⟩

theorem put {path : Path} {tree node grown : Tree m α} (hnode : tree.at? path = some node)
    (h : node.Keeps grown) : tree.Keeps (tree.put path grown) := by
  intro other found hfound
  rcases below_or_retained grown hnode hfound with ⟨below, rfl, hbelow⟩ | ⟨kept, hkept, hretains⟩
  · obtain ⟨kept, hkept, hchain⟩ := h below found hbelow
    exact ⟨kept, (at?_put grown below hnode).trans hkept, hchain⟩
  · exact ⟨kept, hkept, hretains.chain⟩

/-- Handlers are not looked at. -/
theorem attach (node : Tree m α) (handlers : Handlers m α) : node.Keeps { node with handlers } := by
  intro path found hfound
  cases path with
  | nil =>
      obtain rfl := Option.some.inj hfound
      exact ⟨_, rfl, rfl⟩
  | cons place rest => exact ⟨found, hfound, rfl⟩

end Keeps

/-- What could be followed from a place can be followed from there. -/
theorem Follows.keeps {steps : List (List Spec.Node)} {here : Tree m α} {path : Path}
    (h : Follows steps here path) {tree later : Tree m α} (hkeeps : tree.Keeps later) :
    ∀ {base : Path} {there : Tree m α}, tree.at? base = some here → later.at? base = some there →
      Follows steps there path := by
  induction h with
  | here _ => exact fun _ _ => .here _
  | @step nodes rest here child place path hchild hbuilt _ ih =>
      intro base there hhere hthere
      have hfound : tree.at? (base ++ [place]) = some child := at?_of_child hhere hchild
      obtain ⟨kept, hkept, hchain⟩ := hkeeps _ child hfound
      have hplace : there.children[place]? = some kept := by
        rw [at?_append, hthere, Option.bind_some, at?] at hkept
        obtain ⟨found, hfound, hkept⟩ := Option.bind_eq_some_iff.1 hkept
        rwa [Option.some.inj hkept] at hfound
      refine .step hplace ?_ (ih hfound hkept)
      rw [builtFrom, hchain]
      exact hbuilt

-- ================================================================ additions

/-- What is added below a node at once. -/
inductive Addition (α : Type) where
  /-- A path with one argument for each node of a spec. -/
  | path (registry : Registry α) (spec : String)
  /-- One child that matches the whole of a spec. -/
  | whole (registry : Registry α) (spec : String)

namespace Addition

/-- The nodes of the children that it leads through. -/
def steps : Addition α → List (List Spec.Node)
  | path _ spec => (Spec.nodes spec).map ([·])
  | whole _ spec => [Spec.nodes spec]

/-- The node with what is added, and the way to what is added last. -/
def run : Addition α → Tree m α → Tree m α × Except Spec.Defect Path
  | path registry spec => create registry spec
  | whole registry spec => createChain registry spec

/-- The addition at a node of a tree; the way is that from the root. Nothing if there
is no such node. -/
def runAt (addition : Addition α) (tree : Tree m α) (base : Path) :
    Option (Tree m α × Except Spec.Defect Path) :=
  (tree.alter? addition.run base).map fun added => (added.1, added.2.map (base ++ ·))

end Addition

section Extend

variable {registry : Registry α}

theorem follows_of_extend {nodes : List Spec.Node} :
    ∀ {tree grown : Tree m α} {path : Path}, extend registry nodes tree = (grown, .ok path) →
      Follows (nodes.map ([·])) grown path := by
  induction nodes with
  | nil =>
      intro tree grown path h
      cases h
      exact .here _
  | cons node rest ih =>
      intro tree grown path h
      obtain ⟨stepped, place, child, below, deeper, hleads, hrest, rfl, rfl⟩ :=
        extend_cons_eq_ok_iff.1 h
      have hretains : child.Retains below := by
        have hwithin := within_extend registry rest child
        rw [hrest] at hwithin
        exact hwithin.root
      refine .step (hleads.put_child_eq below) ?_ (ih hrest)
      rw [builtFrom, hretains.chain]
      exact (isFor_iff.1 hleads.isFor).2

theorem extend_of_follows {nodes : List Spec.Node} :
    ∀ {tree : Tree m α} {path : Path}, tree.Every Unambiguous →
      Follows (nodes.map ([·])) tree path → extend registry nodes tree = (tree, .ok path) := by
  induction nodes with
  | nil =>
      intro tree path _ h
      cases h
      rfl
  | cons node rest ih =>
      intro tree path htree h
      cases h with
      | @step _ _ _ child place deeper hchild hbuilt hfollows =>
          have hbelow := ih (htree.child (List.mem_of_getElem? hchild)) hfollows
          have hat : tree.at? [place] = some child := at?_cons hchild []
          exact extend_cons_eq_ok_iff.2 ⟨tree, place, child, child, deeper,
            .again (htree.root.childFor?_eq hchild hbuilt) hchild, hbelow, (put_self hat).symm, rfl⟩

theorem Leads.unambiguous {node : Spec.Node} {tree grown child : Tree m α} {place : Nat}
    (h : Leads registry node tree grown place child) (htree : tree.Every Unambiguous) :
    grown.Every Unambiguous := by
  cases h with
  | again _ _ => exact htree
  | new hplace hchain => exact unambiguous_add_ofChain htree hplace hchain

theorem unambiguous_extend (registry : Registry α) (nodes : List Spec.Node) :
    ∀ tree : Tree m α, tree.Every Unambiguous →
      (extend registry nodes tree).1.Every Unambiguous := by
  induction nodes with
  | nil => exact fun _ htree => htree
  | cons node rest ih =>
      intro tree htree
      rcases exists_leads registry node tree with ⟨stepped, place, child, hleads⟩
        | ⟨defect, hplace, hchain⟩
      · have hstepped := hleads.unambiguous htree
        have hretains := (within_extend registry rest child).root
        have hchild : stepped.at? [place] = some child := at?_cons hleads.child_eq []
        rw [hleads.extend_eq]
        exact unambiguous_put (ih child (hstepped.child (List.mem_of_getElem? hleads.child_eq)))
          hchild hretains.chain hretains.expansion hstepped
      · rw [extend_of_defect hplace hchain]
        exact htree

end Extend

section Whole

variable (registry : Registry α) (spec : String) (tree : Tree m α)

/-- A whole chain leads to the child to use again, or to one that is built and added;
or there is none, and none can be built. -/
theorem createChain_cases :
    (∃ place child, tree.children[place]? = some child
        ∧ child.isFor (Spec.nodes spec) = true
        ∧ createChain registry spec tree = (tree, .ok [place]))
      ∨ (∃ chain, tree.childFor? (Spec.nodes spec) = none
        ∧ Chain.ofNodes registry (Spec.nodes spec) = .ok chain
        ∧ createChain registry spec tree
          = ({ tree with children := tree.children ++ [ofChain chain] },
            .ok [tree.children.length]))
      ∨ ∃ defect, createChain registry spec tree = (tree, .error defect) := by
  unfold createChain
  cases hplace : tree.childFor? (Spec.nodes spec) with
  | some place =>
      obtain ⟨hlt, hfor, -⟩ := List.findIdx?_eq_some_iff_getElem.1 hplace
      exact Or.inl ⟨place, _, List.getElem?_eq_getElem hlt, hfor, rfl⟩
  | none =>
      cases hchain : Chain.ofSpec registry spec with
      | ok chain => exact Or.inr (Or.inl ⟨chain, rfl, hchain, rfl⟩)
      | error defect => exact Or.inr (Or.inr ⟨defect, rfl⟩)

end Whole

namespace Addition

variable {addition : Addition α} {tree grown : Tree m α} {path : Path}

theorem within_run (addition : Addition α) (tree : Tree m α) :
    tree.Within (addition.run tree).1 := by
  cases addition with
  | path registry spec =>
      show tree.Within (create registry spec tree).1
      by_cases hne : Spec.nodes spec = []
      · rw [create, hne]
        exact .refl tree
      · rw [create_eq_extend hne]
        exact within_extend registry _ tree
  | whole registry spec =>
      show tree.Within (createChain registry spec tree).1
      rcases createChain_cases registry spec tree with ⟨place, child, -, -, h⟩
        | ⟨chain, -, -, h⟩ | ⟨defect, h⟩ <;> rw [h]
      · exact .refl tree
      · exact .add tree _
      · exact .refl tree

/-- An addition keeps a tree unambiguous, whether it fails or not. -/
theorem unambiguous_run (addition : Addition α) (htree : tree.Every Unambiguous) :
    (addition.run tree).1.Every Unambiguous := by
  cases addition with
  | path registry spec =>
      show (create registry spec tree).1.Every Unambiguous
      by_cases hne : Spec.nodes spec = []
      · rw [create, hne]
        exact htree
      · rw [create_eq_extend hne]
        exact unambiguous_extend registry _ tree htree
  | whole registry spec =>
      show (createChain registry spec tree).1.Every Unambiguous
      rcases createChain_cases registry spec tree with ⟨place, child, -, -, h⟩
        | ⟨chain, hnone, hchain, h⟩ | ⟨defect, h⟩ <;> rw [h]
      · exact htree
      · exact unambiguous_add_ofChain htree hnone hchain
      · exact htree

/-- What is answered is a way along children built from the nodes of the spec. -/
theorem follows_of_run (h : addition.run tree = (grown, .ok path)) :
    Follows addition.steps grown path ∧ addition.steps ≠ [] := by
  cases addition with
  | path registry spec =>
      change create registry spec tree = (grown, .ok path) at h
      by_cases hne : Spec.nodes spec = []
      · rw [create, hne] at h
        cases h
      · rw [create_eq_extend hne] at h
        exact ⟨follows_of_extend h, fun hnil => hne (List.map_eq_nil_iff.1 hnil)⟩
  | whole registry spec =>
      refine ⟨?_, List.cons_ne_nil _ _⟩
      change createChain registry spec tree = (grown, .ok path) at h
      rcases createChain_cases registry spec tree with ⟨place, child, hchild, hfor, hrun⟩
        | ⟨chain, hnone, hchain, hrun⟩ | ⟨defect, hrun⟩ <;> rw [hrun] at h <;> cases h
      · exact .step hchild (isFor_iff.1 hfor).2 (.here child)
      · exact .step List.getElem?_concat_length (congrArg some (Chain.nodes_of_ofNodes hchain))
          (.here _)

/-- Where its nodes lead already, an addition leads as well, and adds nothing. -/
theorem run_of_follows (htree : tree.Every Unambiguous) (hne : addition.steps ≠ [])
    (h : Follows addition.steps tree path) : addition.run tree = (tree, .ok path) := by
  cases addition with
  | path registry spec =>
      have hnodes : Spec.nodes spec ≠ [] := fun hnil => hne (List.map_eq_nil_iff.2 hnil)
      show create registry spec tree = _
      rw [create_eq_extend hnodes]
      exact extend_of_follows htree h
  | whole registry spec =>
      cases h with
      | @step _ _ _ child place deeper hchild hbuilt hfollows =>
          cases hfollows
          show createChain registry spec tree = _
          rw [createChain, htree.root.childFor?_eq hchild hbuilt]

end Addition

-- ================================================================ histories

/-- What additions make of a tree, with handlers attached to its nodes between them.
An addition may fail. -/
inductive Becomes (start : Tree m α) : Tree m α → Prop
  /-- At first it is the tree itself. -/
  | start : Becomes start start
  /-- Something is added below a node, as far as it can be built. -/
  | add {tree grown : Tree m α} {addition : Addition α} {base : Path}
      {result : Except Spec.Defect Path} : Becomes start tree →
      addition.runAt tree base = some (grown, result) → Becomes start grown
  /-- Handlers are attached to a node. -/
  | attach {tree grown : Tree m α} {handlers : Handlers m α} {base : Path} :
      Becomes start tree →
      tree.alter? (fun node => ({ node with handlers }, ())) base = some (grown, ()) →
      Becomes start grown

theorem Addition.exists_of_runAt {addition : Addition α} {tree grown : Tree m α} {base : Path}
    {result : Except Spec.Defect Path} (h : addition.runAt tree base = some (grown, result)) :
    ∃ here, tree.at? base = some here ∧ grown = tree.put base (addition.run here).1
      ∧ result = (addition.run here).2.map (base ++ ·) := by
  obtain ⟨added, hadded, h⟩ := Option.map_eq_some_iff.1 h
  obtain ⟨here, hhere, hgrown, hresult⟩ := exists_of_alter? hadded
  cases h
  exact ⟨here, hhere, hgrown, congrArg _ hresult⟩

variable {start tree grown : Tree m α}

/-- However a tree is added to, no node gets a second child built from the same
nodes. -/
theorem unambiguous_becomes (h : Becomes start tree) (hstart : start.Every Unambiguous) :
    tree.Every Unambiguous := by
  induction h with
  | start => exact hstart
  | @add tree grown addition base result _ hrun ih =>
      obtain ⟨here, hhere, rfl, -⟩ := Addition.exists_of_runAt hrun
      have hroot := (addition.within_run here).root
      have hbelow : here.Every Unambiguous := ih.below hhere
      exact unambiguous_put (addition.unambiguous_run hbelow) hhere hroot.chain hroot.expansion ih
  | @attach tree grown handlers base _ halter ih =>
      obtain ⟨here, hhere, rfl, -⟩ := exists_of_alter? halter
      have hbelow : here.Every Unambiguous := ih.below hhere
      obtain ⟨hroot, hchildren⟩ := every_iff.1 hbelow
      have hattached : Every Unambiguous { here with handlers } :=
        every_iff.2 ⟨⟨hroot.plain, hroot.distinct⟩, hchildren⟩
      exact unambiguous_put hattached hhere rfl rfl ih

/-- Nothing that was added is taken away. -/
theorem keeps_becomes (h : Becomes start tree) : start.Keeps tree := by
  induction h with
  | start => exact .refl start
  | @add tree grown addition base result _ hrun ih =>
      obtain ⟨here, hhere, rfl, -⟩ := Addition.exists_of_runAt hrun
      exact ih.trans (.put hhere (.of_within (addition.within_run here)))
  | @attach tree grown handlers base _ halter ih =>
      obtain ⟨here, hhere, rfl, -⟩ := exists_of_alter? halter
      exact ih.trans (.put hhere (.attach here handlers))

/-- A tree made of the empty one by adding paths and whole chains never has a node
with two children built from equal nodes. What an addition answers is settled by the
node it was made at and the nodes of its spec: it is the only way from there along
children built from these nodes, and at any later time any addition with the same
nodes, of either kind and by any registry, leads there again and adds nothing. -/
theorem additions_unique {tree : Tree m α} (h : Becomes {} tree) :
    (∀ path (node : Tree m α), tree.at? path = some node →
      ∀ (i j : Nat) (first second : Tree m α), node.children[i]? = some first →
        node.children[j]? = some second → ∀ a b : Chain α, first.chain = some a →
          second.chain = some b → a.nodes = b.nodes → i = j)
    ∧ ∀ base (addition : Addition α) grown reached,
        addition.runAt tree base = some (grown, .ok reached) →
        (∃ here path, grown.at? base = some here ∧ reached = base ++ path
          ∧ ∀ other, Follows addition.steps here other ↔ other = path)
        ∧ ∀ later, Becomes grown later → ∀ again : Addition α, again.steps = addition.steps →
            again.runAt later base = some (later, .ok reached) := by
  have hempty : ({} : Tree m α).Every Unambiguous :=
    every_iff.2 ⟨⟨List.forall_mem_nil _, List.nodup_nil⟩, List.forall_mem_nil _⟩
  have htree := unambiguous_becomes h hempty
  refine ⟨fun path node hnode i j first second hfirst hsecond a b ha hb hsame => ?_,
    fun base addition grown reached hrun => ?_⟩
  · refine (htree path node hnode).place_eq hfirst hsecond ?_
    rw [builtFrom, builtFrom, ha, hb]
    exact congrArg some hsame
  have hgrown : grown.Every Unambiguous := unambiguous_becomes (.add h hrun) hempty
  obtain ⟨here, hhere, hput, hreached⟩ := Addition.exists_of_runAt hrun
  rcases hadded : addition.run here with ⟨added, defect | path⟩
  · rw [hadded] at hreached
    cases hreached
  rw [hadded] at hput hreached
  cases hreached
  obtain ⟨hfollows, hne⟩ := Addition.follows_of_run hadded
  have hat : grown.at? base = some added := by
    have hfound := at?_put added [] hhere
    rwa [List.append_nil, ← hput] at hfound
  refine ⟨⟨added, path, hat, rfl, fun other => ⟨fun hother => ?_, fun hsame => hsame ▸ hfollows⟩⟩,
    fun later hlater again hagain => ?_⟩
  · exact hfollows.unique (hgrown.below hat) hother
  -- the way is there still, so the addition leads along it
  have hkeeps := keeps_becomes hlater
  obtain ⟨there, hthere, -⟩ := hkeeps base added hat
  have hunambiguous := (unambiguous_becomes hlater hgrown).below hthere
  rw [← hagain] at hfollows hne
  have hrunAgain := Addition.run_of_follows hunambiguous hne (hfollows.keeps hkeeps hat hthere)
  rw [Addition.runAt, alter?_eq_put again.run hthere, hrunAgain, put_self hthere]
  rfl

/-- A word is added as a whole chain and a path goes on below it, up to a kind that is
not there. A second path leads to the same two nodes, however its number is written,
and so it does when another child of the root was built from the nodes of both. -/
theorem additions_unique_again :
    ∃ tree grown later : Tree (ReaderM Unit) Unit, Becomes {} tree
      ∧ (Addition.path .standard "give\t@int( max = '2' , min=\"1\" )").runAt tree []
        = some (grown, .ok [0, 0])
      ∧ Becomes grown later ∧ later.children.length = 2
      ∧ (∀ (i j : Nat) (first second : Tree (ReaderM Unit) Unit), grown.children[i]? = some first →
          grown.children[j]? = some second → ∀ a b : Chain Unit, first.chain = some a →
            second.chain = some b → a.nodes = b.nodes → i = j)
      ∧ (Addition.path .standard "give @int(min=1,max=2)").runAt later []
        = some (later, .ok [0, 0]) := by
  let word : Addition Unit := .whole .standard "give"
  let failing : Addition Unit := .path .standard "give @int(min=1,max=2) @player"
  let quoted : Addition Unit := .path .standard "give\t@int( max = '2' , min=\"1\" )"
  let both : Addition Unit := .whole .standard "give @int(min=1,max=2)"
  have hruns : (do
      let a ← word.runAt ({} : Tree (ReaderM Unit) Unit) []
      let b ← failing.runAt a.1 []
      let c ← quoted.runAt b.1 []
      let d ← both.runAt c.1 []
      return (b.2.toOption, c.2.toOption, d.1.children.length))
        = some (none, some [0, 0], 2) := by
    decide +kernel
  obtain ⟨a, ha, hruns⟩ := Option.bind_eq_some_iff.1 hruns
  obtain ⟨b, hb, hruns⟩ := Option.bind_eq_some_iff.1 hruns
  obtain ⟨⟨grown, result⟩, hc, hruns⟩ := Option.bind_eq_some_iff.1 hruns
  obtain ⟨d, hd, hruns⟩ := Option.bind_eq_some_iff.1 hruns
  simp only [Option.pure_def, Option.some.injEq, Prod.mk.injEq] at hruns
  obtain ⟨-, hreached, hlength⟩ := hruns
  obtain rfl : result = .ok [0, 0] := by
    cases result with
    | error defect => cases hreached
    | ok reached => exact congrArg _ (Option.some.inj hreached)
  have hb' : Becomes {} b.1 := .add (.add .start ha) hb
  have hlater : Becomes grown d.1 := .add .start hd
  have hsteps : (Addition.path .standard "give @int(min=1,max=2)" : Addition Unit).steps
      = quoted.steps := by
    decide +kernel
  exact ⟨b.1, grown, d.1, hb', hc, hlater, hlength, (additions_unique (.add hb' hc)).1 [] grown rfl,
    ((additions_unique hb').2 [] quoted grown [0, 0] hc).2 d.1 hlater _ hsteps⟩

end CommandGrammar.Tree
