/-
Creating a path below a node of a tree, one node of the path after the other.
It is the same whether the path is created at once or in pieces, each piece
from where the one before has led; created once more it adds nothing; and
whatever was in the tree stays what and where it was, also if the path cannot
be built to its end (`create_composes`).

`Leads` says what one step of a path does: it leads to the first child to use
again, or to a child that is built and added behind the others. Everything
below is an induction over the path with one such step in front. What makes
them go through is that the rest of the path grows below that child and
changes neither its chain nor its text, so the same step leads to it once more
(`Leads.once_more`).

A run starts at a node anywhere in a tree, and changes the tree by putting what
it makes of the node in the node's place. Two such changes, one below the other,
are one, so a run in pieces changes the tree as the whole run does
(`createEach_eq`).
-/
import CommandGrammar.Proofs.Chain.Building
import CommandGrammar.Proofs.Spec.Joining
import CommandGrammar.Proofs.Tree.Placing
import CommandGrammar.Tree.Growth

namespace CommandGrammar.Tree

variable {m : Type → Type} {α : Type}

-- ================================================================ one step

variable {registry : Registry α} {node : Spec.Node} {tree : Tree m α}

/-- One step of a path. It leads to the first child to use again, or to a child
that is built and added behind the others. -/
inductive Leads (registry : Registry α) (node : Spec.Node) (tree : Tree m α) :
    Tree m α → Nat → Tree m α → Prop
  | again {place : Nat} {child : Tree m α} : tree.childFor? [node] = some place →
      tree.children[place]? = some child → Leads registry node tree tree place child
  | new {chain : Chain α} : tree.childFor? [node] = none →
      Chain.ofNodes registry [node] = .ok chain →
      Leads registry node tree { tree with children := tree.children ++ [ofChain chain] }
        tree.children.length (ofChain chain)

/-- A step leads to a child, or there is none to use again and none can be
built. -/
theorem exists_leads (registry : Registry α) (node : Spec.Node) (tree : Tree m α) :
    (∃ grown place child, Leads registry node tree grown place child)
      ∨ ∃ defect, tree.childFor? [node] = none
        ∧ Chain.ofNodes registry [node] = .error defect := by
  cases hplace : tree.childFor? [node] with
  | some place =>
      have hlt := (List.findIdx?_eq_some_iff_getElem.1 hplace).1
      exact Or.inl ⟨_, _, _, .again hplace (List.getElem?_eq_getElem hlt)⟩
  | none =>
      cases hchain : Chain.ofNodes registry [node] with
      | ok chain => exact Or.inl ⟨_, _, _, .new hplace hchain⟩
      | error defect => exact Or.inr ⟨defect, rfl, rfl⟩

theorem extend_of_defect {defect : Spec.Defect} (hplace : tree.childFor? [node] = none)
    (hchain : Chain.ofNodes registry [node] = .error defect) (rest : List Spec.Node) :
    extend registry (node :: rest) tree = (tree, .error defect) := by
  rw [extend, hplace]
  dsimp only [Option.bind_none]
  rw [hchain]

namespace Leads

variable {grown child : Tree m α} {place : Nat}

theorem child_eq (h : Leads registry node tree grown place child) :
    grown.children[place]? = some child := by
  cases h with
  | again _ hchild => exact hchild
  | new _ _ => exact List.getElem?_concat_length

theorem isFor (h : Leads registry node tree grown place child) : child.isFor [node] = true := by
  cases h with
  | again hplace hchild =>
      obtain ⟨hlt, hfor, -⟩ := List.findIdx?_eq_some_iff_getElem.1 hplace
      rwa [(List.getElem?_eq_some_iff.1 hchild).2] at hfor
  | new _ hchain =>
      obtain ⟨argument, rfl, hnode, -⟩ := Chain.exists_of_ofNodes_singleton hchain
      simp [Tree.isFor, ofChain, Chain.nodes, hnode]

theorem within (h : Leads registry node tree grown place child) : tree.Within grown := by
  cases h with
  | again _ _ => exact .refl tree
  | new _ _ => exact .add tree _

/-- What is put there takes the child's place. -/
theorem put_child_eq (h : Leads registry node tree grown place child) (below : Tree m α) :
    (grown.put [place] below).children[place]? = some below :=
  getElem?_put h.child_eq [] below

/-- The rest of the path is added below that child. -/
theorem extend_eq (h : Leads registry node tree grown place child) (rest : List Spec.Node) :
    extend registry (node :: rest) tree
      = (grown.put [place] (extend registry rest child).1,
        (extend registry rest child).2.map (place :: ·)) := by
  cases h with
  | again hplace hchild =>
      rw [put_cons hchild, extend, hplace]
      dsimp only [Option.bind_some]
      rw [hchild]
      rfl
  | @new chain hplace hchain =>
      have hlast : (tree.children ++ [ofChain chain])[tree.children.length]?
          = some (ofChain chain : Tree m α) := List.getElem?_concat_length
      rw [put_cons hlast, extend, hplace]
      dsimp only [Option.bind_none]
      rw [hchain]
      simp [Tree.put]

theorem childFor?_eq (h : Leads registry node tree grown place child) :
    grown.childFor? [node] = some place := by
  have hfor := h.isFor
  cases h with
  | again hplace _ => exact hplace
  | new hplace _ =>
      unfold childFor? at hplace ⊢
      rw [List.findIdx?_append, hplace, List.findIdx?_singleton, if_pos hfor]
      simp

/-- Whatever grows below the child, the same step leads to it once more, and adds
nothing. -/
theorem once_more (h : Leads registry node tree grown place child) {below : Tree m α}
    (hbelow : child.Retains below) :
    Leads registry node (grown.put [place] below) (grown.put [place] below) place below := by
  have hfor : below.isFor [node] = true := by
    rw [Tree.isFor, hbelow.expansion, hbelow.chain]
    exact h.isFor
  refine .again ?_ (h.put_child_eq below)
  obtain ⟨hlt, -, hbefore⟩ := List.findIdx?_eq_some_iff_getElem.1 h.childFor?_eq
  rw [put_cons h.child_eq, childFor?, List.findIdx?_eq_some_iff_getElem]
  refine ⟨by simpa using hlt, ?_, fun other hother => ?_⟩
  · rw [List.getElem_set_self]
    exact hfor
  · rw [List.getElem_set_ne (by omega)]
    exact hbefore other hother

end Leads

-- ============================================================== many steps

section Extend

variable {nodes rest : List Spec.Node} {grown : Tree m α} {path : Path} {defect : Spec.Defect}

/-- A run that leads on takes a step, and then runs on below the child. -/
theorem extend_cons_eq_ok_iff :
    extend registry (node :: rest) tree = (grown, .ok path)
      ↔ ∃ stepped place child below deeper, Leads registry node tree stepped place child
        ∧ extend registry rest child = (below, .ok deeper)
        ∧ grown = stepped.put [place] below ∧ path = place :: deeper := by
  constructor
  · intro h
    rcases exists_leads registry node tree with ⟨stepped, place, child, hleads⟩
      | ⟨defect, hplace, hchain⟩
    · rw [hleads.extend_eq] at h
      rcases hrest : extend registry rest child with ⟨below, defect | deeper⟩
      · rw [hrest] at h
        cases h
      · rw [hrest] at h
        cases h
        exact ⟨stepped, place, child, below, deeper, hleads, hrest, rfl, rfl⟩
    · rw [extend_of_defect hplace hchain] at h
      cases h
  · rintro ⟨stepped, place, child, below, deeper, hleads, hrest, rfl, rfl⟩
    rw [hleads.extend_eq, hrest]
    rfl

/-- A run that fails does so below the child, or cannot take the first step. -/
theorem of_extend_cons_eq_error (h : extend registry (node :: rest) tree = (grown, .error defect)) :
    (∃ stepped place child below, Leads registry node tree stepped place child
        ∧ extend registry rest child = (below, .error defect) ∧ grown = stepped.put [place] below)
      ∨ tree.childFor? [node] = none ∧ Chain.ofNodes registry [node] = .error defect
        ∧ grown = tree := by
  rcases exists_leads registry node tree with ⟨stepped, place, child, hleads⟩
    | ⟨found, hplace, hchain⟩
  · rw [hleads.extend_eq] at h
    rcases hrest : extend registry rest child with ⟨below, found | deeper⟩
    · rw [hrest] at h
      cases h
      exact Or.inl ⟨stepped, place, child, below, hleads, hrest, rfl⟩
    · rw [hrest] at h
      cases h
  · rw [extend_of_defect hplace hchain] at h
    cases h
    exact Or.inr ⟨hplace, hchain, rfl⟩

/-- Nothing that exists is changed, whether the whole path can be built or not. -/
theorem within_extend (registry : Registry α) (nodes : List Spec.Node) :
    ∀ tree : Tree m α, tree.Within (extend registry nodes tree).1 := by
  induction nodes with
  | nil => exact fun tree => .refl tree
  | cons node rest ih =>
      intro tree
      rcases exists_leads registry node tree with ⟨stepped, place, child, hleads⟩
        | ⟨defect, hplace, hchain⟩
      · rw [hleads.extend_eq]
        have hchild : stepped.at? [place] = some child := at?_cons hleads.child_eq []
        exact hleads.within.trans (.put hchild (ih child))
      · rw [extend_of_defect hplace hchain]
        exact .refl tree

/-- The path that is answered leads to a node. -/
theorem exists_at?_of_extend :
    ∀ {tree grown : Tree m α} {path : Path}, extend registry nodes tree = (grown, .ok path) →
      ∃ here, grown.at? path = some here := by
  induction nodes with
  | nil =>
      intro tree grown path h
      cases h
      exact ⟨_, rfl⟩
  | cons node rest ih =>
      intro tree grown path h
      obtain ⟨stepped, place, child, below, deeper, hleads, hrest, rfl, rfl⟩ :=
        extend_cons_eq_ok_iff.1 h
      obtain ⟨here, hhere⟩ := ih hrest
      exact ⟨here, (at?_cons (hleads.put_child_eq below) deeper).trans hhere⟩

/-- Two runs, the second one from where the first one leads, are one run. -/
theorem extend_append_of_ok {more : List Spec.Node} :
    ∀ {tree grown here : Tree m α} {path : Path},
      extend registry nodes tree = (grown, .ok path) → grown.at? path = some here →
      extend registry (nodes ++ more) tree
        = (grown.put path (extend registry more here).1,
          (extend registry more here).2.map (path ++ ·)) := by
  induction nodes with
  | nil =>
      intro tree grown here path h hhere
      cases h
      obtain rfl := Option.some.inj hhere
      rw [List.nil_append]
      rcases extend registry more tree with ⟨final, defect | deeper⟩ <;> rfl
  | cons node rest ih =>
      intro tree grown here path h hhere
      obtain ⟨stepped, place, child, below, deeper, hleads, hrest, rfl, rfl⟩ :=
        extend_cons_eq_ok_iff.1 h
      have hbelow := hleads.put_child_eq below
      rw [at?_cons hbelow] at hhere
      rw [List.cons_append, hleads.extend_eq, ih hrest hhere, put_cons hbelow,
        put_cons hleads.child_eq, put_cons hleads.child_eq]
      rcases extend registry more here with ⟨final, defect | last⟩ <;> simp [put]
      all_goals rfl

/-- After a defect nothing more is added. -/
theorem extend_append_of_error {more : List Spec.Node} :
    ∀ {tree grown : Tree m α}, extend registry nodes tree = (grown, .error defect) →
      extend registry (nodes ++ more) tree = (grown, .error defect) := by
  induction nodes with
  | nil => intro tree grown h; cases h
  | cons node rest ih =>
      intro tree grown h
      rcases of_extend_cons_eq_error h with ⟨stepped, place, child, below, hleads, hrest, rfl⟩
        | ⟨hplace, hchain, rfl⟩
      · rw [List.cons_append, hleads.extend_eq, ih hrest]
        rfl
      · rw [List.cons_append, extend_of_defect hplace hchain]

/-- A run that led to its end leads there once more and adds nothing. -/
theorem extend_again :
    ∀ {tree grown : Tree m α} {path : Path}, extend registry nodes tree = (grown, .ok path) →
      extend registry nodes grown = (grown, .ok path) := by
  induction nodes with
  | nil => intro tree grown path h; cases h; rfl
  | cons node rest ih =>
      intro tree grown path h
      obtain ⟨stepped, place, child, below, deeper, hleads, hrest, rfl, rfl⟩ :=
        extend_cons_eq_ok_iff.1 h
      have hretains : child.Retains below := by
        have hwithin := within_extend registry rest child
        rw [hrest] at hwithin
        exact hwithin.root
      have hbelow : (stepped.put [place] below).at? [place] = some below :=
        at?_cons (hleads.put_child_eq below) []
      exact extend_cons_eq_ok_iff.2 ⟨_, place, below, below, deeper, hleads.once_more hretains,
        ih hrest, (put_self hbelow).symm, rfl⟩

/-- A run that fails has led on up to a node that cannot be built where it is
needed. -/
theorem exists_of_extend_eq_error :
    ∀ {tree grown : Tree m α}, extend registry nodes tree = (grown, .error defect) →
      ∃ before node behind path here, nodes = before ++ node :: behind
        ∧ extend registry before tree = (grown, .ok path) ∧ grown.at? path = some here
        ∧ here.childFor? [node] = none ∧ Chain.ofNodes registry [node] = .error defect := by
  induction nodes with
  | nil => intro tree grown h; cases h
  | cons node rest ih =>
      intro tree grown h
      rcases of_extend_cons_eq_error h with ⟨stepped, place, child, below, hleads, hrest, rfl⟩
        | ⟨hplace, hchain, rfl⟩
      · obtain ⟨before, failing, behind, path, here, rfl, hbefore, hhere, hnone, hdefect⟩ :=
          ih hrest
        refine ⟨node :: before, failing, behind, place :: path, here, rfl,
          extend_cons_eq_ok_iff.2 ⟨stepped, place, child, below, path, hleads, hbefore, rfl, rfl⟩,
          ?_, hnone, hdefect⟩
        rw [at?_cons (hleads.put_child_eq below), hhere]
      · exact ⟨[], node, rest, [], grown, rfl, rfl, rfl, hplace, hchain⟩

end Extend

-- ============================================================ at any node

/-- Creates a path below a node of a tree. The answer is the way from the root to
the node that the path leads to. -/
def createAt (registry : Registry α) (spec : String) (tree : Tree m α) (base : Path) :
    Option (Tree m α × Except Spec.Defect Path) :=
  (tree.alter? (create registry spec) base).map fun created =>
    (created.1, created.2.map (base ++ ·))

/-- Creates paths one after the other, each below the node that the one before
leads to, up to the first that cannot be built. -/
def createEach (registry : Registry α) :
    List String → Tree m α → Path → Option (Tree m α × Except Spec.Defect Path)
  | [], tree, base => some (tree, .ok base)
  | spec :: rest, tree, base =>
      match tree.createAt registry spec base with
      | some (grown, .ok reached) => createEach registry rest grown reached
      | stopped => stopped

section Create

variable {spec : String} {base : Path} {here : Tree m α}

theorem create_eq_extend (h : Spec.nodes spec ≠ []) (tree : Tree m α) :
    create registry spec tree = extend registry (Spec.nodes spec) tree := by
  unfold create
  split
  · next hnil => exact absurd hnil h
  · rfl

theorem createAt_eq (hhere : tree.at? base = some here) (h : Spec.nodes spec ≠ []) :
    tree.createAt registry spec base
      = some (tree.put base (extend registry (Spec.nodes spec) here).1,
        (extend registry (Spec.nodes spec) here).2.map (base ++ ·)) := by
  rw [createAt, alter?_eq_put _ hhere, create_eq_extend h]
  rfl

/-- Several paths, one after the other, add what a path of all their nodes adds. -/
theorem createEach_eq {specs : List String} :
    ∀ {tree here : Tree m α} {base : Path}, tree.at? base = some here →
      (∀ spec ∈ specs, Spec.nodes spec ≠ []) →
      createEach registry specs tree base
        = some (tree.put base (extend registry (specs.flatMap Spec.nodes) here).1,
          (extend registry (specs.flatMap Spec.nodes) here).2.map (base ++ ·)) := by
  induction specs with
  | nil =>
      intro tree here base hhere _
      show some (tree, Except.ok base) = some (tree.put base here, Except.ok (base ++ []))
      rw [put_self hhere, List.append_nil]
  | cons spec rest ih =>
      intro tree here base hhere h
      obtain ⟨hspec, hrest⟩ := List.forall_mem_cons.1 h
      rw [createEach, createAt_eq hhere hspec, List.flatMap_cons]
      rcases hfirst : extend registry (Spec.nodes spec) here with ⟨grown, defect | path⟩
      · rw [extend_append_of_error hfirst]
        rfl
      · obtain ⟨deeper, hdeeper⟩ := exists_at?_of_extend hfirst
        rw [extend_append_of_ok hfirst hdeeper]
        show createEach registry rest (tree.put base grown) (base ++ path) = _
        rw [ih ((at?_put grown path hhere).trans hdeeper) hrest, put_put grown path _ hhere]
        rcases extend registry (rest.flatMap Spec.nodes) deeper with ⟨final, defect | last⟩
        · rfl
        · show some (_, Except.ok (base ++ path ++ last))
            = some (_, Except.ok (base ++ (path ++ last)))
          rw [List.append_assoc]

/-- The nodes of a path before one of its nodes can be written. -/
theorem wellFormed_before {before behind : List Spec.Node}
    (hsplit : Spec.nodes spec = before ++ behind) : ∀ other ∈ before, other.WellFormed := by
  intro other hother
  apply Spec.wellFormed_of_mem_nodes spec
  rw [hsplit]
  exact List.mem_append_left _ hother

/-- A path that is written from its nodes has these nodes. -/
theorem createEach_text {nodes : List Spec.Node} (hhere : tree.at? base = some here)
    (h : ∀ node ∈ nodes, node.WellFormed) :
    createEach registry (nodes.map Spec.Node.text) tree base
      = some (tree.put base (extend registry nodes here).1,
        (extend registry nodes here).2.map (base ++ ·)) := by
  have hone : ∀ spec ∈ nodes.map Spec.Node.text, Spec.nodes spec ≠ [] := by
    intro spec hspec
    obtain ⟨node, hnode, rfl⟩ := List.mem_map.1 hspec
    have halone := Spec.flatMap_nodes_text (List.forall_mem_singleton.2 (h node hnode))
    rw [List.map_singleton, List.flatMap_singleton] at halone
    rw [halone]
    exact List.cons_ne_nil _ _
  rw [createEach_eq hhere hone, Spec.flatMap_nodes_text h]

variable (registry) in
/-- What creating a path below a node of a tree comes to. -/
structure Creates (spec : String) (tree : Tree m α) (base : Path) (grown : Tree m α)
    (result : Except Spec.Defect Path) : Prop where
  /-- It is creating the nodes of the path one after the other. -/
  each : Spec.nodes spec ≠ [] →
    tree.createEach registry ((Spec.nodes spec).map Spec.Node.text) base = some (grown, result)
  /-- A path of two, the first of which ends outside its lists of parameters, is
  the first one and then the second one. -/
  joined : ∀ p q, spec = p ++ " " ++ q → Spec.endsOutside p.toList = true →
    Spec.nodes p ≠ [] → Spec.nodes q ≠ [] →
    tree.createEach registry [p, q] base = some (grown, result)
  /-- What is answered leads to a node, and if it is created at once again, nothing
  is added and the answer is the same. -/
  again : ∀ reached, result = .ok reached →
    (∃ here, grown.at? reached = some here)
      ∧ grown.createAt registry spec base = some (grown, .ok reached)
  /-- Every node that was there is there, at its place, with its chain, its text and
  its handlers. -/
  within : tree.Within grown
  /-- If it fails, the nodes before some node have been created and nothing else,
  and that node cannot be built where they lead to; or there are no nodes. -/
  failed : ∀ defect, result = .error defect →
    (Spec.nodes spec = [] ∧ defect = .emptySpec ∧ grown = tree)
      ∨ ∃ before node behind reached here, Spec.nodes spec = before ++ node :: behind
        ∧ tree.createEach registry (before.map Spec.Node.text) base = some (grown, .ok reached)
        ∧ (before ≠ [] → tree.createAt registry (Spec.text before) base
          = some (grown, .ok reached))
        ∧ grown.at? reached = some here ∧ here.childFor? [node] = none
        ∧ Chain.ofNodes registry [node] = .error defect
  /-- It does fail at a node that cannot be built where those before it lead to. -/
  fails : ∀ before node behind middle reached here defect,
    Spec.nodes spec = before ++ node :: behind →
    tree.createEach registry (before.map Spec.Node.text) base = some (middle, .ok reached) →
    middle.at? reached = some here → here.childFor? [node] = none →
    Chain.ofNodes registry [node] = .error defect →
    grown = middle ∧ result = .error defect

/-- Creating a path without nodes is refused. -/
theorem creates_of_nil (registry : Registry α) (hhere : tree.at? base = some here)
    (h : Spec.nodes spec = []) :
    tree.createAt registry spec base = some (tree, .error .emptySpec)
      ∧ Creates registry spec tree base tree (.error .emptySpec) := by
  constructor
  · have hcreate : create registry spec here = (here, .error .emptySpec) := by
      rw [create, h]
    rw [createAt, alter?_eq_put _ hhere, hcreate, put_self hhere]
    rfl
  · constructor
    case each => exact fun hne => absurd h hne
    case joined =>
      intro p q hspec houtside hp _
      rw [hspec, Spec.nodes_join houtside] at h
      exact absurd (List.append_eq_nil_iff.1 h).1 hp
    case again => exact fun _ hreached => by cases hreached
    case within => exact .refl tree
    case failed =>
      intro defect hdefect
      injection hdefect with hdefect
      exact Or.inl ⟨h, hdefect.symm, rfl⟩
    case fails =>
      intro before node behind middle reached there defect hsplit
      rw [h] at hsplit
      exact absurd hsplit.symm (by simp)

theorem createAt_again (hhere : tree.at? base = some here) (hne : Spec.nodes spec ≠ [])
    {grown : Tree m α} {path : Path}
    (h : extend registry (Spec.nodes spec) here = (grown, .ok path)) :
    (∃ there, (tree.put base grown).at? (base ++ path) = some there)
      ∧ (tree.put base grown).createAt registry spec base
        = some (tree.put base grown, .ok (base ++ path)) := by
  obtain ⟨there, hthere⟩ := exists_at?_of_extend h
  have hput : (tree.put base grown).at? base = some grown := by
    have := at?_put grown [] hhere
    rwa [List.append_nil] at this
  refine ⟨⟨there, (at?_put grown path hhere).trans hthere⟩, ?_⟩
  rw [createAt_eq hput hne, extend_again h, put_self hput]
  rfl

theorem createEach_of_defect (hhere : tree.at? base = some here) {grown : Tree m α}
    {defect : Spec.Defect}
    (h : extend registry (Spec.nodes spec) here = (grown, .error defect)) :
    ∃ before node behind reached there, Spec.nodes spec = before ++ node :: behind
      ∧ tree.createEach registry (before.map Spec.Node.text) base
        = some (tree.put base grown, .ok reached)
      ∧ (before ≠ [] → tree.createAt registry (Spec.text before) base
        = some (tree.put base grown, .ok reached))
      ∧ (tree.put base grown).at? reached = some there ∧ there.childFor? [node] = none
      ∧ Chain.ofNodes registry [node] = .error defect := by
  obtain ⟨before, node, behind, path, there, hsplit, hbefore, hthere, hnone, hchain⟩ :=
    exists_of_extend_eq_error h
  have hwell := wellFormed_before hsplit
  refine ⟨before, node, behind, base ++ path, there, hsplit, ?_, fun hne => ?_,
    (at?_put grown path hhere).trans hthere, hnone, hchain⟩
  · rw [createEach_text hhere hwell, hbefore]
    rfl
  · have htext := Spec.nodes_text hwell
    rw [createAt_eq hhere (by rwa [htext]), htext, hbefore]
    rfl

theorem extend_of_createEach {before : List Spec.Node} {reached : Path}
    {middle there : Tree m α} {defect : Spec.Defect} (hhere : tree.at? base = some here)
    (hwell : ∀ node ∈ before, node.WellFormed)
    (hbefore : tree.createEach registry (before.map Spec.Node.text) base
      = some (middle, .ok reached))
    (hthere : middle.at? reached = some there) (hnone : there.childFor? [node] = none)
    (hchain : Chain.ofNodes registry [node] = .error defect) (behind : List Spec.Node) :
    ∃ grown, middle = tree.put base grown
      ∧ extend registry (before ++ node :: behind) here = (grown, .error defect) := by
  rw [createEach_text hhere hwell] at hbefore
  rcases hextend : extend registry before here with ⟨grown, found | path⟩
  · rw [hextend] at hbefore
    cases hbefore
  · rw [hextend] at hbefore
    cases hbefore
    rw [at?_put grown path hhere] at hthere
    refine ⟨grown, rfl, ?_⟩
    rw [extend_append_of_ok hextend hthere, extend_of_defect hnone hchain, put_self hthere]
    rfl

/-- Creating a path below a node is creating its nodes one after the other, each
below the one before. What there was stays, and so does what is created where a
node cannot be built. -/
theorem create_composes (registry : Registry α) (spec : String)
    (hhere : tree.at? base = some here) :
    ∃ grown result, tree.createAt registry spec base = some (grown, result)
      ∧ Creates registry spec tree base grown result := by
  by_cases hne : Spec.nodes spec = []
  · obtain ⟨hcreate, hcreates⟩ := creates_of_nil registry hhere hne
    exact ⟨_, _, hcreate, hcreates⟩
  have hwell := Spec.wellFormed_of_mem_nodes spec
  obtain ⟨grown, result, hextend⟩ : ∃ grown result,
      extend registry (Spec.nodes spec) here = (grown, result) := ⟨_, _, rfl⟩
  refine ⟨tree.put base grown, result.map (base ++ ·), ?_, ?_⟩
  · rw [createAt_eq hhere hne, hextend]
  constructor
  case each =>
    intro _
    rw [createEach_text hhere hwell, hextend]
  case joined =>
    intro p q hspec houtside hp hq
    have hboth : ∀ spec ∈ [p, q], Spec.nodes spec ≠ [] :=
      List.forall_mem_cons.2 ⟨hp, List.forall_mem_singleton.2 hq⟩
    have hnodes : [p, q].flatMap Spec.nodes = Spec.nodes spec := by
      rw [hspec, Spec.nodes_join houtside, List.flatMap_cons, List.flatMap_singleton]
    rw [createEach_eq hhere hboth, hnodes, hextend]
  case again =>
    intro reached hreached
    cases result with
    | error defect => cases hreached
    | ok path =>
        cases hreached
        exact createAt_again hhere hne hextend
  case within =>
    have hgrown : here.Within grown := by
      have := within_extend registry (Spec.nodes spec) here
      rwa [hextend] at this
    exact .put hhere hgrown
  case failed =>
    intro defect hdefect
    cases result with
    | error found =>
        cases hdefect
        exact Or.inr (createEach_of_defect hhere hextend)
    | ok path => cases hdefect
  case fails =>
    intro before node behind middle reached there defect hsplit hbefore hthere hnone hchain
    obtain ⟨stopped, rfl, hstopped⟩ :=
      extend_of_createEach hhere (wellFormed_before hsplit) hbefore hthere hnone hchain behind
    rw [← hsplit, hextend] at hstopped
    cases hstopped
    exact ⟨rfl, rfl⟩

end Create

/-- A node that puts a text into the line, so that it is not used again. -/
def signpost : Tree (ReaderM Unit) Unit :=
  { children :=
      [{ chain := some ((Chain.ofSpec .standard "go").toOption.getD ⟨[]⟩)
         expansion := some "far" }] }

/-- A path is created behind it. Then a longer one is, with a node of a kind that
is not there: what is built before that node is used again and stays. -/
theorem signpost_create_composes :
    (∃ grown result, signpost.createAt .standard "go @int" [] = some (grown, result)
        ∧ Creates .standard "go @int" signpost [] grown result
        ∧ result.toOption = some [1, 0])
      ∧ ∃ grown result, signpost.createAt .standard "go @int @player x" [] = some (grown, result)
        ∧ Creates .standard "go @int @player x" signpost [] grown result
        ∧ result.toOption = none ∧ grown.children.length = 2 := by
  constructor
  · obtain ⟨grown, result, hcreate, hcreates⟩ :=
      create_composes .standard "go @int" (rfl : signpost.at? [] = some signpost)
    have hresult : (signpost.createAt .standard "go @int" []).map (·.2.toOption)
        = some (some [1, 0]) := by decide +kernel
    rw [hcreate] at hresult
    exact ⟨grown, result, hcreate, hcreates, Option.some.inj hresult⟩
  · obtain ⟨grown, result, hcreate, hcreates⟩ :=
      create_composes .standard "go @int @player x" (rfl : signpost.at? [] = some signpost)
    have hresult : (signpost.createAt .standard "go @int @player x" []).map
        (fun created => (created.2.toOption, created.1.children.length)) = some (none, 2) := by
      decide +kernel
    rw [hcreate] at hresult
    injection Option.some.inj hresult with hfails hchildren
    exact ⟨grown, result, hcreate, hcreates, hfails, hchildren⟩

end CommandGrammar.Tree
