/-
Going through a tree one node at a time. What is still to come lies on a
stack; the node on top is taken, and its children are put in its place, the
first of them on top. So the nodes come in the order of their paths, each
once, and there is an end (`yields_iff`): what a stack holds is the listings
of its nodes, and taking a node takes the first entry off.

The specs of the lines that can be executed are told from these entries with
one buffer: at each node it is cut back to the depth of the node, and the
text of the node's chain is put behind. The cut drops what nodes further
down have left, whatever number of levels the next node is higher up, for
all that the buffer holds up to a depth belongs to the node above
(`foldl_tell_preorder`).
-/
import CommandGrammar.Proofs.Tree.Usage

namespace CommandGrammar

variable {m : Type → Type} {α : Type}

/-- A chain built of nodes of a spec. -/
def Chain.FromSpec (chain : Chain α) : Prop :=
  ∃ (registry : Registry α) (nodes : List Spec.Node) (spec : String),
    (∀ node ∈ nodes, node ∈ Spec.nodes spec) ∧ Chain.ofNodes registry nodes = .ok chain

theorem Chain.fromSpec_of_toOption {registry : Registry α} {spec : String} {chain : Chain α}
    (h : (Chain.ofSpec registry spec).toOption = some chain) : chain.FromSpec := by
  rcases hspec : Chain.ofSpec registry spec with defect | built
  · rw [hspec] at h
    cases h
  · rw [hspec] at h
    injection h with h
    exact ⟨registry, Spec.nodes spec, spec, fun _ hnode => hnode, h ▸ hspec⟩

theorem Chain.FromSpec.text_ne_empty {chain : Chain α} (h : chain.FromSpec) : chain.text ≠ "" := by
  obtain ⟨registry, nodes, spec, hnodes, hchain⟩ := h
  have hne : nodes ≠ [] := by
    rintro rfl
    cases hchain
  unfold Chain.text
  rw [Chain.nodes_of_ofNodes hchain]
  exact Spec.text_ne_empty hne fun node hnode =>
    Spec.wellFormed_of_mem_nodes spec node (hnodes node hnode)

namespace Tree

-- ============================================================== the stack

/-- The node that comes next, with its depth, and the stack behind it. -/
def next? (stack : List (Nat × Tree m α)) :
    Option ((Nat × Tree m α) × List (Nat × Tree m α)) :=
  stack.getLast?.map fun entry =>
    (entry, stack.dropLast ++ entry.2.children.reverse.map fun child => (entry.1 + 1, child))

/-- Nodes are taken from a stack until there is none. -/
inductive Yields : List (Nat × Tree m α) → List (Nat × Tree m α) → Prop where
  /-- There is none. -/
  | done {stack : List (Nat × Tree m α)} (h : next? stack = none) : Yields stack []
  /-- One is taken, and then the others. -/
  | step {stack rest entries : List (Nat × Tree m α)} {entry : Nat × Tree m α}
      (h : next? stack = some (entry, rest)) (more : Yields rest entries) :
      Yields stack (entry :: entries)

/-- What a stack holds: its nodes from the top, each with all below it. -/
def held (stack : List (Nat × Tree m α)) : List (Nat × Tree m α) :=
  stack.reverse.flatMap fun entry => entry.2.preorder entry.1

theorem held_append (below above : List (Nat × Tree m α)) :
    held (below ++ above) = held above ++ held below := by
  unfold held
  rw [List.reverse_append, List.flatMap_append]

theorem held_concat (stack : List (Nat × Tree m α)) (entry : Nat × Tree m α) :
    held (stack ++ [entry]) = entry.2.preorder entry.1 ++ held stack := by
  rw [held_append]
  unfold held
  rw [List.reverse_singleton, List.flatMap_singleton]

/-- Taking a node takes the first entry off. -/
theorem held_of_next? {stack rest : List (Nat × Tree m α)} {entry : Nat × Tree m α}
    (h : next? stack = some (entry, rest)) : held stack = entry :: held rest := by
  obtain ⟨top, htop, hrest⟩ := Option.map_eq_some_iff.1 h
  injection hrest with hentry hrest
  subst hentry hrest
  obtain ⟨depth, tree⟩ := top
  have hchildren : held (tree.children.reverse.map fun child => (depth + 1, child))
      = tree.children.flatMap (preorder (depth + 1)) := by
    unfold held
    rw [← List.map_reverse, List.reverse_reverse, List.flatMap_map]
  rw [← List.dropLast_append_getLast? _ htop, held_concat, List.dropLast_concat, held_append,
    hchildren, preorder_eq, List.cons_append]

theorem held_of_done {stack : List (Nat × Tree m α)} (h : next? stack = none) :
    held stack = [] := by
  rw [List.getLast?_eq_none_iff.1 (Option.map_eq_none_iff.1 h)]
  rfl

/-- From every stack all that it holds is taken, and then there is an end. -/
theorem yields_iff {stack entries : List (Nat × Tree m α)} :
    Yields stack entries ↔ entries = held stack := by
  constructor
  · intro h
    induction h with
    | done h => rw [held_of_done h]
    | step h _ ih => rw [held_of_next? h, ih]
  · intro h
    induction entries generalizing stack with
    | nil =>
        cases hnext : next? stack with
        | none => exact .done hnext
        | some taken =>
            rw [held_of_next? hnext] at h
            cases h
    | cons entry entries ih =>
        cases hnext : next? stack with
        | none =>
            rw [held_of_done hnext] at h
            cases h
        | some taken =>
            rw [held_of_next? hnext] at h
            injection h with hentry hentries
            subst hentry
            exact .step hnext (ih hentries)

theorem held_root (tree : Tree m α) : held [(0, tree)] = tree.nodes := by
  unfold held
  rw [List.reverse_singleton, List.flatMap_singleton]
  rfl

-- ============================================================== the paths

mutual

/-- A node at the end of a path and everything below it, each with its own
path. -/
def located (path : Path) : Tree m α → List (Path × Tree m α)
  | ⟨chain, expansion, handlers, children⟩ =>
      (path, ⟨chain, expansion, handlers, children⟩) :: locatedAll path 0 children

/-- Several children of a node, the first of them at a place. -/
def locatedAll (path : Path) (place : Nat) : List (Tree m α) → List (Path × Tree m α)
  | [] => []
  | tree :: rest => located (path ++ [place]) tree ++ locatedAll path (place + 1) rest

end

theorem locatedAll_eq (path : Path) (trees : List (Tree m α)) (first : Nat) :
    locatedAll path first trees
      = (trees.zipIdx first).flatMap fun entry => entry.1.located (path ++ [entry.2]) := by
  induction trees generalizing first with
  | nil => rfl
  | cons tree rest ih => rw [locatedAll, ih, List.zipIdx_cons, List.flatMap_cons]

/-- A node comes first, and then what is below each child, one after the
other. -/
theorem located_eq (path : Path) (tree : Tree m α) :
    tree.located path
      = (path, tree) :: tree.children.zipIdx.flatMap fun entry =>
        entry.1.located (path ++ [entry.2]) := by
  cases tree
  rw [located, locatedAll_eq]

/-- The nodes are those that paths lead to. -/
theorem mem_located {tree : Tree m α} :
    ∀ {path : Path} {found : Path × Tree m α},
      found ∈ tree.located path
        ↔ ∃ below, found.1 = path ++ below ∧ tree.at? below = some found.2 := by
  induction tree using Tree.induction with
  | node tree ih =>
      intro path found
      rw [located_eq, List.mem_cons, List.mem_flatMap]
      constructor
      · rintro (rfl | ⟨⟨child, place⟩, hentry, h⟩)
        · exact ⟨[], (List.append_nil path).symm, rfl⟩
        · have hchild := List.mem_zipIdx_iff_getElem?.1 hentry
          obtain ⟨below, hpath, hfound⟩ := (ih child (List.mem_of_getElem? hchild)).1 h
          refine ⟨place :: below, ?_, ?_⟩
          · rw [hpath, List.append_assoc]
            rfl
          · rw [at?, hchild, Option.bind_some, hfound]
      · rintro ⟨below, hpath, hfound⟩
        obtain ⟨here, node⟩ := found
        dsimp only at hpath hfound
        subst hpath
        cases below with
        | nil =>
            injection hfound with hfound
            exact Or.inl (by rw [List.append_nil, hfound])
        | cons place below =>
            obtain ⟨child, hchild, hbelow⟩ := Option.bind_eq_some_iff.1 hfound
            refine Or.inr ⟨(child, place), List.mem_zipIdx_iff_getElem?.2 hchild, ?_⟩
            refine (ih child (List.mem_of_getElem? hchild)).2 ⟨below, ?_, hbelow⟩
            rw [List.append_assoc]
            rfl

theorem path_prefix_of_mem_located {path : Path} {tree : Tree m α} {found : Path × Tree m α}
    (h : found ∈ tree.located path) : path <+: found.1 := by
  obtain ⟨below, hpath, -⟩ := mem_located.1 h
  exact ⟨below, hpath.symm⟩

/-- They come in the order of their paths. -/
theorem pairwise_located (tree : Tree m α) :
    ∀ path : Path, (tree.located path).Pairwise fun a b => a.1 < b.1 := by
  induction tree using Tree.induction with
  | node tree ih =>
      intro path
      rw [located_eq]
      apply Path.pairwise_cons_flatMap
      · exact fun entry _ found hfound => path_prefix_of_mem_located hfound
      · exact fun entry hentry => ih entry.1 (List.fst_mem_of_mem_zipIdx hentry) _

/-- The depth of a node is the length of its path. -/
theorem preorder_eq_map (tree : Tree m α) :
    ∀ path : Path, tree.preorder path.length
      = (tree.located path).map fun found => (found.1.length, found.2) := by
  induction tree using Tree.induction with
  | node tree ih =>
      intro path
      rw [preorder_eq, located_eq, List.map_cons, List.map_flatMap, flatMap_eq_zipIdx]
      congr 1
      refine List.flatMap_congr fun entry hentry => ?_
      have hchild := ih entry.1 (List.fst_mem_of_mem_zipIdx hentry) (path ++ [entry.2])
      rwa [List.length_append, List.length_singleton] at hchild

-- =============================================================== the usage

/-- The texts of the chains on the way along a path, both ends included. -/
def textsAlong (tree : Tree m α) (path : Path) : List String :=
  path.inits.filterMap fun above => (tree.at? above).bind chainText

/-- A line of the usage: texts, joined by spaces. An empty one takes no part. -/
def joined (texts : List String) : String :=
  " ".intercalate (texts.filter (!·.isEmpty))

/-- The buffer at a node: it is cut back to the depth of the node, and the text
of the node is put behind. A node without a chain has an empty one. -/
def buffer (path : List String) (entry : Nat × Tree m α) : List String :=
  path.take entry.1 ++ [entry.2.chainText.getD ""]

/-- At a node that can be executed the buffer is told. -/
def tell (state : List String × List String) (entry : Nat × Tree m α) :
    List String × List String :=
  let path := buffer state.1 entry
  (path, if entry.2.isExecutable then state.2 ++ [joined path] else state.2)

/-- The usage told from the nodes as they come. -/
def told (entries : List (Nat × Tree m α)) : List String :=
  (entries.foldl tell ([], [])).2

theorem textsAlong_append (tree : Tree m α) (path : Path) (place : Nat) :
    tree.textsAlong (path ++ [place])
      = tree.textsAlong path
        ++ ((tree.at? (path ++ [place])).bind chainText).toList := by
  unfold textsAlong
  rw [List.inits_append, List.filterMap_append]
  show _ ++ [path ++ [place]].filterMap _ = _
  rw [List.filterMap_cons]
  cases (tree.at? (path ++ [place])).bind chainText <;> rfl

/-- The part of a node is its text, unless this is empty. -/
theorem usagePart_eq (tree : Tree m α) :
    tree.usagePart = tree.chainText.toList.filter (!·.isEmpty) :=
  Option.toList_filter

/-- An empty text stands for a node without a chain. -/
theorem filter_buffer {path above : List String} {depth : Nat} (h : path.take depth = above)
    (tree : Tree m α) :
    (buffer path (depth, tree)).filter (!·.isEmpty)
      = above.filter (!·.isEmpty) ++ tree.usagePart := by
  unfold buffer
  rw [h, List.filter_append, usagePart_eq]
  cases tree.chainText <;> rfl

/-- Going through a node and all below it tells its usage, and leaves the buffer
as it was up to the depth of the node. -/
def Tells (tree : Tree m α) : Prop :=
  ∀ {depth : Nat} {path above : List String} (out : List String),
    path.take depth = above → above.length = depth →
    ∃ behind : List String, behind.take depth = above
      ∧ (tree.preorder depth).foldl tell (path, out)
        = (behind, out ++ tree.usageFrom (above.filter (!·.isEmpty)))

/-- Of several nodes at a depth, each finds the buffer as the one before found
it. -/
theorem foldl_tell_flatMap {depth : Nat} {above : List String} (hlength : above.length = depth)
    {trees : List (Tree m α)} (h : ∀ tree ∈ trees, tree.Tells) :
    ∀ {path : List String} (out : List String), path.take depth = above →
      ∃ behind : List String, behind.take depth = above
        ∧ (trees.flatMap (preorder depth)).foldl tell (path, out)
          = (behind, out ++ usageAll (above.filter (!·.isEmpty)) trees) := by
  induction trees with
  | nil =>
      intro path out hpath
      exact ⟨path, hpath, by rw [usageAll, List.append_nil]; rfl⟩
  | cons tree rest ih =>
      intro path out hpath
      obtain ⟨htree, hrest⟩ := List.forall_mem_cons.1 h
      obtain ⟨between, hbetween, hfirst⟩ := htree out hpath hlength
      obtain ⟨behind, hbehind, hothers⟩ :=
        ih hrest (out ++ tree.usageFrom (above.filter (!·.isEmpty))) hbetween
      refine ⟨behind, hbehind, ?_⟩
      rw [List.flatMap_cons, List.foldl_append, hfirst, hothers, usageAll, List.append_assoc]

theorem foldl_tell_preorder (tree : Tree m α) : tree.Tells := by
  induction tree using Tree.induction with
  | node tree ih =>
      intro depth path above out hpath hlength
      have hparts := filter_buffer hpath tree
      have hbuffer : buffer path (depth, tree) = above ++ [tree.chainText.getD ""] := by
        unfold buffer
        rw [hpath]
      have hown : (buffer path (depth, tree)).length = depth + 1 := by
        rw [hbuffer, List.length_append, List.length_singleton, hlength]
      obtain ⟨behind, hbehind, hchildren⟩ := foldl_tell_flatMap hown ih
        (if tree.isExecutable then out ++ [joined (buffer path (depth, tree))] else out)
        (List.take_of_length_le (Nat.le_of_eq hown))
      refine ⟨behind, ?_, ?_⟩
      · have hcut : (behind.take (depth + 1)).take depth = above := by
          rw [hbehind, hbuffer, ← hlength, List.take_left]
        rwa [List.take_take, Nat.min_eq_left (Nat.le_succ depth)] at hcut
      · rw [preorder_eq, List.foldl_cons]
        refine hchildren.trans ?_
        rw [usageFrom_eq, joined, hparts]
        split
        · rw [List.append_assoc]
        · rw [List.nil_append]

/-- The usage told from the nodes as they come is the usage. -/
theorem told_nodes (tree : Tree m α) : told tree.nodes = tree.usage := by
  obtain ⟨behind, -, htold⟩ := foldl_tell_preorder tree [] (List.take_zero (l := [])) rfl
  exact congrArg Prod.snd htold

/-- Below a node the lines of the usage are those of the nodes there that can be
executed, each with the texts along its path. -/
theorem usageFrom_eq_map {tree node : Tree m α} :
    ∀ {path : Path} {above : List String}, tree.at? path = some node →
      above ++ node.usagePart = (tree.textsAlong path).filter (!·.isEmpty) →
      node.usageFrom above
        = ((node.located path).filter fun found => found.2.isExecutable).map fun found =>
          joined (tree.textsAlong found.1) := by
  induction node using Tree.induction with
  | node node ih =>
      intro path above hnode hparts
      have hchildren : ∀ entry ∈ node.children.zipIdx,
          entry.1.usageFrom ((tree.textsAlong path).filter (!·.isEmpty))
            = ((entry.1.located (path ++ [entry.2])).filter fun found => found.2.isExecutable).map
              fun found => joined (tree.textsAlong found.1) := by
        intro entry hentry
        have hchild := at?_of_child hnode (List.mem_zipIdx_iff_getElem?.1 hentry)
        refine ih entry.1 (List.fst_mem_of_mem_zipIdx hentry) hchild ?_
        rw [textsAlong_append, hchild, Option.bind_some, List.filter_append, usagePart_eq]
      rw [usageFrom_eq, usageAll_eq, hparts, located_eq, List.filter_cons, flatMap_eq_zipIdx,
        List.flatMap_congr hchildren, ← List.map_flatMap, ← List.filter_flatMap]
      cases node.isExecutable <;> rfl

/-- The chain of a node, if it has one, is built of nodes of a spec. -/
def FromSpec (tree : Tree m α) : Prop :=
  ∀ chain, tree.chain = some chain → chain.FromSpec

/-- For each node that can be executed, in order, what a line makes of the texts
along its path. -/
def lines (tree : Tree m α) (line : List String → String) : List String :=
  ((tree.located []).filter fun found => found.2.isExecutable).map fun found =>
    line (tree.textsAlong found.1)

/-- The nodes come in the order of their paths, each once and with the length of
its path as depth, and then there is an end. The usage is told from them: the
lines of those that can be executed, in this order, each of the texts of the
chains along the path, without empty ones. There is no empty one where all
chains are built from specs. -/
theorem iteration_tells_usage (tree : Tree m α) :
    (tree.located []).Pairwise (fun a b => a.1 < b.1)
      ∧ (∀ path node, (path, node) ∈ tree.located [] ↔ tree.at? path = some node)
      ∧ (∀ entries, Yields [(0, tree)] entries
        ↔ entries = (tree.located []).map fun found => (found.1.length, found.2))
      ∧ (∀ entries, Yields [(0, tree)] entries → told entries = tree.usage)
      ∧ tree.usage = tree.lines joined
      ∧ (tree.Every FromSpec → tree.usage = tree.lines (" ".intercalate ·)) := by
  have hnodes : tree.nodes = (tree.located []).map fun found => (found.1.length, found.2) :=
    preorder_eq_map tree []
  have hyields : ∀ entries, Yields [(0, tree)] entries ↔ entries = tree.nodes := fun entries => by
    rw [yields_iff, held_root]
  have husage : tree.usage = tree.lines joined := by
    refine usageFrom_eq_map rfl ?_
    rw [List.nil_append, usagePart_eq]
    cases h : tree.chainText <;> simp [textsAlong, at?, h]
  refine ⟨pairwise_located tree [], fun path node => ?_, fun entries => ?_, fun entries h => ?_,
    husage, fun h => ?_⟩
  · rw [mem_located]
    simp
  · rw [hyields, hnodes]
  · rw [(hyields entries).1 h, told_nodes]
  · rw [husage]
    refine List.map_congr_left fun found _ => ?_
    unfold joined
    rw [List.filter_eq_self.2]
    intro text htext
    obtain ⟨above, -, habove⟩ := List.mem_filterMap.1 htext
    obtain ⟨node, hnode, hown⟩ := Option.bind_eq_some_iff.1 habove
    obtain ⟨chain, hchain, rfl⟩ := Option.map_eq_some_iff.1 hown
    simpa using (h above node hnode chain hchain).text_ne_empty

/-- A node of a spec that can be executed. -/
def command (spec : String) (children : List (Tree (ReaderM Unit) Unit)) :
    Tree (ReaderM Unit) Unit where
  chain := (Chain.ofSpec .standard spec).toOption
  handlers := { execute := some trade }
  children

/-- Two commands, and below the first a node without a chain above another
one. -/
def harbor : Tree (ReaderM Unit) Unit :=
  { children := [command "dock" [{ children := [command "ship @int" []] }], command "leave" []] }

/-- Behind the node at depth three comes one at depth one. -/
theorem harbor_iteration_tells_usage :
    (harbor.located []).map Prod.fst = [[], [0], [0, 0], [0, 0, 0], [1]]
      ∧ harbor.usage = ["dock", "dock ship @int", "leave"]
      ∧ harbor.usage = harbor.lines (" ".intercalate ·) := by
  have hcommand : ∀ (spec : String) {children : List (Tree (ReaderM Unit) Unit)},
      (∀ child ∈ children, child.Every FromSpec) → (command spec children).Every FromSpec :=
    fun _ _ hchildren =>
      every_iff.2 ⟨fun _ hchain => Chain.fromSpec_of_toOption hchain, hchildren⟩
  have hgroup : ∀ {children : List (Tree (ReaderM Unit) Unit)},
      (∀ child ∈ children, child.Every FromSpec) →
      ({ children } : Tree (ReaderM Unit) Unit).Every FromSpec :=
    fun hchildren => every_iff.2 ⟨fun _ hchain => (nomatch hchain), hchildren⟩
  have hship := hcommand "ship @int" (List.forall_mem_nil _)
  have hdock := hcommand "dock" (List.forall_mem_singleton.2
    (hgroup (List.forall_mem_singleton.2 hship)))
  have hleave := hcommand "leave" (List.forall_mem_nil _)
  have hharbor := hgroup (List.forall_mem_cons.2 ⟨hdock, List.forall_mem_singleton.2 hleave⟩)
  exact ⟨by decide +kernel, by decide +kernel,
    (iteration_tells_usage harbor).2.2.2.2.2 hharbor⟩

end Tree

end CommandGrammar
