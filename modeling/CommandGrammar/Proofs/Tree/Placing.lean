/-
Other nodes in the places of a tree. `put` is the tree with another node at the
end of a path: changing a node is putting the changed one there
(`alter?_eq_put`), and of two such changes, one at a node and one below it, the
first can make both (`put_put`).

`Within` says that nothing of a tree is lost in another one: every node is at
the end of the same path, with the same chain, text and handlers. It holds of
the whole tree if it holds of the node that is changed and of the one put there
(`Within.put`): the nodes elsewhere stay what they are, by induction over the path
(`below_or_retained`).
-/
import CommandGrammar.Proofs.Tree.Visit

namespace CommandGrammar.Tree

variable {m : Type → Type} {α : Type}

-- =============================================================== replacing

theorem at?_cons {tree child : Tree m α} {place : Nat}
    (hchild : tree.children[place]? = some child) (rest : Path) :
    tree.at? (place :: rest) = child.at? rest := by
  rw [at?, hchild, Option.bind_some]

/-- The tree with another node at the end of a path; itself if the path leads
nowhere. -/
def put (tree : Tree m α) : Path → Tree m α → Tree m α
  | [], node => node
  | place :: rest, node =>
      match tree.children[place]? with
      | some child => { tree with children := tree.children.set place (child.put rest node) }
      | none => tree

theorem put_cons {tree child : Tree m α} {place : Nat}
    (hchild : tree.children[place]? = some child) (rest : Path) (node : Tree m α) :
    tree.put (place :: rest) node
      = { tree with children := tree.children.set place (child.put rest node) } := by
  rw [put, hchild]

theorem getElem?_put {tree child : Tree m α} {place : Nat}
    (hchild : tree.children[place]? = some child) (rest : Path) (node : Tree m α) :
    (tree.put (place :: rest) node).children[place]? = some (child.put rest node) := by
  rw [put_cons hchild]
  exact List.getElem?_set_self (List.getElem?_eq_some_iff.1 hchild).1

/-- Changing a node is putting the changed node there. -/
theorem alter?_eq_put {β : Type} (change : Tree m α → Tree m α × β) {path : Path} :
    ∀ {tree node : Tree m α}, tree.at? path = some node →
      tree.alter? change path = some (tree.put path (change node).1, (change node).2) := by
  induction path with
  | nil =>
      intro tree node hnode
      obtain rfl := Option.some.inj hnode
      rfl
  | cons place rest ih =>
      intro tree node hnode
      obtain ⟨child, hchild, hbelow⟩ := Option.bind_eq_some_iff.1 hnode
      rw [alter?, hchild, Option.bind_some, ih hbelow, put_cons hchild]
      rfl

theorem alter?_eq_none {β : Type} (change : Tree m α → Tree m α × β) {path : Path} :
    ∀ {tree : Tree m α}, tree.at? path = none → tree.alter? change path = none := by
  induction path with
  | nil => exact fun h => by cases h
  | cons place rest ih =>
      intro tree h
      rw [alter?]
      rw [at?] at h
      cases hchild : tree.children[place]? with
      | none => rfl
      | some child =>
          rw [hchild, Option.bind_some] at h
          rw [Option.bind_some, ih h, Option.map_none]

/-- A change is made only at the end of a path that leads to a node. -/
theorem exists_of_alter? {β : Type} {change : Tree m α → Tree m α × β} {path : Path} :
    ∀ {tree grown : Tree m α} {result : β}, tree.alter? change path = some (grown, result) →
      ∃ node, tree.at? path = some node ∧ grown = tree.put path (change node).1
        ∧ result = (change node).2 := by
  intro tree grown result h
  cases hnode : tree.at? path with
  | some node =>
      rw [alter?_eq_put change hnode] at h
      cases h
      exact ⟨node, rfl, rfl, rfl⟩
  | none =>
      rw [alter?_eq_none change hnode] at h
      cases h

theorem put_self {path : Path} :
    ∀ {tree node : Tree m α}, tree.at? path = some node → tree.put path node = tree := by
  induction path with
  | nil => exact fun hnode => (Option.some.inj hnode).symm
  | cons place rest ih =>
      intro tree node hnode
      obtain ⟨child, hchild, hbelow⟩ := Option.bind_eq_some_iff.1 hnode
      obtain ⟨hplace, rfl⟩ := List.getElem?_eq_some_iff.1 hchild
      rw [put_cons hchild, ih hbelow, List.set_getElem_self hplace]
      cases tree
      rfl

/-- Below a node that was put there, the tree is that node. -/
theorem at?_put {path : Path} (node : Tree m α) (below : Path) :
    ∀ {tree old : Tree m α}, tree.at? path = some old →
      (tree.put path node).at? (path ++ below) = node.at? below := by
  induction path with
  | nil => exact fun _ => rfl
  | cons place rest ih =>
      intro tree old hold
      obtain ⟨child, hchild, hbelow⟩ := Option.bind_eq_some_iff.1 hold
      rw [List.cons_append, at?_cons (getElem?_put hchild rest node), ih hbelow]

theorem put_put {path : Path} (first : Tree m α) (below : Path) (second : Tree m α) :
    ∀ {tree old : Tree m α}, tree.at? path = some old →
      (tree.put path first).put (path ++ below) second
        = tree.put path (first.put below second) := by
  induction path with
  | nil => exact fun _ => rfl
  | cons place rest ih =>
      intro tree old hold
      obtain ⟨child, hchild, hbelow⟩ := Option.bind_eq_some_iff.1 hold
      rw [List.cons_append, put_cons (getElem?_put hchild rest first), put_cons hchild,
        put_cons hchild, ih hbelow]
      simp

-- ================================================================= keeping

/-- A node that is still what it was, and has at least the children it had. -/
structure Retains (node kept : Tree m α) : Prop where
  /-- It has the same chain. -/
  chain : kept.chain = node.chain
  /-- It puts the same text into the line. -/
  expansion : kept.expansion = node.expansion
  /-- It has the same handlers. -/
  handlers : kept.handlers = node.handlers
  /-- It has lost no child. -/
  children : node.children.length ≤ kept.children.length

theorem Retains.refl (node : Tree m α) : node.Retains node :=
  ⟨rfl, rfl, rfl, Nat.le_refl _⟩

theorem Retains.trans {a b c : Tree m α} (hab : a.Retains b) (hbc : b.Retains c) : a.Retains c where
  chain := hbc.chain.trans hab.chain
  expansion := hbc.expansion.trans hab.expansion
  handlers := hbc.handlers.trans hab.handlers
  children := Nat.le_trans hab.children hbc.children

/-- Where another node is put at the end of a path, a node of the tree lies below
that end, or it stays and retains what it has. -/
theorem below_or_retained {path : Path} (grown : Tree m α) :
    ∀ {tree node found : Tree m α} {other : Path}, tree.at? path = some node →
      tree.at? other = some found →
      (∃ below, other = path ++ below ∧ node.at? below = some found)
        ∨ ∃ kept, (tree.put path grown).at? other = some kept ∧ found.Retains kept := by
  induction path with
  | nil =>
      intro tree node found other hnode hfound
      obtain rfl := Option.some.inj hnode
      exact Or.inl ⟨other, rfl, hfound⟩
  | cons place rest ih =>
      intro tree node found other hnode hfound
      obtain ⟨child, hchild, hbelow⟩ := Option.bind_eq_some_iff.1 hnode
      rw [put_cons hchild]
      cases other with
      | nil =>
          obtain rfl := Option.some.inj hfound
          exact Or.inr ⟨_, rfl, rfl, rfl, rfl, by simp⟩
      | cons first others =>
          obtain ⟨passed, hpassed, hfound⟩ := Option.bind_eq_some_iff.1 hfound
          by_cases hsame : place = first
          · subst hsame
            obtain rfl : child = passed := Option.some.inj (hchild.symm.trans hpassed)
            rcases ih hbelow hfound with ⟨below, rfl, hthere⟩ | ⟨kept, hkept, hretains⟩
            · exact Or.inl ⟨below, rfl, hthere⟩
            · refine Or.inr ⟨kept, ?_, hretains⟩
              rw [at?_cons _ others, hkept]
              exact List.getElem?_set_self (List.getElem?_eq_some_iff.1 hchild).1
          · refine Or.inr ⟨found, ?_, .refl found⟩
            rw [at?_cons _ others, hfound]
            exact (List.getElem?_set_ne hsame).trans hpassed

/-- Every node of a tree is in another tree, at the same place, and still what it
was. -/
def Within (tree grown : Tree m α) : Prop :=
  ∀ path node, tree.at? path = some node →
    ∃ kept, grown.at? path = some kept ∧ node.Retains kept

namespace Within

theorem refl (tree : Tree m α) : tree.Within tree :=
  fun _ node hnode => ⟨node, hnode, .refl node⟩

theorem trans {a b c : Tree m α} (hab : a.Within b) (hbc : b.Within c) : a.Within c := by
  intro path node hnode
  obtain ⟨between, hbetween, hfirst⟩ := hab path node hnode
  obtain ⟨kept, hkept, hsecond⟩ := hbc path between hbetween
  exact ⟨kept, hkept, hfirst.trans hsecond⟩

theorem root {tree grown : Tree m α} (h : tree.Within grown) : tree.Retains grown := by
  obtain ⟨kept, hkept, hretains⟩ := h [] tree rfl
  rwa [Option.some.inj hkept]

/-- One more child leaves all others in their places. -/
theorem add (tree child : Tree m α) :
    tree.Within { tree with children := tree.children ++ [child] } := by
  intro path node hnode
  cases path with
  | nil =>
      obtain rfl := Option.some.inj hnode
      exact ⟨_, rfl, rfl, rfl, rfl, by simp⟩
  | cons place rest =>
      obtain ⟨other, hother, hbelow⟩ := Option.bind_eq_some_iff.1 hnode
      refine ⟨node, ?_, .refl node⟩
      rw [at?_cons, hbelow]
      exact (List.getElem?_append_left (List.getElem?_eq_some_iff.1 hother).1).trans hother

/-- What grows at the end of a path grows in the whole tree. -/
theorem put {path : Path} {tree node grown : Tree m α} (hnode : tree.at? path = some node)
    (h : node.Within grown) : tree.Within (tree.put path grown) := by
  intro other found hfound
  rcases below_or_retained grown hnode hfound with ⟨below, rfl, hbelow⟩ | hretained
  · obtain ⟨kept, hkept, hretains⟩ := h below found hbelow
    exact ⟨kept, (at?_put grown below hnode).trans hkept, hretains⟩
  · exact hretained

end Within

end CommandGrammar.Tree
