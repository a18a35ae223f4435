/-
What a chain is built from. Each argument keeps its node, so an argument
that was built is built again from its node, and a chain from its nodes
(`ofNodes_nodes`): what was built one way is the same as what was built
from the same nodes another way.
-/
import CommandGrammar.Proofs.Argument.Standard
import CommandGrammar.Proofs.Chain.Positional

namespace CommandGrammar

variable {α : Type} {registry : Registry α}

namespace Argument

/-- An argument keeps its node, and its switch is what the node says. -/
theorem eq_of_ofNode {node : Spec.Node} {argument : Argument α}
    (h : ofNode registry node = .ok argument) :
    argument.node = node ∧ argument.switch = node.parameters.get? "switch" := by
  obtain ⟨reader, -, rfl, -⟩ := exists_reader_of_ofNode h
  exact ⟨rfl, rfl⟩

theorem required_of_ofNode {node : Spec.Node} {argument : Argument α}
    (h : ofNode registry node = .ok argument) :
    argument.required = node.parameters.flag "required" true := by
  obtain ⟨reader, -, rfl, -⟩ := exists_reader_of_ofNode h
  rfl

/-- An argument that was built is built again from its node. -/
theorem ofNode_of_mem {nodes : List Spec.Node} {arguments : List (Argument α)}
    (h : nodes.mapM (ofNode registry) = .ok arguments) {argument : Argument α}
    (hargument : argument ∈ arguments) :
    argument.node ∈ nodes ∧ ofNode registry argument.node = .ok argument := by
  obtain ⟨node, hnode, hbuilt⟩ := exists_of_mem_of_mapM_eq_ok h argument hargument
  rw [(eq_of_ofNode hbuilt).1]
  exact ⟨hnode, hbuilt⟩

/-- So are several, one by one. -/
theorem mapM_ofNode {arguments : List (Argument α)}
    (h : ∀ argument ∈ arguments, ofNode registry argument.node = .ok argument) :
    (arguments.map node).mapM (ofNode registry) = .ok arguments := by
  induction arguments with
  | nil => rfl
  | cons argument rest ih =>
      obtain ⟨hargument, hrest⟩ := List.forall_mem_cons.1 h
      rw [List.map_cons, List.mapM_cons, hargument, ih hrest]
      rfl

/-- Arguments keep the nodes that they were built from. -/
theorem map_node_of_mapM {nodes : List Spec.Node} :
    ∀ {arguments : List (Argument α)}, nodes.mapM (ofNode registry) = .ok arguments →
      arguments.map node = nodes := by
  induction nodes with
  | nil =>
      intro arguments h
      cases h
      rfl
  | cons first rest ih =>
      intro arguments h
      rw [List.mapM_cons] at h
      obtain ⟨argument, hargument, h⟩ := eq_ok_of_bind_eq_ok h
      obtain ⟨others, hothers, h⟩ := eq_ok_of_bind_eq_ok h
      cases h
      rw [List.map_cons, (eq_of_ofNode hargument).1, ih hothers]

end Argument

namespace Chain

/-- A chain is its arguments, and there is at least one. -/
theorem ofNodes_eq_ok_iff {nodes : List Spec.Node} {chain : Chain α} :
    ofNodes registry nodes = .ok chain
      ↔ nodes.mapM (Argument.ofNode registry) = .ok chain.arguments ∧ chain.arguments ≠ [] := by
  unfold ofNodes
  constructor
  · intro h
    obtain ⟨arguments, harguments, h⟩ := eq_ok_of_bind_eq_ok h
    cases arguments with
    | nil => cases h
    | cons argument rest =>
        injection h with h
        rw [← h]
        exact ⟨harguments, List.cons_ne_nil _ _⟩
  · rintro ⟨harguments, hne⟩
    rw [harguments]
    obtain ⟨arguments⟩ := chain
    cases arguments with
    | nil => exact absurd rfl hne
    | cons argument rest => rfl

/-- The argument at a place was built from the node there. -/
theorem exists_of_getElem?_node {nodes : List Spec.Node} {chain : Chain α}
    (h : ofNodes registry nodes = .ok chain) {place : Nat} {node : Spec.Node}
    (hnode : nodes[place]? = some node) :
    ∃ argument, chain.arguments[place]? = some argument
      ∧ Argument.ofNode registry node = .ok argument := by
  have hbuilt := congrArg (·[place]?) (map_eq_of_mapM_eq_ok (ofNodes_eq_ok_iff.1 h).1)
  simp only [List.getElem?_map, hnode] at hbuilt
  obtain ⟨argument, hargument, hok⟩ := Option.map_eq_some_iff.1 hbuilt.symm
  exact ⟨argument, hargument, hok.symm⟩

/-- A chain keeps the nodes that it was built from. -/
theorem nodes_of_ofNodes {nodes : List Spec.Node} {chain : Chain α}
    (h : ofNodes registry nodes = .ok chain) : chain.nodes = nodes :=
  Argument.map_node_of_mapM (ofNodes_eq_ok_iff.1 h).1

/-- Chains that were built are one chain built of the nodes of both. -/
theorem ofNodes_append {first second : List Spec.Node} {a b : Chain α}
    (ha : ofNodes registry first = .ok a) (hb : ofNodes registry second = .ok b) :
    ofNodes registry (first ++ second) = .ok (a ++ b) := by
  obtain ⟨hfirst, hne⟩ := ofNodes_eq_ok_iff.1 ha
  obtain ⟨hsecond, -⟩ := ofNodes_eq_ok_iff.1 hb
  refine ofNodes_eq_ok_iff.2 ⟨?_, fun h => hne (List.append_eq_nil_iff.1 h).1⟩
  rw [List.mapM_append, hfirst, hsecond]
  rfl

/-- A chain that was built is built again from its nodes. -/
theorem ofNodes_nodes {chain : Chain α} (hne : chain.arguments ≠ [])
    (h : ∀ argument ∈ chain.arguments, Argument.ofNode registry argument.node = .ok argument) :
    ofNodes registry chain.nodes = .ok chain :=
  ofNodes_eq_ok_iff.2 ⟨Argument.mapM_ofNode h, hne⟩

/-- The chain of a single node has a single argument. -/
theorem exists_of_ofNodes_singleton {node : Spec.Node} {chain : Chain α}
    (h : ofNodes registry [node] = .ok chain) :
    ∃ argument, chain = ⟨[argument]⟩ ∧ argument.node = node
      ∧ argument.switch = node.parameters.get? "switch" := by
  obtain ⟨arguments⟩ := chain
  obtain ⟨hbuilt, -⟩ := ofNodes_eq_ok_iff.1 h
  rw [List.mapM_cons] at hbuilt
  obtain ⟨argument, hargument, hbuilt⟩ := eq_ok_of_bind_eq_ok hbuilt
  injection hbuilt with hbuilt
  exact ⟨argument, congrArg Chain.mk hbuilt.symm, Argument.eq_of_ofNode hargument⟩

end Chain

end CommandGrammar
