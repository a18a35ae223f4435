/-
Lists of parameters that stand alone. What is read of such a list is what is
read of it behind the name of a node, for every text (`head?_nodesOf_open`),
and a list that is taken out of the parentheses of a written node is read
back (`parameters_writeEntries`).
-/
import CommandGrammar.Proofs.Spec.Scanner

namespace CommandGrammar.Spec

open Text

/-- The first node of a text that opens a list has what is read of the list. -/
theorem head?_nodesOf_open {name : List Char} (hname : ∀ c ∈ name, isNameChar c = true)
    (hne : trim name ≠ []) (text : List Char) :
    (nodesOf (name ++ '(' :: text)).head?
      = some ⟨String.ofList (trim name), parametersOf (entries text).1⟩ := by
  have hnode : ∀ parameters, node? name parameters = some ⟨String.ofList (trim name), parameters⟩ :=
    fun parameters => if_neg (by simp [hne])
  rw [nodesOf_of_name (dropWhile_append_cons hname (by decide)), if_pos rfl,
    takeWhile_append_cons hname (by decide), hnode]
  rfl

section Written

variable {parameters : Parameters}

/-- The characters of a written node with parameters. -/
theorem text_eq (hne : parameters.isEmpty = false) (name : String) :
    (⟨name, parameters⟩ : Node).text
      = name ++ "(" ++ String.ofList (Node.writeEntries parameters.entries) ++ ")" := by
  have hwrite : (⟨name, parameters⟩ : Node).write
      = name.toList ++ '(' :: Node.writeEntries parameters.entries ++ [')'] :=
    if_neg (by simp [hne])
  rw [← String.toList_inj, Node.text, String.toList_ofList, hwrite]
  simp only [String.toList_append, String.toList_ofList, List.append_assoc]
  rfl

/-- What is written between the parentheses is read back without them. -/
theorem parameters_writeEntries
    (hkeys : ∀ entry ∈ parameters.entries, KeyWellFormed entry.1.toList) :
    Spec.parameters (String.ofList (Node.writeEntries parameters.entries)) = parameters := by
  have hend : ∀ c ∈ ([] : List Char).head?, c = ')' := fun _ hc => by cases hc
  unfold Spec.parameters
  rw [String.toList_ofList]
  by_cases hne : parameters.entries = []
  · obtain rfl : parameters = ∅ := Dictionary.ext hne
    -- one entry without a key
    have hread : entries [] = ([([], [])], []) := entries_of_last rfl hend
    exact congrArg (fun list => parametersOf list.1) hread
  · have hread := entries_writeEntries hne hkeys hend
    rw [List.append_nil] at hread
    rw [hread, parametersOf_entries hkeys]

end Written

/-- A list of parameters is read alike wherever it stands. A spec and a bare
list are each read by one pass of the same scanner. Whatever the text, closed
or not, the first node behind a name that opens it has the parameters that the
text gives on its own. And what stands between the parentheses of a written
node gives the parameters of the node. -/
theorem parameters_as_in_node :
    (∀ text : String, nodes text = Scanner.nodesIn text
        ∧ parameters text = Scanner.parametersIn text)
      ∧ (∀ text : String,
          (nodes ("x(" ++ text)).head?.map Node.parameters = some (parameters text))
      ∧ ∀ given : Parameters, (∀ entry ∈ given.entries, KeyWellFormed entry.1.toList) →
          let list := String.ofList (Node.writeEntries given.entries)
          parameters list = given
            ∧ (given.isEmpty = false → ∀ name,
                (⟨name, given⟩ : Node).text = name ++ "(" ++ list ++ ")") := by
  refine ⟨fun text => ⟨nodes_eq_scan text, parameters_eq_readList text⟩, fun text => ?_,
    fun given hkeys => ⟨parameters_writeEntries hkeys, text_eq⟩⟩
  have htext : ("x(" ++ text).toList = ['x'] ++ '(' :: text.toList := String.toList_append ..
  have hopen : (nodesOf (['x'] ++ '(' :: text.toList)).head?
      = some ⟨String.ofList (trim ['x']), parametersOf (entries text.toList).1⟩ :=
    head?_nodesOf_open (List.forall_mem_singleton.2 (by decide)) (by decide) _
  rw [nodes, htext, hopen]
  rfl

/-- A list with a parenthesis between quotes and another node behind it, and
parameters with a value of many sorts of characters and an empty one. -/
theorem awkward_as_in_node :
    let list := "a=')', b = \"x\\\"\" y) c(d=e"
    let awkward : Parameters := .ofList [("to whom", " it's \\ (a), b "), ("(loud", "")]
    (nodes ("x(" ++ list)).head?.map Node.parameters
        = some (.ofList [("a", ")"), ("b", "x\"")])
      ∧ (∀ entry ∈ awkward.entries, KeyWellFormed entry.1.toList)
      ∧ parameters (String.ofList (Node.writeEntries awkward.entries)) = awkward
      ∧ (⟨"say", awkward⟩ : Node).text
        = "say" ++ "(" ++ String.ofList (Node.writeEntries awkward.entries) ++ ")" := by
  intro list awkward
  have hread : parameters list = .ofList [("a", ")"), ("b", "x\"")] := by decide +kernel
  have hkeys : ∀ entry ∈ awkward.entries, KeyWellFormed entry.1.toList := by decide +kernel
  have hwritten := parameters_as_in_node.2.2 awkward hkeys
  refine ⟨?_, hkeys, hwritten.1, hwritten.2 (by decide +kernel) "say"⟩
  rw [← hread]
  exact parameters_as_in_node.2.1 list

end CommandGrammar.Spec
