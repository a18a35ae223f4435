/-
What the arguments for words and whole numbers propose. An argument with a
list of words, or with both bounds of a range, takes whatever it proposes
(`Reader.TakesProposals`); any other one proposes to go on with what was
typed and shows a placeholder for it (`Reader.ProposesTyped`). Which of
the two it is can be read off its node (`Argument.lists`).
-/
import CommandGrammar.Proofs.Argument.Listing
import CommandGrammar.Proofs.Argument.Standard

namespace CommandGrammar

open Text

variable {α : Type}

/-- A reader takes what it proposes. -/
def Reader.TakesProposals (reader : Reader α) : Prop :=
  ∀ line, ∀ group ∈ reader.suggest line, ∀ suggestion ∈ group,
    ∃ value, reader.readWord suggestion.value = .ok value

/-- A reader proposes nothing but to go on with what was typed. -/
def Reader.ProposesTyped (reader : Reader α) (hint : Hint) : Prop :=
  ∀ line, ∀ group ∈ reader.suggest line, ∀ suggestion ∈ group,
    suggestion = hint.freeInput line.current

namespace Choice

theorem takesProposals_reader {choice : Choice} (h : choice.options.isSome) :
    (choice.reader : Reader α).TakesProposals := by
  obtain ⟨options, hoptions⟩ := Option.isSome_iff_exists.1 h
  intro line group hgroup suggestion hsuggestion
  have hgroup : group ∈ choice.suggest line := hgroup
  unfold suggest at hgroup
  rw [hoptions] at hgroup
  dsimp only at hgroup
  rw [mem_alone hgroup] at hsuggestion
  obtain ⟨word, hword, rfl⟩ := List.mem_map.1 hsuggestion
  have haccepts : choice.accepts word = true := by
    unfold accepts
    rw [hoptions]
    exact List.contains_iff_mem.2 (List.mem_filter.1 hword).1
  exact ⟨.text word, if_pos haccepts⟩

theorem proposesTyped_reader {choice : Choice} (h : choice.options = none) :
    (choice.reader : Reader α).ProposesTyped choice.hint := by
  intro line group hgroup suggestion hsuggestion
  have hgroup : group ∈ choice.suggest line := hgroup
  unfold suggest at hgroup
  rw [h] at hgroup
  dsimp only at hgroup
  rw [List.mem_singleton.1 hgroup] at hsuggestion
  exact List.mem_singleton.1 hsuggestion

end Choice

namespace Number.Bounded

/-- A bound is set where the node has one. -/
theorem isSome_of_bound {N : Type} [LT N] [Number N] {node : Spec.Node} {key : String}
    {limit : Option N} (h : bound N node key = .ok limit) :
    limit.isSome = (node.parameters.get? key).isSome := by
  unfold bound at h
  cases hvalue : node.parameters.get? key with
  | none =>
      rw [hvalue] at h
      injection h with h
      rw [← h]
      rfl
  | some value =>
      rw [hvalue] at h
      dsimp only at h
      split at h
      · injection h with h
        rw [← h]
        rfl
      · cases h

theorem of_ofNode {N : Type} [LT N] [Number N] {node : Spec.Node} {bounded : Bounded N}
    (h : ofNode N node = .ok bounded) :
    bounded.min.isSome = (node.parameters.get? "min").isSome
      ∧ bounded.max.isSome = (node.parameters.get? "max").isSome
      ∧ bounded.hint = .ofNode node := by
  obtain ⟨min, hmin, h⟩ := eq_ok_of_bind_eq_ok h
  obtain ⟨max, hmax, h⟩ := eq_ok_of_bind_eq_ok h
  injection h with h
  rw [← h]
  exact ⟨isSome_of_bound hmin, isSome_of_bound hmax, rfl⟩

/-- A listed number is within the bounds, and is read from its text. -/
theorem takesProposals_reader {bounded : Bounded Int64} (hmin : bounded.min.isSome)
    (hmax : bounded.max.isSome) : (bounded.reader : Reader α).TakesProposals := by
  obtain ⟨min, hmin⟩ := Option.isSome_iff_exists.1 hmin
  obtain ⟨max, hmax⟩ := Option.isSome_iff_exists.1 hmax
  intro line group hgroup suggestion hsuggestion
  have hgroup : group ∈ bounded.suggest line := hgroup
  unfold suggest at hgroup
  split at hgroup
  case isFalse => cases hgroup
  case isTrue htyped =>
    rw [hmin, hmax] at hgroup
    dsimp only at hgroup
    rw [mem_alone hgroup] at hsuggestion
    obtain ⟨n, hn, rfl⟩ := List.mem_map.1 hsuggestion
    have hlisted : n ∈ Integer.listed min max line.current suggestionLimit := hn
    rw [Integer.listed_eq_take_scan htyped] at hlisted
    obtain ⟨hlow, hhigh, -⟩ := Integer.mem_scan.1 (List.mem_of_mem_take hlisted)
    have hcheck : bounded.check n = .ok n := by
      unfold check
      rw [hmin, hmax]
      dsimp only
      rw [if_neg (Int64.not_lt.2 hlow), if_neg (Int64.not_lt.2 hhigh)]
      rfl
    have hnumber : Number.read (toString n.toInt) = .ok n := Integer.read_toString n
    have hread : bounded.readWord (α := α) (toString n.toInt) = .ok (.int n) := by
      unfold readWord
      rw [hnumber]
      show (do
        let n ← bounded.check n
        return toValue n) = _
      rw [hcheck]
      rfl
    exact ⟨.int n, hread⟩

theorem proposesTyped_reader {bounded : Bounded Int64}
    (h : (bounded.min.isSome && bounded.max.isSome) = false) :
    (bounded.reader : Reader α).ProposesTyped bounded.hint := by
  intro line group hgroup suggestion hsuggestion
  have hgroup : group ∈ bounded.suggest line := hgroup
  unfold suggest at hgroup
  split at hgroup
  case isFalse => cases hgroup
  case isTrue =>
    split at hgroup
    case h_1 min max hmin hmax =>
      rw [hmin, hmax] at h
      cases h
    case h_2 =>
      rw [List.mem_singleton.1 hgroup] at hsuggestion
      exact List.mem_singleton.1 hsuggestion

end Number.Bounded

/-- Whether what an argument proposes are the words of a list, or the
numbers of a range. -/
def Argument.lists (argument : Argument α) : Bool :=
  match Registry.kindOf argument.node with
  | "literal" => true
  | "string" => (argument.node.parameters.get? "options").isSome
  | _ => (argument.node.parameters.get? "min").isSome
      && (argument.node.parameters.get? "max").isSome

/-- The kinds of words and of whole numbers. -/
def Registry.listedKinds : List String :=
  ["literal", "string", "int", "integer", "long"]

theorem Argument.lists_of_integer {argument : Argument α}
    (h : Registry.kindOf argument.node = "int" ∨ Registry.kindOf argument.node = "integer"
      ∨ Registry.kindOf argument.node = "long") :
    argument.lists = ((argument.node.parameters.get? "min").isSome
      && (argument.node.parameters.get? "max").isSome) := by
  unfold lists
  rcases h with h | h | h <;> rw [h] <;> rfl

/-- An argument of these kinds takes what it proposes from a list or a
range, or it proposes to go on with what was typed. -/
theorem Argument.proposes_of_ofNode {node : Spec.Node} {argument : Argument α}
    (hbuilt : ofNode .standard node = .ok argument)
    (hkind : Registry.kindOf node ∈ Registry.listedKinds) :
    (argument.lists = true → argument.reader.TakesProposals)
      ∧ (argument.lists = false → argument.reader.ProposesTyped (.ofNode node)) := by
  have hcreate := create_of_ofNode hbuilt
  obtain rfl : argument.node = node := by
    obtain ⟨reader, -, rfl, -⟩ := exists_reader_of_ofNode hbuilt
    rfl
  have hcases : Registry.kindOf argument.node = "literal" ∨ Registry.kindOf argument.node = "string"
      ∨ Registry.kindOf argument.node = "int" ∨ Registry.kindOf argument.node = "integer"
      ∨ Registry.kindOf argument.node = "long" := by
    simpa [Registry.listedKinds] using hkind
  rcases hcases with hliteral | hstring | hinteger
  · rw [Registry.create_literal hliteral] at hcreate
    injection hcreate with hreader
    rw [← hreader]
    have hlists : argument.lists = true := by
      unfold lists
      rw [hliteral]
      rfl
    rw [hlists]
    exact ⟨fun _ => Choice.takesProposals_reader rfl, nofun⟩
  · rw [Registry.create_string hstring] at hcreate
    injection hcreate with hreader
    rw [← hreader]
    have hlists : argument.lists = (argument.node.parameters.get? "options").isSome := by
      unfold lists
      rw [hstring]
      rfl
    have hoptions : (Choice.string argument.node).options
        = (argument.node.parameters.get? "options").map Choice.optionsOf := rfl
    rw [hlists]
    refine ⟨fun h => Choice.takesProposals_reader ?_, fun h => ?_⟩
    · rw [hoptions, Option.isSome_map]
      exact h
    · refine Choice.proposesTyped_reader ?_
      rw [hoptions, Option.map_eq_none_iff]
      simpa using h
  · rw [Registry.create_integer hinteger] at hcreate
    obtain ⟨bounded, hbounded, hreader⟩ := eq_ok_of_bind_eq_ok hcreate
    injection hreader with hreader
    obtain ⟨hmin, hmax, hhint⟩ := Number.Bounded.of_ofNode hbounded
    rw [← hreader, lists_of_integer hinteger, ← hmin, ← hmax, ← hhint]
    refine ⟨fun h => ?_, fun h => ?_⟩
    · obtain ⟨hmin, hmax⟩ := Bool.and_eq_true_iff.1 h
      exact Number.Bounded.takesProposals_reader hmin hmax
    · exact Number.Bounded.proposesTyped_reader h

end CommandGrammar
