/-
How the standard kinds of arguments move a line. Binding one argument
passes one word at most (`next_of_bindOne`), so binding all of them, and
with it matching a chain, leaves the word being completed what it was,
as far as it is left at all (`typed?_of_parse`).
-/
import CommandGrammar.Chain.Match
import CommandGrammar.Proofs.Argument.Standard
import CommandGrammar.Proofs.Chain.Switch

namespace CommandGrammar.Chain

variable {α : Type}

/-- An argument passes no word or takes the next one. -/
theorem next_of_bindOne {switches : List (Nat × Option (Value α))} {place : Nat}
    {line behind : Line} {argument : Argument α} {value : Option (Value α)}
    (hstandard : argument.reader.Standard)
    (h : bindOne switches place line argument = .ok (value, behind)) :
    behind = line ∨ ∃ word, line.next = .ok (word, behind) := by
  -- what stands in for missing words is read from a line of its own
  have hmissing : argument.missing.map (·, line) = .ok (value, behind) → behind = line := by
    intro h
    obtain ⟨found, -, h⟩ := eq_ok_of_map_eq_ok h
    injection h with _ hline
    exact hline.symm
  unfold bindOne at h
  split at h
  · split at h
    · injection h with h
      injection h with _ hline
      exact Or.inl hline.symm
    · exact Or.inl (hmissing h)
  · split at h
    · exact Or.inl (hmissing h)
    · obtain ⟨⟨found, rest⟩, hread, h⟩ := eq_ok_of_map_eq_ok h
      injection h with _ hline
      obtain ⟨word, hnext, -⟩ := hstandard.read_eq_ok hread
      exact Or.inr ⟨word, hline ▸ hnext⟩

/-- Binding several arguments is binding the first and then the others. -/
theorem bindAll_cons_eq_ok {switches : List (Nat × Option (Value α))} {place consumed : Nat}
    {line : Line} {argument : Argument α} {rest : List (Argument α)} {matched : Match α}
    (h : bindAll switches place consumed line (argument :: rest) = .ok matched) :
    ∃ value behind others, bindOne switches place line argument = .ok (value, behind)
      ∧ bindAll switches (place + 1) (consumed + (behind.index - line.index)) behind rest
        = .ok others
      ∧ matched = { others with bindings := ⟨value, argument.suppressed⟩ :: others.bindings } := by
  rw [bindAll] at h
  split at h
  case h_1 => cases h
  case h_2 value behind hone =>
    obtain ⟨others, hothers, h⟩ := eq_ok_of_map_eq_ok h
    exact ⟨value, behind, others, hone, hothers, h.symm⟩

/-- Binding leaves the word being completed. -/
theorem typed?_of_bindAll {switches : List (Nat × Option (Value α))} {word : String}
    {arguments : List (Argument α)} :
    ∀ {place consumed : Nat} {line : Line} {matched : Match α},
      (∀ argument ∈ arguments, argument.reader.Standard) →
      bindAll switches place consumed line arguments = .ok matched →
      matched.rest.typed? = some word → line.typed? = some word := by
  induction arguments with
  | nil =>
      intro place consumed line matched _ h htyped
      injection h with h
      rw [← h] at htyped
      exact htyped
  | cons argument rest ih =>
      intro place consumed line matched hstandard h htyped
      obtain ⟨value, behind, others, hone, hothers, rfl⟩ := bindAll_cons_eq_ok h
      have hbehind : behind.typed? = some word :=
        ih (fun other hother => hstandard other (List.mem_cons_of_mem _ hother)) hothers htyped
      rcases next_of_bindOne (hstandard argument (List.mem_cons_self ..)) hone with
        rfl | ⟨passed, hnext⟩
      · exact hbehind
      · exact Line.typed?_next hnext hbehind

theorem parse_eq_ok {chain : Chain α} {line : Line} {matched : Match α}
    (h : chain.parse line = .ok matched) :
    ∃ switches consumed, readGiven 0 (chain.given none line) = .ok (switches, consumed)
      ∧ bindAll switches 0 consumed (withoutGiven (chain.given none line) line) chain.arguments
        = .ok matched := by
  unfold parse at h
  dsimp only at h
  split at h
  case h_1 => cases h
  case h_2 switches consumed hread => exact ⟨switches, consumed, hread, h⟩

/-- Matching a chain leaves the word being completed. -/
theorem typed?_of_parse {chain : Chain α} (hstandard : chain.Standard) {line : Line}
    {matched : Match α} (h : chain.parse line = .ok matched) {word : String}
    (htyped : matched.rest.typed? = some word) : line.typed? = some word := by
  obtain ⟨switches, consumed, -, hbind⟩ := parse_eq_ok h
  exact Line.typed?_remove (nodup_positions_given chain none line)
    (typed?_of_bindAll hstandard hbind htyped)

end CommandGrammar.Chain
