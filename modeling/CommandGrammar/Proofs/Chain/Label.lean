/-
The label of a line is only shown. A reader that never matches against it
reads the same value from a line under another label, and leaves the same
line under that label; the readers of the standard registry are such
(`ignoresLabel_of_ofNodes`). A chain of such readers matches or falls short
alike (`parse_withLabel`) and proposes the same (`suggest_withLabel`): the
switches are found among the words, and the text that stands in for
missing words is read from a line of its own.
-/
import CommandGrammar.Chain.Completion
import CommandGrammar.Proofs.Chain.Match

namespace CommandGrammar

variable {α : Type}

-- =============================================================== readers

/-- A reader that never matches against the label. -/
structure Reader.IgnoresLabel (reader : Reader α) : Prop where
  /-- It reads the same value, and leaves the line under its label. -/
  read : ∀ (line : Line) (label : String), reader.read (line.withLabel label)
    = (reader.read line).map fun found => (found.1, found.2.withLabel label)
  /-- It proposes the same. -/
  suggest : ∀ (line : Line) (label : String),
    reader.suggest (line.withLabel label) = reader.suggest line

/-- A reader of single words sees the label only where it proposes. -/
theorem Reader.ignoresLabel_ofWord {readWord : String → Except Refusal (Value α)}
    {suggest : Line → List SuggestionGroup}
    (h : ∀ (line : Line) (label : String), suggest (line.withLabel label) = suggest line) :
    (Reader.ofWord readWord suggest).IgnoresLabel where
  read line label := by
    obtain ⟨passed, ahead, own, trailing, completion⟩ := line
    cases ahead with
    | nil => rfl
    | cons word rest =>
        show (readWord word >>= fun value => _) = Except.map _ (readWord word >>= fun value => _)
        cases readWord word <;> rfl
  suggest := h

namespace Chain

/-- A chain whose readers never match against the label. -/
def IgnoresLabel (chain : Chain α) : Prop :=
  ∀ argument ∈ chain.arguments, argument.reader.IgnoresLabel

theorem ignoresLabel_of_ofNodes {nodes : List Spec.Node} {chain : Chain α}
    (h : ofNodes .standard nodes = .ok chain) : chain.IgnoresLabel :=
  reader_of_ofNodes
    (Registry.builds_of_readers (fun _ => Reader.ignoresLabel_ofWord fun _ _ => rfl)
      (fun _ => Reader.ignoresLabel_ofWord fun _ _ => rfl)
      (fun _ => Reader.ignoresLabel_ofWord fun _ _ => rfl)
      fun _ => Reader.ignoresLabel_ofWord fun _ _ => rfl) h

end Chain

-- ================================================================ chains

/-- The match with its line under another label. -/
def Match.withLabel (matched : Match α) (label : String) : Match α :=
  { matched with rest := matched.rest.withLabel label }

namespace Chain

variable (line : Line) (label : String)

theorem bindOne_withLabel {argument : Argument α} (h : argument.reader.IgnoresLabel)
    (switches : List (Nat × Option (Value α))) (place : Nat) :
    bindOne switches place (line.withLabel label) argument
      = (bindOne switches place line argument).map fun bound =>
          (bound.1, bound.2.withLabel label) := by
  have hmissing : argument.missing.map (·, line.withLabel label)
      = (argument.missing.map (·, line)).map fun bound => (bound.1, bound.2.withLabel label) := by
    cases argument.missing <;> rfl
  have hend : (line.withLabel label).isEnd = line.isEnd := rfl
  unfold bindOne
  rw [h.read, hmissing, hend]
  split
  · split <;> rfl
  · split
    · rfl
    · cases argument.reader.read line <;> rfl

theorem bindAll_withLabel {arguments : List (Argument α)}
    (h : ∀ argument ∈ arguments, argument.reader.IgnoresLabel)
    (switches : List (Nat × Option (Value α))) (place consumed : Nat) :
    bindAll switches place consumed (line.withLabel label) arguments
      = (bindAll switches place consumed line arguments).map (·.withLabel label) := by
  induction arguments generalizing line place consumed with
  | nil => rfl
  | cons argument rest ih =>
      obtain ⟨hargument, hrest⟩ := List.forall_mem_cons.1 h
      rw [bindAll, bindAll, bindOne_withLabel line label hargument]
      rcases bindOne switches place line argument with refusal | ⟨value, behind⟩
      · rfl
      · have hthen := ih behind hrest (place + 1) (consumed + (behind.index - line.index))
        show (bindAll switches (place + 1) (consumed + (behind.index - line.index))
          (behind.withLabel label) rest).map _ = Except.map _ (Except.map _ _)
        rw [hthen]
        cases bindAll switches (place + 1) (consumed + (behind.index - line.index)) behind rest <;>
          rfl

/-- Under another label a chain binds the same and consumes as many words,
and what it leaves is under that label. -/
theorem parse_withLabel {chain : Chain α} (h : chain.IgnoresLabel) :
    chain.parse (line.withLabel label) = (chain.parse line).map (·.withLabel label) := by
  have hgiven : chain.given none (line.withLabel label) = chain.given none line := rfl
  unfold parse
  rw [hgiven]
  dsimp only
  rcases readGiven 0 (chain.given none line) with shortfall | ⟨switches, consumed⟩
  · rfl
  · exact bindAll_withLabel (withoutGiven (chain.given none line) line) label h switches 0 consumed

theorem suggestAmong_withLabel {flags : Line → SuggestionGroup}
    (hflags : ∀ line : Line, flags (line.withLabel label) = flags line)
    {arguments : List (Argument α)}
    (h : ∀ argument ∈ arguments, argument.reader.IgnoresLabel) :
    suggestAmong flags (line.withLabel label) arguments = suggestAmong flags line arguments := by
  have hat : ∀ line : Line, (line.withLabel label).atCompletion = line.atCompletion := fun _ => rfl
  have hend : ∀ line : Line, (line.withLabel label).isEnd = line.isEnd := fun _ => rfl
  induction arguments generalizing line with
  | nil => rw [suggestAmong, suggestAmong, hat, hflags]
  | cons argument rest ih =>
      obtain ⟨hargument, hrest⟩ := List.forall_mem_cons.1 h
      rw [suggestAmong, suggestAmong, hat, hend, hflags, hargument.suggest, hargument.read]
      rcases argument.reader.read line with refusal | ⟨value, behind⟩
      · rfl
      · have hbehind := ih behind hrest
        simp only [Except.map, hbehind]

theorem suggest_withLabel {chain : Chain α} (h : chain.IgnoresLabel) :
    chain.suggest (line.withLabel label) = chain.suggest line := by
  have hgiven : ∀ typing, chain.given typing (line.withLabel label) = chain.given typing line :=
    fun _ => rfl
  have hcompletion : (line.withLabel label).completion = line.completion := rfl
  have hindex : (line.withLabel label).index = line.index := rfl
  unfold suggest
  rw [hcompletion, hindex]
  cases line.completion with
  | none => rfl
  | some typing =>
      dsimp only
      rw [hgiven]
      split
      · rfl
      · split
        · next switch hswitch =>
          have hplace := getElem?_of_mem_scan switch (List.mem_of_find?_eq_some hswitch)
          exact (h _ (List.mem_of_getElem? hplace)).suggest (line.moveTo typing) label
        · apply suggestAmong_withLabel (withoutGiven (chain.given (some typing) line) line) label
          · exact fun _ => rfl
          · exact fun argument hargument => h argument (List.mem_filter.1 hargument).1

end Chain

end CommandGrammar
