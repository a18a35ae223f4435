/-
What a chain proposes begins with the word being completed. The word is
looked for behind switches taken out and behind words read, at positions
that change with each of these; but none of them makes it another word
(`Line.typed?`), so wherever an argument is asked, or the flags are, the
current word there is the word being completed of the line given.
-/
import CommandGrammar.Chain.Completion
import CommandGrammar.Proofs.Chain.Match

namespace CommandGrammar.Chain

open Text

variable {α : Type}

theorem begins_of_mem_flagSuggestions {chain : Chain α} {given : List (Given α)} {typed : String} :
    ∀ suggestion ∈ chain.flagSuggestions given typed, begins suggestion.value typed = true := by
  intro suggestion h
  unfold flagSuggestions at h
  split at h
  case isFalse => cases h
  case isTrue =>
    obtain ⟨entry, -, h⟩ := List.mem_filterMap.1 h
    split at h
    case isTrue => cases h
    case isFalse =>
      obtain ⟨name, -, h⟩ := Option.bind_eq_some_iff.1 h
      split at h
      case isFalse => cases h
      case isTrue hbegins =>
        injection h with h
        rw [← h]
        exact hbegins

/-- The argument that is next at the word being completed proposes what
begins with that word, and so do the flags. -/
theorem begins_of_mem_suggestAmong {flags : Line → SuggestionGroup}
    (hflags : ∀ line, ∀ suggestion ∈ flags line, begins suggestion.value line.current = true)
    {arguments : List (Argument α)} :
    ∀ {line : Line}, (∀ argument ∈ arguments, argument.reader.Standard) →
      ∀ group ∈ suggestAmong flags line arguments, ∀ suggestion ∈ group,
        ∃ word, line.typed? = some word ∧ begins suggestion.value word = true := by
  induction arguments with
  | nil =>
      intro line _ group hgroup suggestion hsuggestion
      rw [suggestAmong] at hgroup
      split at hgroup
      case isFalse => cases hgroup
      case isTrue hat =>
        rw [mem_alone hgroup] at hsuggestion
        exact ⟨_, Line.typed?_of_atCompletion hat, hflags line suggestion hsuggestion⟩
  | cons argument rest ih =>
      intro line hstandard group hgroup suggestion hsuggestion
      have hfirst := hstandard argument (List.mem_cons_self ..)
      rw [suggestAmong] at hgroup
      split at hgroup
      case isTrue hat =>
        refine ⟨_, Line.typed?_of_atCompletion hat, ?_⟩
        rcases List.mem_append.1 hgroup with hgroup | hgroup
        · exact hfirst.suggest_begins line group hgroup suggestion hsuggestion
        · rw [mem_alone hgroup] at hsuggestion
          exact hflags line suggestion hsuggestion
      case isFalse =>
        split at hgroup
        case isTrue => cases hgroup
        case isFalse =>
          split at hgroup
          case h_2 => cases hgroup
          case h_1 value behind hread =>
            obtain ⟨passed, hnext, -⟩ := hfirst.read_eq_ok hread
            obtain ⟨word, htyped, hbegins⟩ := ih
              (fun other hother => hstandard other (List.mem_cons_of_mem _ hother))
              group hgroup suggestion hsuggestion
            exact ⟨word, Line.typed?_next hnext htyped, hbegins⟩

/-- What a chain proposes begins with the word being completed. -/
theorem begins_of_mem_suggest {chain : Chain α} (hstandard : chain.Standard) {line : Line} :
    ∀ group ∈ chain.suggest line, ∀ suggestion ∈ group,
      ∃ word, line.typed? = some word ∧ begins suggestion.value word = true := by
  intro group hgroup suggestion hsuggestion
  unfold suggest at hgroup
  split at hgroup
  case h_1 => cases hgroup
  case h_2 typing htyping =>
    split at hgroup
    case isTrue => cases hgroup
    case isFalse hahead =>
      dsimp only at hgroup
      split at hgroup
      case h_1 switch hswitch =>
        -- the value of a switch: its argument is asked with the cursor at the word itself
        have hmem := getElem?_of_mem_scan switch (List.mem_of_find?_eq_some hswitch)
        exact ⟨_, Line.typed?_moveTo htyping (Nat.le_of_not_lt hahead),
          (hstandard _ (List.mem_of_getElem? hmem)).suggest_begins _ group hgroup
            suggestion hsuggestion⟩
      case h_2 =>
        obtain ⟨word, htyped, hbegins⟩ := begins_of_mem_suggestAmong
          (fun _ suggestion h => begins_of_mem_flagSuggestions suggestion h)
          (fun argument hargument => hstandard argument (List.mem_of_mem_filter hargument))
          group hgroup suggestion hsuggestion
        exact ⟨word, Line.typed?_remove (nodup_positions_given chain _ line) htyped, hbegins⟩

/-- Nothing is proposed where no word ahead is being completed. -/
theorem suggest_eq_nil {chain : Chain α} {line : Line} (h : line.typed? = none) :
    chain.suggest line = [] := by
  unfold Line.typed? at h
  unfold suggest
  cases hcompletion : line.completion with
  | none => rfl
  | some typing =>
      rw [hcompletion] at h
      dsimp only at h ⊢
      split at h
      case isTrue => cases h
      case isFalse hbehind => rw [if_pos (Nat.lt_of_not_le hbehind)]

end CommandGrammar.Chain
