/-
What a chain proposes, it accepts. Put in for the word being completed, a
word of a list, a number of a range or a flag gives a line that the chain
matches, or fails to match only because there are words missing
(`suggest_accepted`). Two passes have to agree for that: the one that asks
an argument does not take the word being completed for a flag, while the
one that matches may well do so.

If it does, the word is the last one, so the flag has no value, and what
stands in for that is checked when the chain is built. If it does not, the
word stands in the place of the argument that proposed it. Either way no
argument has a word that it refuses, and then only missing words are left
to fail for (`accepts_of_not_refused`).
-/
import CommandGrammar.Proofs.Argument.Proposal
import CommandGrammar.Proofs.Chain.Account
import CommandGrammar.Proofs.Chain.Asking
import CommandGrammar.Proofs.Chain.Sequence

namespace CommandGrammar

open Text

variable {α : Type}

-- ========================================================= missing words

/-- The argument reads the text that stands in for missing words. -/
def Argument.ReadsPreset (argument : Argument α) : Prop :=
  ∀ text, argument.preset = some text → ∃ value, readText argument.reader text = .ok value

/-- Then it is refused for a missing word only, if it has none. -/
theorem Argument.ReadsPreset.refusal_of_missing {argument : Argument α} (h : argument.ReadsPreset)
    {refusal : Refusal} (hmissing : argument.missing = .error refusal) :
    refusal = .endOfInput := by
  unfold missing at hmissing
  split at hmissing
  case isTrue =>
    injection hmissing with hmissing
    exact hmissing.symm
  case isFalse =>
    split at hmissing
    case h_1 text htext =>
      obtain ⟨value, hvalue⟩ := h text htext
      rw [hvalue] at hmissing
      cases hmissing
    case h_2 => cases hmissing

namespace Chain

variable {chain : Chain α}

theorem readsPreset_of_ofNodes {registry : Registry α} {nodes : List Spec.Node}
    (h : ofNodes registry nodes = .ok chain) :
    ∀ argument ∈ chain.arguments, argument.ReadsPreset := by
  intro argument hargument
  obtain ⟨node, -, hbuilt⟩ :=
    exists_of_mem_of_mapM_eq_ok (ofNodes_eq_ok_iff.1 h).1 argument hargument
  obtain ⟨reader, -, -, hpreset⟩ := Argument.exists_reader_of_ofNode hbuilt
  exact hpreset

/-- Switches without a refused value are read, unless one is missing. -/
theorem refusal_of_readGiven {given : List (Given α)} :
    ∀ {consumed : Nat} {shortfall : Shortfall},
      (∀ switch ∈ given, switch.argument.ReadsPreset
        ∧ ∀ word, switch.value = some word → ¬switch.argument.Refuses word) →
      readGiven consumed given = .error shortfall → shortfall.refusal = .endOfInput := by
  induction given with
  | nil => intro consumed shortfall _ h; cases h
  | cons first rest ih =>
      intro consumed shortfall hread h
      obtain ⟨⟨hpreset, hvalue⟩, hrest⟩ := List.forall_mem_cons.1 hread
      rw [readGiven] at h
      cases hfirst : first.read with
      | ok read =>
          rw [hfirst] at h
          exact ih hrest (eq_error_of_map_eq_error h)
      | error refusal =>
          rw [hfirst] at h
          injection h with h
          subst h
          unfold Given.read at hfirst
          cases hword : first.value with
          | none =>
              rw [hword] at hfirst
              exact hpreset.refusal_of_missing (eq_error_of_map_eq_error hfirst)
          | some word =>
              rw [hword] at hfirst
              exact absurd ⟨refusal, eq_error_of_map_eq_error hfirst⟩ (hvalue word hword)

/-- So is an argument that does not refuse the next word. -/
theorem refusal_of_bindOne {switches : List (Nat × Option (Value α))} {place : Nat} {line : Line}
    {argument : Argument α} (hstandard : argument.reader.Standard)
    (hpreset : argument.ReadsPreset)
    (hread : argument.switch = none → ∀ word rest, line.ahead = word :: rest →
      ¬argument.Refuses word) {refusal : Refusal}
    (h : bindOne switches place line argument = .error refusal) : refusal = .endOfInput := by
  unfold bindOne at h
  split at h
  case isTrue =>
    split at h
    · cases h
    · exact hpreset.refusal_of_missing (eq_error_of_map_eq_error h)
  case isFalse hswitch =>
    split at h
    case isTrue => exact hpreset.refusal_of_missing (eq_error_of_map_eq_error h)
    case isFalse hend =>
      have hnone : argument.switch = none := by simpa using hswitch
      cases hahead : line.ahead with
      | nil =>
          rw [Line.isEnd, hahead] at hend
          exact absurd rfl hend
      | cons word rest =>
          rw [read_of_ahead hstandard hahead] at h
          exact absurd ⟨refusal, eq_error_of_map_eq_error (eq_error_of_map_eq_error h)⟩
            (hread hnone word rest hahead)

/-- Arguments that refuse no word in their places are bound, unless a word
is missing. -/
theorem refusal_of_bindAll {switches : List (Nat × Option (Value α))}
    {arguments : List (Argument α)} :
    ∀ {place consumed : Nat} {line : Line} {shortfall : Shortfall},
      (∀ argument ∈ arguments, argument.reader.Standard ∧ argument.ReadsPreset) →
      (∀ pair ∈ (arguments.filter (·.switch.isNone)).zip line.ahead, ¬pair.1.Refuses pair.2) →
      bindAll switches place consumed line arguments = .error shortfall →
      shortfall.refusal = .endOfInput := by
  induction arguments with
  | nil => intro place consumed line shortfall _ _ h; cases h
  | cons argument rest ih =>
      intro place consumed line shortfall harguments hread h
      obtain ⟨⟨hstandard, hpreset⟩, hrest⟩ := List.forall_mem_cons.1 harguments
      have hplaced : argument.switch = none →
          (argument :: rest).filter (·.switch.isNone) = argument :: rest.filter (·.switch.isNone) :=
        fun hnone => List.filter_cons_of_pos (by rw [hnone]; rfl)
      have hskipped : argument.switch.isSome →
          (argument :: rest).filter (·.switch.isNone) = rest.filter (·.switch.isNone) :=
        fun hswitch => List.filter_cons_of_neg (by simpa [Option.isSome_iff_ne_none] using hswitch)
      rw [bindAll] at h
      cases hone : bindOne switches place line argument with
      | error refusal =>
          rw [hone] at h
          injection h with h
          subst h
          refine refusal_of_bindOne hstandard hpreset (fun hnone word words hahead => ?_) hone
          rw [hplaced hnone, hahead] at hread
          exact hread (argument, word) (List.mem_cons_self ..)
      | ok bound =>
          obtain ⟨value, behind⟩ := bound
          rw [hone] at h
          refine ih hrest ?_ (eq_error_of_map_eq_error h)
          rcases bindOne_eq_ok hstandard hone with
            ⟨hswitch, rfl, -⟩ | ⟨-, rfl, hend, -⟩ | ⟨hnone, word, words, hahead, -, rfl⟩
          · rw [hskipped hswitch] at hread
            exact hread
          · intro pair hpair
            rw [hend, List.zip_nil_right] at hpair
            cases hpair
          · rw [hplaced hnone, hahead, List.zip_cons_cons] at hread
            exact (List.forall_mem_cons.1 hread).2

/-- A chain accepts words if it matches them or fails only because there
are too few. -/
def Accepts (chain : Chain α) (words : List String) : Prop :=
  ∀ line : Line, line.ahead = words → ∀ shortfall, chain.parse line = .error shortfall →
    shortfall.refusal = .endOfInput

/-- A chain accepts words if no switch refuses its value and no other
argument the word in its place. -/
theorem accepts_of_not_refused (hstandard : chain.Standard)
    (hpresets : ∀ argument ∈ chain.arguments, argument.ReadsPreset) {words : List String}
    (hvalues : ∀ position, ∀ given ∈ chain.scan none [] position words,
      ∀ word, given.value = some word → ¬given.argument.Refuses word)
    (hwords : ∀ position, ∀ pair ∈ chain.positional.zip (chain.leave none [] position words),
      ¬pair.1.Refuses pair.2) : chain.Accepts words := by
  rintro line rfl shortfall h
  unfold parse at h
  dsimp only at h
  cases hread : readGiven 0 (chain.given none line) with
  | error other =>
      rw [hread] at h
      injection h with h
      subst h
      refine refusal_of_readGiven (fun given hgiven => ⟨?_, hvalues line.index given hgiven⟩) hread
      exact hpresets _ (List.mem_of_getElem? (getElem?_of_mem_scan given hgiven))
  | ok read =>
      rw [hread] at h
      refine refusal_of_bindAll
        (fun argument hargument => ⟨hstandard argument hargument, hpresets argument hargument⟩)
        ?_ h
      rw [ahead_withoutGiven]
      exact hwords line.index

-- ============================================================ no flags yet

/-- A scan passes by the words that are no flags. -/
theorem scan_append_of_plain (typing : Option Nat) (found : List Nat) (rest : List String)
    {words : List String} (hwords : ∀ word ∈ words, chain.switchOf? word = none) :
    ∀ position,
      chain.scan typing found position (words ++ rest)
          = chain.scan typing found (position + words.length) rest
        ∧ chain.leave typing found position (words ++ rest)
          = words ++ chain.leave typing found (position + words.length) rest := by
  induction words with
  | nil => intro position; exact ⟨rfl, rfl⟩
  | cons word words ih =>
      intro position
      obtain ⟨hword, hwords⟩ := List.forall_mem_cons.1 hwords
      have hflag : chain.flag? typing found position word = none := by
        unfold flag?
        rw [hword]
        rfl
      obtain ⟨hscan, hleave⟩ := ih hwords (position + 1)
      rw [List.cons_append, scan_of_no_flag hflag, leave_of_no_flag hflag, hscan, hleave,
        List.length_cons, Nat.add_right_comm, Nat.add_assoc]
      exact ⟨rfl, rfl⟩

/-- A last word is a flag without a value, or is passed by. -/
theorem scan_singleton (chain : Chain α) (position : Nat) (word : String) :
    (∀ given ∈ chain.scan none [] position [word], given.value = none)
      ∧ (chain.leave none [] position [word] = []
        ∨ chain.switchOf? word = none ∧ chain.leave none [] position [word] = [word]) := by
  cases hflag : chain.flag? none [] position word with
  | none =>
      rw [scan_of_no_flag hflag, leave_of_no_flag hflag]
      refine ⟨nofun, Or.inr ⟨?_, rfl⟩⟩
      -- with no switch found before, every flag counts
      unfold flag? at hflag
      rw [Option.filter_eq_none_iff] at hflag
      cases hswitch : chain.switchOf? word with
      | none => rfl
      | some entry => exact absurd rfl (hflag entry hswitch)
  | some entry =>
      rw [scan_of_last_flag hflag, leave_of_last_flag hflag]
      exact ⟨List.forall_mem_singleton.2 rfl, Or.inl rfl⟩

/-- One more word behind words that are no flags and are read: a flag, or a
word that the argument whose turn it is does not refuse. -/
theorem accepts_append (hstandard : chain.Standard)
    (hpresets : ∀ argument ∈ chain.arguments, argument.ReadsPreset) {words : List String}
    (hplain : ∀ word ∈ words, chain.switchOf? word = none)
    (hread : ∀ pair ∈ chain.positional.zip words, ¬pair.1.Refuses pair.2) {word : String}
    (hword : chain.switchOf? word = none → ∀ argument,
      chain.positional[words.length]? = some argument → ¬argument.Refuses word) :
    chain.Accepts (words ++ [word]) := by
  refine accepts_of_not_refused hstandard hpresets (fun position => ?_) (fun position => ?_)
  · rw [(scan_append_of_plain none [] [word] hplain position).1]
    intro given hgiven value hvalue
    rw [(chain.scan_singleton _ word).1 given hgiven] at hvalue
    cases hvalue
  · rw [(scan_append_of_plain none [] [word] hplain position).2]
    rcases (chain.scan_singleton (position + words.length) word).2 with hleave | ⟨hswitch, hleave⟩
    · rw [hleave, List.append_nil]
      exact hread
    · rw [hleave]
      intro pair hpair
      obtain ⟨i, hi⟩ := List.mem_iff_getElem?.1 hpair
      obtain ⟨hargument, hvalue⟩ := List.getElem?_zip_eq_some.1 hi
      rw [List.getElem?_append] at hvalue
      split at hvalue
      case isTrue =>
        have hzip := List.getElem?_zip_eq_some.2 ⟨hargument, hvalue⟩
        exact hread pair (List.mem_iff_getElem?.2 ⟨i, hzip⟩)
      case isFalse hlast =>
        rw [List.getElem?_singleton] at hvalue
        split at hvalue
        case isFalse => cases hvalue
        case isTrue hzero =>
          obtain rfl : i = words.length := by omega
          rw [← Option.some.inj hvalue]
          exact hword hswitch pair.1 hargument

end Chain

-- ============================================================= typed lines

namespace Line

/-- The words of a line with another one in the stead of the word being
completed, or behind them all. -/
def replaced (line : Line) (word : String) : List String :=
  line.before ++ word :: line.ahead.drop (line.before.length + 1)

/-- On a typed line no word follows the one being completed. -/
theorem length_drop_ofText (text : String) :
    ((ofText text).ahead.drop (ofText text).before.length).length ≤ 1 := by
  unfold before ofText withTrailingSpace
  dsimp only
  generalize (words text.toList).1.map String.ofList = typed
  show (typed.drop (typed.take ((if (words text.toList).2 then typed.length else typed.length - 1)
    - 0)).length).length ≤ 1
  rw [List.length_drop, List.length_take]
  split <;> omega

theorem replaced_ofText (text word : String) :
    (ofText text).replaced word = (ofText text).before ++ [word] := by
  have hlength := length_drop_ofText text
  rw [List.length_drop] at hlength
  unfold replaced
  rw [List.drop_eq_nil_of_le (by omega)]

end Line

namespace Chain

section Typed

variable {chain : Chain α} {text : String}
  (hplain : ∀ word ∈ (Line.ofText text).before, chain.switchOf? word = none)

include hplain

/-- Behind words that are no flags no switch is given, for the word being
completed is none either. -/
theorem given_ofText : chain.given (Line.ofText text).completion (.ofText text) = [] := by
  have hlength := Line.length_drop_ofText text
  rw [given_completion (Line.completing_ofText text), (scan_append_of_plain _ _ _ hplain _).1]
  generalize (Line.ofText text).ahead.drop (Line.ofText text).before.length = rest at hlength
  cases rest with
  | nil => rfl
  | cons word rest =>
      obtain rfl : rest = [] := List.length_eq_zero_iff.1 (by simpa using hlength)
      rw [scan_of_no_flag (chain.flag?_typing ..)]
      rfl

theorem leftBefore_ofText : chain.leftBefore (.ofText text) = (Line.ofText text).before := by
  have h := (scan_append_of_plain none [] [] hplain (Line.ofText text).index).2
  rw [List.append_nil] at h
  exact h.trans (List.append_nil _)

theorem opening?_ofText : chain.opening? (.ofText text) = none := by
  have h := (scan_append_of_plain none [] [] hplain (Line.ofText text).index).1
  rw [List.append_nil] at h
  unfold opening? givenBefore
  rw [h]
  rfl

/-- What is proposed there: what the argument whose turn it is proposes,
and the flags. Before that, nothing was refused. -/
theorem suggest_ofText (hstandard : chain.Standard) :
    chain.suggest (.ofText text) = []
      ∨ (∀ pair ∈ chain.positional.zip (Line.ofText text).before, ¬pair.1.Refuses pair.2)
        ∧ chain.suggest (.ofText text)
          = (chain.positional[(Line.ofText text).before.length]?).elim []
              (·.reader.suggest ((Line.ofText text).moveTo (Line.ofText text).before.length))
            ++ (chain.flagSuggestions []
              ((Line.ofText text).moveTo (Line.ofText text).before.length).current).alone := by
  have hopening := opening?_ofText hplain
  have hline := Line.completing_ofText text
  have hleft := leftBefore_ofText hplain
  by_cases hrefused : chain.RefusesWord (.ofText text)
  · exact Or.inl (suggest_of_refused hstandard hline hopening hrefused)
  · rw [suggest_of_next hstandard hline hopening hrefused]
    have hline : withoutGiven ([] : List (Given α)) (Line.ofText text) = .ofText text :=
      Line.remove_nil _
    have hindex : (Line.ofText text).index = 0 := rfl
    unfold offeredNext
    rw [given_ofText hplain, hleft]
    dsimp only
    rw [hline, hindex, Nat.zero_add]
    split
    · exact Or.inl rfl
    · refine Or.inr ⟨fun pair hpair hrefuses => hrefused ⟨pair, ?_, hrefuses⟩, rfl⟩
      rw [hleft]
      exact hpair

end Typed

/-- A flag that is proposed is that of a switch of the chain. -/
theorem exists_of_mem_flagSuggestions {chain : Chain α} {given : List (Given α)} {typed : String}
    {suggestion : Suggestion} (h : suggestion ∈ chain.flagSuggestions given typed) :
    ∃ argument ∈ chain.arguments, ∃ name, argument.switch = some name
      ∧ suggestion.value = flagText name := by
  unfold flagSuggestions at h
  split at h
  case isFalse => cases h
  case isTrue =>
    obtain ⟨entry, hentry, h⟩ := List.mem_filterMap.1 h
    split at h
    case isTrue => cases h
    case isFalse =>
      obtain ⟨name, hname, h⟩ := Option.bind_eq_some_iff.1 h
      split at h
      case isFalse => cases h
      case isTrue =>
        injection h with h
        exact ⟨entry.1, List.fst_mem_of_mem_zipIdx hentry, name, hname, by rw [← h]⟩

/-- Of chains of words and whole numbers, on a typed line with no flag
before the word being completed. What is proposed are the proposals of one
argument, in its place, and flags of the chain's switches. Each of the
flags, put in for the word being completed, gives words that the chain
accepts. So does each proposal of the argument if it takes them from a list
or a range; otherwise they go on with what was typed. -/
theorem suggest_accepted {nodes : List Spec.Node} {chain : Chain α}
    (hchain : ofNodes .standard nodes = .ok chain)
    (hkinds : ∀ node ∈ nodes, Registry.kindOf node ∈ Registry.listedKinds) {text : String}
    (hflags : ∀ word ∈ (Line.ofText text).before, ∀ argument ∈ chain.arguments,
      ∀ name, argument.switch = some name → word ≠ flagText name) :
    ∃ own flags, chain.suggest (.ofText text) = own ++ flags
      ∧ (∀ group ∈ flags, ∀ suggestion ∈ group,
          (∃ argument ∈ chain.arguments, ∃ name, argument.switch = some name
            ∧ suggestion.value = flagText name)
          ∧ chain.Accepts ((Line.ofText text).replaced suggestion.value))
      ∧ (own = []
        ∨ ∃ argument, chain.positional[(Line.ofText text).before.length]? = some argument
          ∧ own = argument.reader.suggest
              ((Line.ofText text).moveTo (Line.ofText text).before.length)
          ∧ (argument.lists = true → ∀ group ∈ own, ∀ suggestion ∈ group,
              chain.Accepts ((Line.ofText text).replaced suggestion.value))
          ∧ (argument.lists = false → ∀ group ∈ own, ∀ suggestion ∈ group,
              suggestion = (Hint.ofNode argument.node).freeInput
                ((Line.ofText text).moveTo (Line.ofText text).before.length).current)) := by
  have hstandard := standard_of_ofNodes hchain
  have hpresets := readsPreset_of_ofNodes hchain
  have hplain : ∀ word ∈ (Line.ofText text).before, chain.switchOf? word = none :=
    fun word hword => switchOf?_eq_none (hflags word hword)
  rcases suggest_ofText hplain hstandard with hnone | ⟨hread, hsuggest⟩
  · exact ⟨[], [], hnone, nofun, Or.inl rfl⟩
  have haccepts : ∀ {word : String}, (chain.switchOf? word = none → ∀ argument,
      chain.positional[(Line.ofText text).before.length]? = some argument →
        ¬argument.Refuses word) → chain.Accepts ((Line.ofText text).replaced word) := by
    intro word hword
    rw [Line.replaced_ofText]
    exact accepts_append hstandard hpresets hplain hread hword
  refine ⟨_, _, hsuggest, fun group hgroup suggestion hsuggestion => ?_, ?_⟩
  · -- a flag: there is a switch for it, so it is taken for one
    rw [mem_alone hgroup] at hsuggestion
    obtain ⟨argument, hargument, name, hname, hvalue⟩ := exists_of_mem_flagSuggestions hsuggestion
    refine ⟨⟨argument, hargument, name, hname, hvalue⟩, haccepts fun hnone => ?_⟩
    obtain ⟨found, place, hfound, -⟩ := exists_switchOf? ⟨argument, hargument, hname⟩
    rw [hvalue, flagText, hfound] at hnone
    cases hnone
  · cases hturn : chain.positional[(Line.ofText text).before.length]? with
    | none => exact Or.inl rfl
    | some argument =>
        have hargument : argument ∈ chain.arguments :=
          List.mem_of_mem_filter (List.mem_of_getElem? hturn)
        obtain ⟨node, hnode, hbuilt⟩ :=
          exists_of_mem_of_mapM_eq_ok (ofNodes_eq_ok_iff.1 hchain).1 argument hargument
        obtain ⟨htakes, htyped⟩ := Argument.proposes_of_ofNode hbuilt (hkinds node hnode)
        refine Or.inr ⟨argument, rfl, rfl, fun hlists group hgroup suggestion hsuggestion => ?_,
          fun hfree => ?_⟩
        · -- a word of a list or a number: it stands in the place of its argument
          obtain ⟨value, hvalue⟩ := htakes hlists _ group hgroup suggestion hsuggestion
          refine haccepts fun _ other hother => ?_
          obtain rfl := Option.some.inj (hturn.symm.trans hother)
          rintro ⟨refusal, hrefusal⟩
          cases hvalue.symm.trans hrefusal
        · rw [(Argument.eq_of_ofNode hbuilt).1]
          exact htyped hfree _

/-- A word of a list that is also a flag: put in for the first word, it is
taken for the flag, and then the word of the list is missing. -/
example :
    let chain : Chain Unit :=
      (ofSpec .standard "-x|plus @int(required=false,switch=x)").toOption.getD ⟨[]⟩
    (chain.suggest (.ofText "-")).map SuggestionGroup.values = [["-x"], ["-x"]]
      ∧ (match chain.parse (.ofText "-x") with
        | .error shortfall => some shortfall
        | .ok _ => none) = some ⟨.endOfInput, 1⟩ := by
  decide +kernel

/-- A flag that is also the word of a list, and a number behind that. -/
def signs : String :=
  "-x|plus @int(min=1,max=3) @int(required=false,switch=x)"

/-- Behind a word of the list the numbers are proposed, and the flag. -/
theorem signs_suggest_accepted :
    let chain : Chain Unit := (ofSpec .standard signs).toOption.getD ⟨[]⟩
    (Line.ofText "plus ").before = ["plus"]
      ∧ (chain.suggest (.ofText "plus ")).map SuggestionGroup.values = [["1", "2", "3"], ["-x"]]
      ∧ ∀ group ∈ chain.suggest (.ofText "plus "), ∀ suggestion ∈ group,
          chain.Accepts ((Line.ofText "plus ").replaced suggestion.value) := by
  intro chain
  have hchain : ofNodes .standard (Spec.nodes signs) = .ok chain :=
    ofNodes_of_isOk (by decide +kernel)
  have hkinds : ∀ node ∈ Spec.nodes signs, Registry.kindOf node ∈ Registry.listedKinds := by
    decide +kernel
  have hplain : ∀ word ∈ (Line.ofText "plus ").before, ∀ argument ∈ chain.arguments,
      ∀ name, argument.switch = some name → word ≠ flagText name := by decide +kernel
  have hlists : ∀ argument ∈ chain.positional[(Line.ofText "plus ").before.length]?,
      argument.lists = true := by decide +kernel
  refine ⟨by decide +kernel, by decide +kernel, fun group hgroup suggestion hsuggestion => ?_⟩
  obtain ⟨own, flags, hsuggest, hflags, hown⟩ := suggest_accepted hchain hkinds hplain
  rw [hsuggest] at hgroup
  rcases List.mem_append.1 hgroup with hgroup | hgroup
  · rcases hown with rfl | ⟨argument, hturn, -, haccepted, -⟩
    · cases hgroup
    · exact haccepted (hlists argument hturn) group hgroup suggestion hsuggestion
  · exact (hflags group hgroup suggestion hsuggestion).2

end Chain

end CommandGrammar
