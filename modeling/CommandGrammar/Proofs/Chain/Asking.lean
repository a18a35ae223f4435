/-
Whom a chain asks for suggestions. The words before the one being
completed decide that: if they end with a flag, the switch of the flag is
asked, and otherwise the argument whose turn it is when the switches that
they give are taken out of them.

On the way to that argument every argument has to read its word, so a
refused word ends in no suggestions. The value of a switch is not read,
and for the value of a switch nothing before it is. `suggest_of_opening`,
`suggest_of_refused` and `suggest_of_next` say so case by case, and
`suggest_eq_nil_iff` puts the cases together: it says when nothing is
offered on a typed line.
-/
import CommandGrammar.Chain.Completion
import CommandGrammar.Proofs.Chain.Ahead

namespace CommandGrammar

variable {α : Type}

-- ============================================================ the words before

namespace Line

/-- The words ahead of the cursor that stand before the one being
completed. -/
def before (line : Line) : List String :=
  match line.completion with
  | some c => line.ahead.take (c - line.index)
  | none => line.ahead

theorem ahead_eq (line : Line) :
    line.ahead = line.before ++ line.ahead.drop line.before.length := by
  have hprefix : line.before <+: line.ahead := by
    unfold before
    split
    · exact List.take_prefix _ _
    · exact List.prefix_rfl
  exact (List.prefix_iff_eq_append.1 hprefix).symm

/-- What is being completed is the word behind these, or the one that
would follow. -/
def Completing (line : Line) : Prop :=
  line.completion = some (line.index + line.before.length)

/-- So it is on every line that was typed. -/
theorem completing_ofText (text : String) : (ofText text).Completing := by
  unfold Completing before ofText withTrailingSpace
  dsimp only
  generalize (words text.toList).1.map String.ofList = typed
  show some (if (words text.toList).2 then typed.length else typed.length - 1)
    = some (0 + (typed.take ((if (words text.toList).2 then typed.length else typed.length - 1)
      - 0)).length)
  rw [List.length_take]
  split <;> congr 1 <;> omega

/-- Words taken out before the one being completed lower its position, and
words taken out behind it do not. -/
theorem completion_remove {line : Line} {typing : Nat} (h : line.completion = some typing)
    (hsize : typing ≤ line.index + line.size) {taken later : List Nat}
    (htaken : ∀ p ∈ taken, line.index ≤ p ∧ p < typing) (hlater : ∀ p ∈ later, typing < p) :
    (line.remove (taken ++ later)).completion = some (typing - taken.length) := by
  have hkept : taken.filter (fun p => line.index ≤ p && p < line.index + line.size) = taken := by
    refine List.filter_eq_self.2 fun p hp => ?_
    have := htaken p hp
    simp only [Bool.and_eq_true, decide_eq_true_eq]
    omega
  unfold remove
  dsimp only
  rw [h, Option.bind_some, List.filter_append, hkept, List.countP_append]
  have hcount : taken.countP (· < typing) = taken.length :=
    List.countP_eq_length.2 fun p hp => decide_eq_true (htaken p hp).2
  have hnone : (later.filter fun p => line.index ≤ p && p < line.index + line.size).countP
      (· < typing) = 0 := by
    refine List.countP_eq_zero.2 fun p hp => ?_
    have := hlater p (List.mem_of_mem_filter hp)
    rw [decide_eq_true_eq]
    omega
  rw [hcount, hnone, Nat.add_zero, if_neg]
  rw [List.mem_append, not_or]
  refine ⟨fun hmem => ?_, fun hmem => ?_⟩
  · exact Nat.lt_irrefl _ (htaken typing hmem).2
  · exact Nat.lt_irrefl _ (hlater typing (List.mem_of_mem_filter hmem))

theorem moveTo_index (line : Line) : line.moveTo line.index = line := by
  unfold moveTo allWords index
  rw [List.take_left, List.drop_left]

/-- A word passed does not change where a cursor can be moved to. -/
theorem moveTo_pass {line : Line} {word : String} {rest : List String}
    (h : line.ahead = word :: rest) (position : Nat) :
    ({ line with passed := line.passed ++ [word], ahead := rest } : Line).moveTo position
      = line.moveTo position := by
  unfold moveTo allWords
  dsimp only
  rw [h, List.append_assoc, List.singleton_append]

end Line

namespace Argument

/-- An argument refuses a word. -/
def Refuses (argument : Argument α) (word : String) : Prop :=
  ∃ refusal, argument.reader.readWord word = .error refusal

instance (argument : Argument α) (word : String) : Decidable (argument.Refuses word) :=
  match h : argument.reader.readWord word with
  | .error refusal => isTrue ⟨refusal, h⟩
  | .ok _ => isFalse fun ⟨_, hrefusal⟩ => nomatch h.symm.trans hrefusal

end Argument

namespace Chain

/-- The arguments that are bound by their place. -/
def positional (chain : Chain α) : List (Argument α) :=
  chain.arguments.filter fun argument => argument.switch.isNone

/-- The switches given before the word being completed. -/
def givenBefore (chain : Chain α) (line : Line) : List (Given α) :=
  chain.scan none [] line.index line.before

/-- The words before the one being completed, without the switches that
they give. -/
def leftBefore (chain : Chain α) (line : Line) : List String :=
  chain.leave none [] line.index line.before

/-- Before the word being completed stands a value that its switch
refuses. -/
def RefusesValue (chain : Chain α) (line : Line) : Prop :=
  ∃ given ∈ chain.givenBefore line, ∃ word ∈ given.value, given.argument.Refuses word

instance (chain : Chain α) (line : Line) : Decidable (chain.RefusesValue line) :=
  inferInstanceAs (Decidable (∃ given ∈ chain.givenBefore line, ∃ word ∈ given.value,
    given.argument.Refuses word))

/-- Before the word being completed stands a word that the argument in its
place refuses. -/
def RefusesWord (chain : Chain α) (line : Line) : Prop :=
  ∃ pair ∈ chain.positional.zip (chain.leftBefore line), pair.1.Refuses pair.2

instance (chain : Chain α) (line : Line) : Decidable (chain.RefusesWord line) :=
  inferInstanceAs (Decidable (∃ pair ∈ chain.positional.zip (chain.leftBefore line),
    pair.1.Refuses pair.2))

/-- The switch whose value is being completed: its flag is the last word
before it. -/
def opening? (chain : Chain α) (line : Line) : Option (Given α) :=
  (chain.givenBefore line).find? fun given => given.value.isNone

/-- What is offered for a word that is not the value of a switch, if the
words before it are read: suggestions of the argument whose turn it is,
and the flags not given yet. -/
def offeredNext (chain : Chain α) (line : Line) : List SuggestionGroup :=
  let given := chain.given line.completion line
  let there := (withoutGiven given line).moveTo (line.index + (chain.leftBefore line).length)
  if chain.positional.length < (chain.leftBefore line).length then []
  else
    (chain.positional[(chain.leftBefore line).length]?).elim [] (·.reader.suggest there)
      ++ (chain.flagSuggestions given there.current).alone

-- ============================================================== scanning on

/-- Before the word being completed a scan does not look at it. -/
theorem flag?_of_ne (chain : Chain α) {typing position : Nat} (h : typing ≠ position)
    (found : List Nat) (word : String) :
    chain.flag? (some typing) found position word = chain.flag? none found position word := by
  have hne : (some typing != some position) = true := bne_iff_ne.2 (by simpa using h)
  unfold flag?
  rw [hne]
  rfl

/-- The word being completed gives no switch. -/
theorem flag?_typing (chain : Chain α) (typing : Nat) (found : List Nat) (word : String) :
    chain.flag? (some typing) found typing word = none := by
  unfold flag?
  simp

/-- A switch has its value among the words scanned, or its flag is the
last of them. -/
theorem flag_of_mem_scan {chain : Chain α} {typing : Option Nat} {found : List Nat}
    {position : Nat} {words : List String} :
    ∀ given ∈ chain.scan typing found position words,
      (given.value.isSome → given.flag + 1 < position + words.length)
        ∧ (given.value = none → given.flag + 1 = position + words.length) := by
  fun_induction scan chain typing found position words with
  | case1 => intro given h; cases h
  | case2 found position word rest hflag ih =>
      intro given h
      rw [List.length_cons, show position + (rest.length + 1) = position + 1 + rest.length by omega]
      exact ih given h
  | case3 found position word argument place hflag =>
      intro given h
      rw [List.mem_singleton.1 h]
      exact ⟨fun hsome => absurd hsome Bool.false_ne_true, fun _ => rfl⟩
  | case4 found position word argument place hflag value rest ih =>
      intro given h
      rw [List.length_cons, List.length_cons,
        show position + (rest.length + 1 + 1) = position + 2 + rest.length by omega]
      rcases List.mem_cons.1 h with rfl | h
      · exact ⟨fun _ => by dsimp only; omega, fun hnone => absurd hnone (Option.some_ne_none _)⟩
      · exact ih given h

/-- A scan goes on behind the words before the one being completed. If
these end with a flag, the word being completed, or none, is its value;
otherwise that word is passed by. -/
theorem scan_append_cases (chain : Chain α) (rest : List String) (found : List Nat)
    (position : Nat) (before : List String) :
    (∃ first opening others, chain.scan none found position before = first ++ [opening]
        ∧ opening.value = none ∧ (∀ given ∈ first, given.value.isSome)
        ∧ chain.scan (some (position + before.length)) found position (before ++ rest)
          = first ++ { opening with value := rest.head? } :: others)
      ∨ (∀ given ∈ chain.scan none found position before, given.value.isSome)
        ∧ ∃ later left,
          chain.scan (some (position + before.length)) found position (before ++ rest)
            = chain.scan none found position before ++ later
          ∧ chain.leave (some (position + before.length)) found position (before ++ rest)
            = chain.leave none found position before ++ left
          ∧ ∀ p ∈ later.flatMap Given.positions, position + before.length < p := by
  fun_induction scan chain none found position before with
  | case1 found position =>
      refine Or.inr ⟨List.forall_mem_nil _, ?_⟩
      cases rest with
      | nil => exact ⟨[], [], rfl, rfl, List.forall_mem_nil _⟩
      | cons word rest =>
          have hflag := chain.flag?_typing position found word
          refine ⟨_, _, scan_of_no_flag hflag rest, leave_of_no_flag hflag rest, fun p hp => ?_⟩
          exact (within_of_mem_positions_scan chain (some position) _ _ _ p hp).1
  | case2 found position word before hflag ih =>
      have hlength : position + 1 + before.length = position + (word :: before).length := by
        rw [List.length_cons]
        omega
      have hflag' : chain.flag? (some (position + (word :: before).length)) found position word
          = none := by
        rw [chain.flag?_of_ne (by rw [List.length_cons]; omega), hflag]
      rw [hlength] at ih
      rw [List.cons_append, scan_of_no_flag hflag', leave_of_no_flag hflag', leave_of_no_flag hflag]
      rcases ih with ih | ⟨hvalues, later, left, hscan, hleave, hlater⟩
      · exact Or.inl ih
      · exact Or.inr ⟨hvalues, later, left, hscan, congrArg (word :: ·) hleave, hlater⟩
  | case3 found position word argument place hflag =>
      have hflag' : chain.flag? (some (position + [word].length)) found position word
          = some (argument, place) := by
        rw [chain.flag?_of_ne (by simp), hflag]
      refine Or.inl ⟨[], ⟨place, argument, position, none⟩, ?_⟩
      rw [List.singleton_append]
      cases rest with
      | nil => exact ⟨[], rfl, rfl, List.forall_mem_nil _, scan_of_last_flag hflag'⟩
      | cons value rest =>
          exact ⟨_, rfl, rfl, List.forall_mem_nil _, scan_of_flag hflag' value rest⟩
  | case4 found position word argument place hflag value before ih =>
      have hlength : position + 2 + before.length
          = position + (word :: value :: before).length := by
        rw [List.length_cons, List.length_cons]
        omega
      have hflag' : chain.flag? (some (position + (word :: value :: before).length)) found position
          word = some (argument, place) := by
        rw [chain.flag?_of_ne (by simp), hflag]
      rw [hlength] at ih
      rw [List.cons_append, List.cons_append, scan_of_flag hflag', leave_of_flag hflag',
        leave_of_flag hflag]
      rcases ih with ⟨first, opening, others, hbefore, hnone, hfirst, hscan⟩
        | ⟨hvalues, later, left, hscan, hleave, hlater⟩
      · exact Or.inl ⟨_ :: first, opening, others, congrArg (_ :: ·) hbefore, hnone,
          List.forall_mem_cons.2 ⟨rfl, hfirst⟩, congrArg (_ :: ·) hscan⟩
      · exact Or.inr ⟨List.forall_mem_cons.2 ⟨rfl, hvalues⟩, later, left,
          congrArg (_ :: ·) hscan, hleave, hlater⟩

-- ============================================================ in their places

/-- Before the word being completed the argument whose turn it is reads
the next word, or nothing is offered. -/
theorem suggestAmong_cons {flags : Line → SuggestionGroup} {line : Line} {word : String}
    {rest : List String} (hahead : line.ahead = word :: rest) (hat : line.atCompletion = false)
    {argument : Argument α} (hstandard : argument.reader.Standard)
    (others : List (Argument α)) :
    suggestAmong flags line (argument :: others)
      = match argument.reader.readWord word with
        | .ok _ =>
            suggestAmong flags { line with passed := line.passed ++ [word], ahead := rest } others
        | .error _ => [] := by
  have hend : line.isEnd = false := by
    unfold Line.isEnd
    rw [hahead]
    rfl
  rw [suggestAmong, hat, hend, read_of_ahead hstandard hahead]
  rcases argument.reader.readWord word with refusal | value <;> rfl

section Places

variable {flags : Line → SuggestionGroup} {rest : List String} {words : List String}

theorem atCompletion_eq_false {line : Line} {word : String}
    (h : line.completion = some (line.index + (word :: words).length)) :
    line.atCompletion = false := by
  unfold Line.atCompletion
  rw [h, List.length_cons]
  exact beq_false_of_ne (by simp)

theorem completion_pass {line : Line} {word : String}
    (h : line.completion = some (line.index + (word :: words).length)) :
    line.completion
      = some (({ line with passed := line.passed ++ [word], ahead := words ++ rest } : Line).index
        + words.length) := by
  rw [h]
  unfold Line.index
  rw [List.length_append, List.length_cons, List.length_singleton]
  congr 1
  omega

/-- Behind a refused word nothing is offered. -/
theorem suggestAmong_of_refused {arguments : List (Argument α)} :
    ∀ {line : Line}, (∀ argument ∈ arguments, argument.reader.Standard) →
      line.ahead = words ++ rest → line.completion = some (line.index + words.length) →
      (∃ pair ∈ arguments.zip words, pair.1.Refuses pair.2) →
      suggestAmong flags line arguments = [] := by
  induction words generalizing arguments with
  | nil =>
      rintro line - - - ⟨pair, hpair, -⟩
      rw [List.zip_nil_right] at hpair
      cases hpair
  | cons word words ih =>
      intro line hstandard hahead hcompletion hrefused
      cases arguments with
      | nil =>
          obtain ⟨pair, hpair, -⟩ := hrefused
          cases hpair
      | cons argument others =>
          obtain ⟨hfirst, hothers⟩ := List.forall_mem_cons.1 hstandard
          rw [suggestAmong_cons hahead (atCompletion_eq_false hcompletion) hfirst]
          rcases hread : argument.reader.readWord word with refusal | value
          · rfl
          · refine ih hothers rfl (completion_pass hcompletion) ?_
            obtain ⟨pair, hpair, refusal, hrefusal⟩ := hrefused
            rw [List.zip_cons_cons] at hpair
            rcases List.mem_cons.1 hpair with rfl | hpair
            · rw [hread] at hrefusal
              cases hrefusal
            · exact ⟨pair, hpair, refusal, hrefusal⟩

/-- Behind words that are all read the argument whose turn it is is asked,
and so are the flags, unless there are more words than arguments. -/
theorem suggestAmong_of_read {arguments : List (Argument α)} :
    ∀ {line : Line}, (∀ argument ∈ arguments, argument.reader.Standard) →
      line.ahead = words ++ rest → line.completion = some (line.index + words.length) →
      (∀ pair ∈ arguments.zip words, ¬pair.1.Refuses pair.2) →
      suggestAmong flags line arguments
        = if arguments.length < words.length then []
          else (arguments[words.length]?).elim []
              (·.reader.suggest (line.moveTo (line.index + words.length)))
            ++ (flags (line.moveTo (line.index + words.length))).alone := by
  induction words generalizing arguments with
  | nil =>
      intro line _ _ hcompletion _
      have hat : line.atCompletion = true := by
        unfold Line.atCompletion
        rw [hcompletion]
        exact beq_self_eq_true _
      rw [List.length_nil, if_neg (Nat.not_lt_zero _), Nat.add_zero, Line.moveTo_index]
      cases arguments with
      | nil =>
          rw [suggestAmong, if_pos hat]
          rfl
      | cons argument others =>
          rw [suggestAmong, if_pos hat]
          rfl
  | cons word words ih =>
      intro line hstandard hahead hcompletion hread
      cases arguments with
      | nil =>
          rw [suggestAmong, atCompletion_eq_false hcompletion]
          rfl
      | cons argument others =>
          obtain ⟨hfirst, hothers⟩ := List.forall_mem_cons.1 hstandard
          rw [List.zip_cons_cons] at hread
          rw [List.cons_append] at hahead
          obtain ⟨hhere, hread⟩ := List.forall_mem_cons.1 hread
          rw [suggestAmong_cons hahead (atCompletion_eq_false hcompletion) hfirst]
          rcases hword : argument.reader.readWord word with refusal | value
          · exact absurd ⟨refusal, hword⟩ hhere
          · have hnext : ({ line with passed := line.passed ++ [word], ahead := words ++ rest }
                : Line).index + words.length = line.index + (word :: words).length := by
              rw [← Option.some_inj, ← completion_pass hcompletion, hcompletion]
            dsimp only
            rw [ih hothers rfl (completion_pass hcompletion) hread, hnext, Line.moveTo_pass hahead,
              List.length_cons, List.length_cons, List.getElem?_cons_succ]
            exact if_congr Nat.succ_lt_succ_iff.symm rfl rfl

end Places

-- ============================================================== whole chains

section Asked

variable {chain : Chain α} {line : Line}

/-- The switches found on a line that is being completed. -/
theorem given_completion (hline : line.Completing) :
    chain.given line.completion line
      = chain.scan (some (line.index + line.before.length)) [] line.index
          (line.before ++ line.ahead.drop line.before.length) := by
  rw [← line.ahead_eq, ← hline]
  rfl

/-- For the value of a switch the switch is asked, whatever the words
before its flag are. -/
theorem suggest_of_opening (hline : line.Completing) {opening : Given α}
    (h : chain.opening? line = some opening) :
    chain.suggest line
      = opening.argument.reader.suggest (line.moveTo (line.index + line.before.length)) := by
  have hnone : opening.value = none := by simpa using List.find?_some h
  have hmem : opening ∈ chain.givenBefore line := List.mem_of_find?_eq_some h
  rcases scan_append_cases chain (line.ahead.drop line.before.length) [] line.index line.before with
    ⟨first, last, others, hbefore, hlast, hfirst, hscan⟩ | ⟨hvalues, -⟩
  · -- only the last switch has no value, and no switch before it has the word for its value
    have hsame : opening = last := by
      rw [givenBefore, hbefore, List.mem_append, List.mem_singleton] at hmem
      rcases hmem with hmem | hmem
      · have := hfirst opening hmem
        rw [hnone] at this
        cases this
      · exact hmem
    have hflags : ∀ given ∈ chain.givenBefore line,
        (given.value.isSome → given.flag + 1 < line.index + line.before.length)
          ∧ (given.value = none → given.flag + 1 = line.index + line.before.length) :=
      flag_of_mem_scan
    rw [givenBefore, hbefore] at hflags
    have hat : last.flag + 1 = line.index + line.before.length :=
      (hflags last (by simp)).2 hlast
    have hfound : (chain.given line.completion line).find?
        (fun given => given.flag + 1 == line.index + line.before.length)
        = some { last with value := (line.ahead.drop line.before.length).head? } := by
      rw [given_completion hline, hscan, List.find?_append, List.find?_eq_none.2]
      · rw [Option.none_or, List.find?_cons_of_pos (by simpa using hat)]
      · intro given hgiven
        have := (hflags given (by simp [hgiven])).1 (hfirst given hgiven)
        rw [beq_iff_eq]
        omega
    unfold suggest
    rw [hline]
    dsimp only
    rw [if_neg (by omega), ← hline, hfound, hsame]
  · have := hvalues opening hmem
    rw [hnone] at this
    cases this

/-- For any other word the arguments are asked by their places, on the
words that the switches leave. -/
theorem suggest_of_no_opening (hline : line.Completing) (h : chain.opening? line = none) :
    chain.suggest line
        = suggestAmong
          (fun there => chain.flagSuggestions (chain.given line.completion line) there.current)
          (withoutGiven (chain.given line.completion line) line) chain.positional
      ∧ (∃ rest, (withoutGiven (chain.given line.completion line) line).ahead
          = chain.leftBefore line ++ rest)
      ∧ (withoutGiven (chain.given line.completion line) line).completion
        = some (line.index + (chain.leftBefore line).length) := by
  rcases scan_append_cases chain (line.ahead.drop line.before.length) [] line.index line.before with
    ⟨first, last, others, hbefore, hlast, -⟩ | ⟨hvalues, later, left, hscan, hleave, hlater⟩
  · have := List.find?_eq_none.1 h last (by rw [givenBefore, hbefore]; simp)
    rw [hlast] at this
    exact absurd rfl this
  · have hgiven := (given_completion hline).trans hscan
    have hwithin := within_of_mem_positions_scan chain none [] line.index line.before
    refine ⟨?_, ⟨left, ?_⟩, ?_⟩
    · have hnone : (chain.given line.completion line).find?
          (fun given => given.flag + 1 == line.index + line.before.length) = none := by
        refine List.find?_eq_none.2 fun given hmem => ?_
        rw [hgiven] at hmem
        rw [beq_iff_eq]
        rcases List.mem_append.1 hmem with hmem | hmem
        · have := (flag_of_mem_scan given hmem).1 (hvalues given hmem)
          omega
        · have := hlater given.flag (List.mem_flatMap.2 ⟨given, hmem, List.mem_cons_self ..⟩)
          omega
      unfold suggest
      rw [hline]
      dsimp only
      rw [if_neg (by omega), ← hline, hnone]
      rfl
    · rw [ahead_withoutGiven, hline]
      conv => lhs; rw [line.ahead_eq]
      exact hleave
    · have hcount := Line.length_keep
        ((pairwise_positions_scan chain none [] line.index line.before).imp Nat.ne_of_lt)
        line.index line.before
      rw [keep_positions_scan, Line.between, List.countP_eq_length.2] at hcount
      · have hsize : line.before.length ≤ line.size := by
          conv => rhs; rw [Line.size, line.ahead_eq, List.length_append]
          exact Nat.le_add_right _ _
        rw [hgiven, withoutGiven, List.flatMap_append,
          Line.completion_remove hline (Nat.add_le_add_left hsize _) hwithin hlater]
        unfold leftBefore
        congr 1
        omega
      · intro p hp
        simpa using hwithin p hp

/-- A refused word in its place ends in no suggestions, unless a switch is
asked. -/
theorem suggest_of_refused (hstandard : chain.Standard) (hline : line.Completing)
    (h : chain.opening? line = none) (hrefused : chain.RefusesWord line) :
    chain.suggest line = [] := by
  obtain ⟨hsuggest, ⟨rest, hahead⟩, hcompletion⟩ := suggest_of_no_opening hline h
  rw [hsuggest]
  exact suggestAmong_of_refused
    (fun argument hargument => hstandard argument (List.mem_of_mem_filter hargument))
    hahead hcompletion hrefused

/-- Without one, the argument whose turn it is makes its suggestions. -/
theorem suggest_of_next (hstandard : chain.Standard) (hline : line.Completing)
    (h : chain.opening? line = none) (hread : ¬chain.RefusesWord line) :
    chain.suggest line = chain.offeredNext line := by
  obtain ⟨hsuggest, ⟨rest, hahead⟩, hcompletion⟩ := suggest_of_no_opening hline h
  rw [hsuggest]
  refine suggestAmong_of_read
    (fun argument hargument => hstandard argument (List.mem_of_mem_filter hargument))
    hahead hcompletion fun pair hpair hrefuses => hread ⟨pair, hpair, hrefuses⟩

/-- What has to be so for nothing to be offered on a typed line. For the
value of a switch that is up to the switch, whatever is refused before
it. For any other word a refused word before it, in its place, is enough;
but a refused value of a switch is not, and counts for nothing. -/
theorem suggest_eq_nil_iff {nodes : List Spec.Node}
    (hchain : Chain.ofNodes .standard nodes = .ok chain) (text : String) :
    chain.suggest (.ofText text) = []
      ↔ match chain.opening? (.ofText text) with
        | some opening =>
            opening.argument.reader.suggest
              ((Line.ofText text).moveTo (Line.ofText text).before.length) = []
        | none =>
            chain.RefusesWord (.ofText text) ∨ chain.offeredNext (.ofText text) = [] := by
  have hstandard := Chain.standard_of_ofNodes hchain
  have hline := Line.completing_ofText text
  rcases hopening : chain.opening? (.ofText text) with - | opening
  · dsimp only
    by_cases hrefused : chain.RefusesWord (.ofText text)
    · simp [suggest_of_refused hstandard hline hopening hrefused, hrefused]
    · rw [suggest_of_next hstandard hline hopening hrefused]
      exact (or_iff_right hrefused).symm
  · dsimp only
    have hstart : (Line.ofText text).index = 0 := rfl
    rw [suggest_of_opening hline hopening, hstart, Nat.zero_add]

/-- Two names from lists, bound by their places. -/
def twoNames : Except Spec.Defect (Chain Unit) :=
  Chain.ofSpec .standard "mike|milly art|amy"

/-- Behind a name that is not on the first list nothing is offered. -/
theorem twoNames_suggest_eq_nil :
    let chain := twoNames.toOption.getD ⟨[]⟩
    chain.RefusesWord (.ofText "bob a") ∧ chain.suggest (.ofText "bob a") = [] := by
  intro chain
  have hchain : Chain.ofNodes .standard (Spec.nodes "mike|milly art|amy") = .ok chain := by
    exact Chain.ofNodes_of_isOk (by decide +kernel)
  have hrefused : chain.RefusesWord (.ofText "bob a") := by decide +kernel
  have hopening : chain.opening? (.ofText "bob a") = none := by
    rw [← Option.isNone_iff_eq_none]
    decide +kernel
  refine ⟨hrefused, (suggest_eq_nil_iff hchain "bob a").2 ?_⟩
  rw [hopening]
  exact Or.inl hrefused

/-- A number by its place and a name given as a switch, and the other way
round. -/
def numberAndName : Except Spec.Defect (Chain Unit) × Except Spec.Defect (Chain Unit) :=
  (Chain.ofSpec .standard "@int mike|milly(switch=m,required=false)",
    Chain.ofSpec .standard "@int(switch=n,required=false) mike|milly")

/-- In both the number is refused before the name is completed, and the
names are offered all the same. -/
theorem suggest_ne_nil_of_refused :
    let byPlace := numberAndName.1.toOption.getD ⟨[]⟩
    let asSwitch := numberAndName.2.toOption.getD ⟨[]⟩
    (byPlace.RefusesWord (.ofText "x -m mi")
        ∧ (byPlace.suggest (.ofText "x -m mi")).map SuggestionGroup.values = [["mike", "milly"]])
      ∧ asSwitch.RefusesValue (.ofText "-n ten mi")
        ∧ (asSwitch.suggest (.ofText "-n ten mi")).map SuggestionGroup.values
          = [["mike", "milly"]] := by
  decide +kernel

end Asked

end Chain

end CommandGrammar
