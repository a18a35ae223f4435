/-
Flags among the positional words. Every word `-name` that names a switch
is taken for its flag, but only once: a switch that was found already is
not looked for again, and from there on the same word is passed by like
any other. So an argument outside switches may bind such a word, if it
repeats a flag that the scan has taken further left
(`bound_flag_repeats`).

The scan itself says why it passes a word by (`exists_of_leave`): the
word names no switch, or names one that is found. What was found to begin
with is nothing, and whatever was added to it since is a flag at an
earlier position, so the induction over the scan carries both ways of
being found.
-/
import CommandGrammar.Proofs.Chain.Editing
import CommandGrammar.Proofs.Chain.Preset

namespace CommandGrammar

variable {α : Type}

namespace Chain

-- ======================================================= words passed by

/-- What is no flag where every flag counts has a name that was found
before, or none at all. -/
theorem mem_found_of_no_flag {chain : Chain α} {found : List Nat} {position : Nat}
    {word : String} (h : chain.flag? none found position word = none) {argument : Argument α}
    {place : Nat} (hnamed : chain.switchOf? word = some (argument, place)) : place ∈ found := by
  unfold flag? at h
  rw [hnamed] at h
  by_contra hnew
  simp [hnew] at h

/-- The flag of a switch stands where the scan says. -/
theorem getElem?_flag_of_mem_scan {chain : Chain α} {typing : Option Nat} {found : List Nat}
    {position : Nat} {words : List String} :
    ∀ switch ∈ chain.scan typing found position words,
      ∃ k name, switch.flag = position + k ∧ words[k]? = some ("-" ++ name)
        ∧ switch.argument.switch = some name := by
  fun_induction scan chain typing found position words with
  | case1 => simp
  | case2 found position word rest hflag ih =>
      intro switch hswitch
      obtain ⟨k, name, hat, hword, hname⟩ := ih switch hswitch
      exact ⟨k + 1, name, by omega, hword, hname⟩
  | case3 found position word argument place hflag =>
      intro switch hswitch
      obtain ⟨-, name, rfl, hname⟩ :=
        switch_of_switchOf? (Option.eq_some_of_filter_eq_some hflag)
      rw [List.mem_singleton.1 hswitch]
      exact ⟨0, name, rfl, rfl, hname⟩
  | case4 found position word argument place hflag value rest ih =>
      intro switch hswitch
      rcases List.mem_cons.1 hswitch with rfl | hswitch
      · obtain ⟨-, name, rfl, hname⟩ :=
          switch_of_switchOf? (Option.eq_some_of_filter_eq_some hflag)
        exact ⟨0, name, rfl, rfl, hname⟩
      · obtain ⟨k, name, hat, hword, hname⟩ := ih switch hswitch
        exact ⟨k + 2, name, by omega, hword, hname⟩

/-- A word that the scan passes by stands between the words that it takes,
and a switch that it names is found already. -/
theorem exists_of_leave {chain : Chain α} {found : List Nat} {position : Nat}
    {words : List String} :
    ∀ {i : Nat} {word : String}, (chain.leave none found position words)[i]? = some word →
      ∃ k, words[k]? = some word
        ∧ position + k ∉ (chain.scan none found position words).flatMap Given.positions
        ∧ k = i + ((chain.scan none found position words).flatMap Given.positions).countP
            (· < position + k)
        ∧ ∀ argument place, chain.switchOf? word = some (argument, place) →
            place ∈ found ∨ ∃ switch ∈ chain.scan none found position words,
              switch.place = place ∧ switch.flag < position + k := by
  fun_induction scan chain none found position words with
  | case1 =>
      intro i word h
      simp [leave] at h
  | case2 found position first rest hflag ih =>
      intro i word h
      rw [leave_of_no_flag hflag] at h
      cases i with
      | zero =>
          obtain rfl := Option.some.inj h
          -- all that is taken stands behind this word
          have hbehind := within_of_mem_positions_scan chain none found (position + 1) rest
          refine ⟨0, rfl, fun hp => ?_, ?_, fun argument place hnamed => ?_⟩
          · have := hbehind _ hp
            omega
          · rw [Nat.zero_add]
            refine (List.countP_eq_zero.2 fun p hp => ?_).symm
            have := hbehind p hp
            simp only [decide_eq_true_eq]
            omega
          · exact Or.inl (mem_found_of_no_flag hflag hnamed)
      | succ i =>
          obtain ⟨k, hword, hout, hk, hnamed⟩ := ih h
          have hat : position + (k + 1) = position + 1 + k := by omega
          refine ⟨k + 1, hword, ?_, ?_, ?_⟩
          · rwa [hat]
          · rw [hat]
            omega
          · rwa [hat]
  | case3 found position first argument place hflag =>
      intro i word h
      simp [leave_of_last_flag hflag] at h
  | case4 found position first argument place hflag value rest ih =>
      intro i word h
      rw [leave_of_flag hflag] at h
      obtain ⟨k, hword, hout, hk, hnamed⟩ := ih h
      have hat : position + (k + 2) = position + 2 + k := by omega
      have hpositions : ∀ others : List (Given α),
          (⟨place, argument, position, some value⟩ :: others).flatMap Given.positions
            = position :: (position + 1) :: others.flatMap Given.positions := fun _ => rfl
      refine ⟨k + 2, hword, ?_, ?_, fun other there hother => ?_⟩
      · rw [hpositions, hat]
        simp only [List.mem_cons, not_or]
        exact ⟨by omega, by omega, hout⟩
      · rw [hpositions, hat, List.countP_cons_of_pos (by simp only [decide_eq_true_eq]; omega),
          List.countP_cons_of_pos (by simp only [decide_eq_true_eq]; omega)]
        omega
      · rw [hat]
        rcases hnamed other there hother with hfound | ⟨switch, hswitch, hplace, hbefore⟩
        · rcases List.mem_cons.1 hfound with rfl | hfound
          · exact Or.inr ⟨_, List.mem_cons_self .., rfl, by dsimp only; omega⟩
          · exact Or.inl hfound
        · exact Or.inr ⟨switch, List.mem_cons_of_mem _ hswitch, hplace, hbefore⟩

-- ========================================================== words bound

/-- The words that arguments outside switches take, and those left behind
them, are the words that the scan passes by. -/
theorem taken_append_ahead {chain : Chain α} (hstandard : chain.Standard) {line : Line}
    {matched : Match α} (hmatched : chain.parse line = .ok matched) {taken : List String}
    (haccounts : matched.Accounts chain line taken) :
    taken ++ matched.rest.ahead = chain.leave none [] line.index line.ahead := by
  have hwords := (onward_of_parse hstandard hmatched).words
  rw [Line.allWords, Line.allWords, haccounts.passed, List.append_assoc] at hwords
  rw [← ahead_withoutGiven]
  exact List.append_cancel_left hwords

/-- The word at a position repeats the flag of a switch: the same word stands
further left and is taken for that flag. -/
def Repeats (chain : Chain α) (line : Line) (p : Nat) (name : String) : Prop :=
  ∃ switch ∈ chain.given none line, switch.argument.switch = some name
    ∧ line.index ≤ switch.flag ∧ switch.flag < p
    ∧ line.allWords[switch.flag]? = some ("-" ++ name)

/-- Where the words of a line are that no switch takes. Those among them that
name a switch repeat its flag. -/
theorem exists_of_passed_by {chain : Chain α} {line : Line} {matched : Match α}
    (hmatched : chain.parse line = .ok matched) {i : Nat} {word : String}
    (h : (chain.leave none [] line.index line.ahead)[i]? = some word) :
    ∃ p, line.index ≤ p ∧ line.allWords[p]? = some word
      ∧ chain.track line p = some (line.index + i)
      ∧ ∀ other ∈ chain.arguments, ∀ name, other.switch = some name →
          word = "-" ++ name → chain.Repeats line p name := by
  obtain ⟨k, hword, hout, hk, hnamed⟩ := exists_of_leave h
  have hahead : ∀ {j : Nat}, line.allWords[line.index + j]? = line.ahead[j]? := by
    intro j
    unfold Line.allWords Line.index
    rw [List.getElem?_append_right (Nat.le_add_right ..), Nat.add_sub_cancel_left]
  refine ⟨line.index + k, Nat.le_add_right .., hahead.trans hword, ?_,
    fun other hother name hname hflag => ?_⟩
  · have htrack : chain.track line (line.index + k)
        = some (line.index + k - (chain.taken line).countP (· < line.index + k)) := by
      rw [track, hmatched]
      exact if_neg hout
    rw [htrack]
    unfold Chain.taken given
    congr 1
    omega
  · -- the scan finds the first argument with that name, and so does the word's flag
    obtain ⟨first, there, hfirst, hthere, hsame⟩ := exists_switchOf? ⟨other, hother, hname⟩
    rcases hnamed first there (hflag ▸ hfirst) with hnone | ⟨switch, hswitch, hplace, hbefore⟩
    · cases hnone
    · obtain ⟨j, flagged, hstands, hfound, hflagged⟩ := getElem?_flag_of_mem_scan switch hswitch
      have hfirst := getElem?_of_mem_scan switch hswitch
      rw [hplace, hthere] at hfirst
      obtain rfl := Option.some.inj hfirst
      obtain rfl : name = flagged := Option.some.inj (hsame.symm.trans hflagged)
      refine ⟨switch, hswitch, hflagged, by omega, hbefore, ?_⟩
      rw [hstands, hahead, hfound]

/-- An argument outside switches binds without a word, or by a word that no
switch takes. That word is the flag of a switch of the chain only if it
repeats a flag taken further left. -/
theorem bound_flag_repeats {nodes : List Spec.Node} {chain : Chain α}
    (hchain : ofNodes .standard nodes = .ok chain) {line : Line} {matched : Match α}
    (hmatched : chain.parse line = .ok matched) {place : Nat} {argument : Argument α}
    (hargument : chain.arguments[place]? = some argument) (hpositional : argument.switch = none) :
    ∃ value, matched.bindings[place]? = some ⟨value, argument.suppressed⟩
      ∧ (argument.Binds none value
        ∨ ∃ p word, line.index ≤ p ∧ line.allWords[p]? = some word
          ∧ chain.track line p = some (line.index + placed (chain.arguments.take place))
          ∧ argument.Binds (some word) value
          ∧ ∀ other ∈ chain.arguments, ∀ name, other.switch = some name →
              word = "-" ++ name → chain.Repeats line p name) := by
  have hstandard := standard_of_ofNodes hchain
  obtain ⟨taken, haccounts⟩ := accounts_of_parse hstandard hmatched
  obtain ⟨value, hvalue, hbinds⟩ := haccounts.bound.getElem?_bindings hargument
  refine ⟨value, hvalue, ?_⟩
  rw [ownWord, hpositional, if_neg (by simp)] at hbinds
  cases hown : taken[placed (chain.arguments.take place)]? with
  | none => exact Or.inl (hown ▸ hbinds)
  | some word =>
      have hleave : (chain.leave none [] line.index line.ahead)[placed
          (chain.arguments.take place)]? = some word := by
        rw [← taken_append_ahead hstandard hmatched haccounts,
          List.getElem?_append_left (List.getElem?_eq_some_iff.1 hown).1, hown]
      obtain ⟨p, hle, hword, htrack, hrepeats⟩ := exists_of_passed_by hmatched hleave
      exact Or.inr ⟨p, word, hle, hword, htrack, hown ▸ hbinds, hrepeats⟩

/-- A text behind which a switch may be given. -/
def verbose : String := "@string @string(switch=v,required=false)"

/-- The flag is given twice. The text binds the second one, which repeats the
first. -/
theorem verbose_flag_repeats :
    let chain : Chain Unit := (ofSpec .standard verbose).toOption.getD ⟨[]⟩
    let line : Line := .ofText "-v loud -v"
    ∃ matched argument, chain.parse line = .ok matched ∧ chain.arguments[0]? = some argument
      ∧ argument.switch = none ∧ chain.Repeats line 2 "v"
      ∧ ∃ value, matched.bindings[0]? = some ⟨value, argument.suppressed⟩
        ∧ argument.Binds (some "-v") value := by
  intro chain line
  have hchain : ofNodes .standard (Spec.nodes verbose) = .ok chain :=
    ofNodes_of_isOk (by decide +kernel)
  obtain ⟨matched, hmatched⟩ := exists_of_isOk
    (by decide +kernel : (chain.parse line).isOk = true)
  obtain ⟨argument, hargument⟩ : ∃ argument, chain.arguments[0]? = some argument :=
    Option.isSome_iff_exists.1 (by decide +kernel)
  have hfields : ∀ argument ∈ chain.arguments[0]?,
      argument.switch = none ∧ argument.required = true := by decide +kernel
  obtain ⟨hpositional, hrequired⟩ := hfields argument hargument
  have hswitch : ∃ other ∈ chain.arguments, other.switch = some "v" := by decide +kernel
  obtain ⟨other, hother, hname⟩ := hswitch
  obtain ⟨value, hvalue, hbinds⟩ := bound_flag_repeats hchain hmatched hargument hpositional
  refine ⟨matched, argument, hmatched, hargument, hpositional, ?_⟩
  rcases hbinds with hnone | ⟨p, word, -, hword, htrack, hbinds, hrepeats⟩
  · cases hnone <;> simp_all
  · -- of the three words only the last one is first once the switch is taken out
    have hlast : ∀ p < 3, chain.track line p = some 0 → p = 2 := by decide +kernel
    have hwords : line.allWords = ["-v", "loud", "-v"] := by decide +kernel
    rw [hwords] at hword
    have hp : p < 3 := (List.getElem?_eq_some_iff.1 hword).1
    obtain rfl : p = 2 := hlast p hp htrack
    obtain rfl : "-v" = word := Option.some.inj hword
    exact ⟨hrepeats other hother "v" hname rfl, value, hvalue, hbinds⟩

/-- A word that names a switch of the chain is bound outside switches: the
text takes the flag that is given a second time. -/
theorem flag_is_bound :
    let chain : Chain Unit := (ofSpec .standard verbose).toOption.getD ⟨[]⟩
    let line : Line := .ofText "-v loud -v"
    (ofSpec (α := Unit) .standard verbose).isOk = true
      ∧ chain.arguments.map Argument.switch = [none, some "v"]
      ∧ line.allWords = ["-v", "loud", "-v"]
      ∧ (chain.parse line).toOption.map
          (fun matched => matched.bindings.map fun binding => binding.value.bind Value.text?)
        = some [some "-v", some "loud"]
      ∧ chain.track line 2 = some 0 := by
  decide +kernel

end Chain

end CommandGrammar
