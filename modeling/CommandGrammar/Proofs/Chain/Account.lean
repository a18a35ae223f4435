/-
Matching a chain loses no word, reads none twice and keeps their order.
The words ahead are the switches given, each a flag with perhaps a value
behind it, and among them the other words (`Mixed`); of these the
arguments outside switches take the first ones, one each and in the order
of the chain, and the rest is left (`Bound`).

A match keeps two counts of this. Flags and values are counted while their
values are read, before any word leaves the line; the other words by how
far the cursor moves afterwards. The scan says how many words the first
count stands for (`Mixed.length_eq`), binding how many the second one does
(`bindAll_eq_ok`), and both together are all words that are gone. A
shortfall stops somewhere within these counts, so it never claims more
words than there are (`consumed_le_of_parse`).
-/
import CommandGrammar.Proofs.Chain.SwitchOrder

namespace CommandGrammar

variable {α : Type}

-- ================================================== whose word is whose

/-- Switches with plain words among them: of each switch its flag and, if
it has a value, the word right behind the flag. Both lists are in the
order of the line. -/
inductive Mixed : List (Given α) → List String → List String → Prop
  | nil : Mixed [] [] []
  | word {given : List (Given α)} {plain words : List String} (word : String) :
      Mixed given plain words → Mixed given (word :: plain) (word :: words)
  | pair {switch : Given α} {given : List (Given α)} {plain words : List String}
      {name value : String} :
      switch.argument.switch = some name → switch.value = some value →
      Mixed given plain words →
      Mixed (switch :: given) plain (("-" ++ name) :: value :: words)
  | last {switch : Given α} {name : String} :
      switch.argument.switch = some name → switch.value = none →
      Mixed [switch] [] ["-" ++ name]

/-- What an argument binds if `own` is the word of its own. Without one it
has to be optional, and its preset is read, if there is any. -/
inductive Argument.Binds (argument : Argument α) : Option String → Option (Value α) → Prop
  | word {word : String} {value : Value α} :
      argument.reader.readWord word = .ok value → Binds argument (some word) (some value)
  | preset {text : String} {value : Value α} :
      argument.required = false → argument.preset = some text →
      readText argument.reader text = .ok value → Binds argument none (some value)
  | unset : argument.required = false → argument.preset = none → Binds argument none none

/-- Arguments from a place in the chain on, the words that they take and
the words that they leave, and what they bind: one entry per argument.
Only a switch may have no word while words are left. -/
inductive Bound (given : List (Given α)) (left : List String) :
    Nat → List (Argument α) → List String → List (Binding α) → Prop
  | nil {place : Nat} : Bound given left place [] [] []
  | switch {place : Nat} {argument : Argument α} {rest : List (Argument α)}
      {taken : List String} {bindings : List (Binding α)} {value : Option (Value α)} :
      argument.switch.isSome →
      argument.Binds ((given.find? (·.place == place)).bind Given.value) value →
      Bound given left (place + 1) rest taken bindings →
      Bound given left place (argument :: rest) taken
        (⟨value, argument.suppressed⟩ :: bindings)
  | word {place : Nat} {argument : Argument α} {rest : List (Argument α)}
      {taken : List String} {bindings : List (Binding α)} {word : String}
      {value : Option (Value α)} :
      argument.switch = none → argument.Binds (some word) value →
      Bound given left (place + 1) rest taken bindings →
      Bound given left place (argument :: rest) (word :: taken)
        (⟨value, argument.suppressed⟩ :: bindings)
  | missing {place : Nat} {argument : Argument α} {rest : List (Argument α)}
      {bindings : List (Binding α)} {value : Option (Value α)} :
      argument.switch = none → argument.Binds none value → left = [] →
      Bound given left (place + 1) rest [] bindings →
      Bound given left place (argument :: rest) [] (⟨value, argument.suppressed⟩ :: bindings)

/-- What becomes of the words of a line that a chain matches, given the
words that arguments outside switches take. -/
structure Match.Accounts (chain : Chain α) (line : Line) (matched : Match α)
    (taken : List String) : Prop where
  /-- The words ahead are those of the switches, those taken and those
  left, in the order of the line. -/
  words : Mixed (chain.given none line) (taken ++ matched.rest.ahead) line.ahead
  /-- A switch is an argument of the chain. -/
  switches : ∀ switch ∈ chain.given none line,
    chain.arguments[switch.place]? = some switch.argument
  /-- Each is given once at most. -/
  once : ((chain.given none line).map Given.place).Nodup
  /-- Every argument binds by its own word, or without one. -/
  bound : Bound (chain.given none line) matched.rest.ahead 0 chain.arguments taken
    matched.bindings
  /-- The words that are not left are counted. -/
  consumed : matched.consumed
    = ((chain.given none line).map (·.positions.length)).sum + taken.length
  /-- The words passed before stay, those taken are put behind them. -/
  passed : matched.rest.passed = line.passed ++ taken
  /-- How the line is shown stays. -/
  label : matched.rest.label = line.label

-- ================================================================ the scan

theorem Mixed.length_eq {given : List (Given α)} {plain words : List String}
    (h : Mixed given plain words) :
    words.length = (given.map (·.positions.length)).sum + plain.length := by
  induction h with
  | nil => rfl
  | word word _ ih =>
      simp only [List.length_cons, ih]
      omega
  | pair _ hvalue _ ih =>
      simp only [List.length_cons, List.map_cons, List.sum_cons, Given.positions, hvalue, ih]
      simp
      omega
  | last _ hvalue => simp [Given.positions, hvalue]

namespace Chain

/-- A scan passes by the plain words and takes the others. -/
theorem mixed_scan (chain : Chain α) (typing : Option Nat) (found : List Nat) (position : Nat)
    (words : List String) :
    Mixed (chain.scan typing found position words) (chain.leave typing found position words)
      words := by
  have hnamed : ∀ {found position word argument place},
      chain.flag? typing found position word = some (argument, place) →
      ∃ name, word = "-" ++ name ∧ argument.switch = some name := fun hflag =>
    (switch_of_switchOf? (Option.eq_some_of_filter_eq_some hflag)).2
  fun_induction scan chain typing found position words with
  | case1 => exact .nil
  | case2 found position word rest hflag ih =>
      rw [leave_of_no_flag hflag]
      exact .word word ih
  | case3 found position word argument place hflag =>
      obtain ⟨name, rfl, hname⟩ := hnamed hflag
      rw [leave_of_last_flag hflag]
      exact .last hname rfl
  | case4 found position word argument place hflag value rest ih =>
      obtain ⟨name, rfl, hname⟩ := hnamed hflag
      rw [leave_of_flag hflag]
      exact .pair hname rfl ih

/-- A scan finds each switch once, and none that was found before. -/
theorem nodup_place_scan (chain : Chain α) (typing : Option Nat) (found : List Nat)
    (position : Nat) (words : List String) :
    ((chain.scan typing found position words).map Given.place).Nodup
      ∧ ∀ place ∈ found, place ∉ (chain.scan typing found position words).map Given.place := by
  have hnew : ∀ {found position word argument place},
      chain.flag? typing found position word = some (argument, place) → place ∉ found := by
    intro found position word argument place hflag
    obtain ⟨-, hkept⟩ := Option.filter_eq_some_iff.1 hflag
    simp only [Bool.and_eq_true, Bool.not_eq_true', List.contains_eq_mem,
      decide_eq_false_iff_not] at hkept
    exact hkept.1
  fun_induction scan chain typing found position words with
  | case1 => simp
  | case2 found position word rest hflag ih => exact ih
  | case3 found position word argument place hflag =>
      refine ⟨List.nodup_singleton _, fun other hother => ?_⟩
      simp only [List.map_cons, List.map_nil, List.mem_singleton]
      rintro rfl
      exact hnew hflag hother
  | case4 found position word argument place hflag value rest ih =>
      obtain ⟨hnodup, hold⟩ := ih
      refine ⟨List.nodup_cons.2 ⟨hold place (List.mem_cons_self ..), hnodup⟩,
        fun other hother => ?_⟩
      simp only [List.map_cons, List.mem_cons, not_or]
      refine ⟨?_, hold other (List.mem_cons_of_mem _ hother)⟩
      rintro rfl
      exact hnew hflag hother

end Chain

-- ================================================================ binding

theorem Argument.binds_of_missing {argument : Argument α} {value : Option (Value α)}
    (h : argument.missing = .ok value) : argument.Binds none value := by
  unfold missing at h
  by_cases hrequired : argument.required = true
  · rw [if_pos hrequired] at h
    cases h
  · rw [if_neg hrequired] at h
    have hoptional : argument.required = false := by simpa using hrequired
    cases hpreset : argument.preset with
    | none =>
        rw [hpreset] at h
        injection h with h
        exact h ▸ .unset hoptional hpreset
    | some text =>
        rw [hpreset] at h
        obtain ⟨found, hread, rfl⟩ := eq_ok_of_map_eq_ok h
        exact .preset hoptional hpreset hread

/-- A switch that was given binds by the word behind its flag. -/
theorem Given.binds_of_read {given : Given α} {value : Option (Value α)} {words : Nat}
    (h : given.read = .ok (value, words)) :
    given.argument.Binds given.value value ∧ given.positions.length = words + 1 := by
  unfold read at h
  unfold positions
  cases hvalue : given.value with
  | none =>
      rw [hvalue] at h
      obtain ⟨found, hmissing, h⟩ := eq_ok_of_map_eq_ok h
      injection h with hfound hwords
      subst hfound hwords
      exact ⟨Argument.binds_of_missing hmissing, rfl⟩
  | some word =>
      rw [hvalue] at h
      obtain ⟨found, hread, h⟩ := eq_ok_of_map_eq_ok h
      injection h with hfound hwords
      subst hfound hwords
      exact ⟨.word hread, rfl⟩

namespace Chain

/-- What was read for the switches given is found by their places. -/
structure ReadFor (given : List (Given α)) (switches : List (Nat × Option (Value α))) :
    Prop where
  /-- What is found was read for the switch given at the place. -/
  found : ∀ {place : Nat} {value : Option (Value α)}, switches.lookup place = some value →
    ∃ switch, given.find? (·.place == place) = some switch
      ∧ switch.argument.Binds switch.value value
  /-- Where nothing is found, none was given. -/
  missing : ∀ {place : Nat}, switches.lookup place = none →
    given.find? (·.place == place) = none

/-- Reading the values of switches counts their words. -/
theorem readGiven_eq_ok {given : List (Given α)} :
    ∀ {consumed total : Nat} {switches : List (Nat × Option (Value α))},
      readGiven consumed given = .ok (switches, total) →
      ReadFor given switches ∧ total = consumed + (given.map (·.positions.length)).sum := by
  induction given with
  | nil =>
      intro consumed total switches h
      injection h with h
      injection h with hswitches htotal
      subst hswitches htotal
      exact ⟨⟨nofun, fun _ => rfl⟩, rfl⟩
  | cons first rest ih =>
      intro consumed total switches h
      obtain ⟨value, words, others, hread, hrest, rfl⟩ := readGiven_cons_eq_ok_iff.1 h
      obtain ⟨hbinds, hwords⟩ := Given.binds_of_read hread
      obtain ⟨hothers, htotal⟩ := ih hrest
      have hlookup : ∀ place, ((first.place, value) :: others).lookup place
          = if place = first.place then some value else others.lookup place :=
        fun place => Dictionary.lookup_cons_eq ..
      refine ⟨⟨fun {place _} hfound => ?_, fun {place} hnone => ?_⟩, ?_⟩
      · rw [hlookup] at hfound
        rw [List.find?_cons]
        by_cases hplace : place = first.place
        · rw [if_pos hplace] at hfound
          injection hfound with hfound
          subst hplace hfound
          exact ⟨first, by simp, hbinds⟩
        · rw [if_neg hplace] at hfound
          rw [beq_false_of_ne (Ne.symm hplace)]
          exact hothers.found hfound
      · rw [hlookup] at hnone
        rw [List.find?_cons]
        by_cases hplace : place = first.place
        · rw [if_pos hplace] at hnone
          cases hnone
        · rw [if_neg hplace] at hnone
          rw [beq_false_of_ne (Ne.symm hplace)]
          exact hothers.missing hnone
      · rw [List.map_cons, List.sum_cons, htotal, hwords]
        omega

theorem consumed_le_of_readGiven {given : List (Given α)} :
    ∀ {consumed : Nat} {shortfall : Shortfall}, readGiven consumed given = .error shortfall →
      shortfall.consumed ≤ consumed + (given.map (·.positions.length)).sum := by
  induction given with
  | nil => intro consumed shortfall h; cases h
  | cons first rest ih =>
      intro consumed shortfall h
      rw [readGiven] at h
      rw [List.map_cons, List.sum_cons]
      rcases hread : first.read with refusal | ⟨value, words⟩
      · -- the flag is counted, its value is not
        rw [hread] at h
        injection h with h
        rw [← h]
        have hflag : 1 ≤ first.positions.length := by simp [Given.positions]
        dsimp only
        omega
      · obtain ⟨-, hwords⟩ := Given.binds_of_read hread
        rw [hread] at h
        dsimp only at h
        rcases hrest : readGiven (consumed + 1 + words) rest with other | read
        · have hle := ih hrest
          rw [hrest] at h
          injection h with h
          subst h
          omega
        · rw [hrest] at h
          cases h

/-- Binding one argument: a switch by what was read for it, any other
argument by the next word, and where that is missing by what stands in. -/
theorem bindOne_eq_ok {switches : List (Nat × Option (Value α))} {place : Nat}
    {line behind : Line} {argument : Argument α} {value : Option (Value α)}
    (hstandard : argument.reader.Standard)
    (h : bindOne switches place line argument = .ok (value, behind)) :
    (argument.switch.isSome ∧ behind = line
        ∧ (switches.lookup place = some value
          ∨ switches.lookup place = none ∧ argument.Binds none value))
      ∨ (argument.switch = none ∧ behind = line ∧ line.ahead = [] ∧ argument.Binds none value)
      ∨ argument.switch = none ∧ ∃ word rest, line.ahead = word :: rest
        ∧ argument.Binds (some word) value
        ∧ behind = { line with passed := line.passed ++ [word], ahead := rest } := by
  -- what stands in for missing words is read from a line of its own
  have hmissing : argument.missing.map (·, line) = .ok (value, behind) →
      behind = line ∧ argument.Binds none value := by
    intro h
    obtain ⟨found, hfound, h⟩ := eq_ok_of_map_eq_ok h
    injection h with hvalue hline
    subst hvalue
    exact ⟨hline.symm, Argument.binds_of_missing hfound⟩
  unfold bindOne at h
  by_cases hswitch : argument.switch.isSome
  · rw [if_pos hswitch] at h
    left
    cases hlookup : switches.lookup place with
    | some found =>
        rw [hlookup] at h
        injection h with h
        injection h with hvalue hline
        subst hvalue
        exact ⟨hswitch, hline.symm, Or.inl rfl⟩
    | none =>
        rw [hlookup] at h
        obtain ⟨hline, hbinds⟩ := hmissing h
        exact ⟨hswitch, hline, Or.inr ⟨rfl, hbinds⟩⟩
  · rw [if_neg hswitch] at h
    right
    have hnone : argument.switch = none := by simpa using hswitch
    cases hahead : line.ahead with
    | nil =>
        rw [Line.isEnd, hahead, if_pos List.isEmpty_nil] at h
        obtain ⟨hline, hbinds⟩ := hmissing h
        exact Or.inl ⟨hnone, hline, rfl, hbinds⟩
    | cons word rest =>
        rw [Line.isEnd, hahead, if_neg (by simp), read_of_ahead hstandard hahead] at h
        obtain ⟨⟨found, passed⟩, hread, h⟩ := eq_ok_of_map_eq_ok h
        obtain ⟨bound, hbound, hpassed⟩ := eq_ok_of_map_eq_ok hread
        injection h with hvalue hline
        injection hpassed with hfound hpassed
        subst hvalue hfound
        exact Or.inr ⟨hnone, word, rest, rfl, .word hbound, by rw [← hline, ← hpassed]⟩

/-- Binding takes words from the front, one for each argument that is not
a switch as long as there are any, and counts them. -/
theorem bindAll_eq_ok {given : List (Given α)} {switches : List (Nat × Option (Value α))}
    (hread : ReadFor given switches) {arguments : List (Argument α)} :
    ∀ {place consumed : Nat} {line : Line} {matched : Match α},
      (∀ argument ∈ arguments, argument.reader.Standard) →
      (∀ switch ∈ given, ∀ i argument, arguments[i]? = some argument →
        switch.place = place + i → switch.argument = argument) →
      bindAll switches place consumed line arguments = .ok matched →
      ∃ taken, line.ahead = taken ++ matched.rest.ahead
        ∧ Bound given matched.rest.ahead place arguments taken matched.bindings
        ∧ matched.consumed = consumed + taken.length
        ∧ matched.rest.passed = line.passed ++ taken
        ∧ matched.rest.label = line.label := by
  induction arguments with
  | nil =>
      intro place consumed line matched _ _ h
      injection h with h
      subst h
      exact ⟨[], rfl, .nil, rfl, (List.append_nil _).symm, rfl⟩
  | cons argument rest ih =>
      intro place consumed line matched hstandard hplaces h
      obtain ⟨value, behind, others, hone, hothers, rfl⟩ := bindAll_cons_eq_ok h
      obtain ⟨hhere, hrest⟩ := List.forall_mem_cons.1 hstandard
      obtain ⟨taken, hahead, hbound, hconsumed, hpassed, hlabel⟩ := ih hrest
        (fun switch hswitch i other hother hplace =>
          hplaces switch hswitch (i + 1) other hother (by omega)) hothers
      rcases bindOne_eq_ok hhere hone with
        ⟨hswitch, rfl, hvalue⟩ | ⟨hnone, rfl, hend, hbinds⟩
          | ⟨hnone, word, words, hwords, hbinds, rfl⟩
      · -- a switch leaves the line as it is
        refine ⟨taken, hahead, .switch hswitch ?_ hbound, ?_, hpassed, hlabel⟩
        · rcases hvalue with hvalue | ⟨hvalue, hbinds⟩
          · obtain ⟨switch, hfind, hbinds⟩ := hread.found hvalue
            have hsame : switch.argument = argument :=
              hplaces switch (List.mem_of_find?_eq_some hfind) 0 argument rfl
                (by simpa using List.find?_some hfind)
            rw [hfind]
            exact hsame ▸ hbinds
          · rw [hread.missing hvalue]
            exact hbinds
        · rw [hconsumed]
          omega
      · -- no word is left, so none is taken from here on
        rw [hend] at hahead
        obtain ⟨rfl, hleft⟩ := List.nil_eq_append_iff.1 hahead
        refine ⟨[], ?_, .missing hnone hbinds hleft hbound, ?_, hpassed, hlabel⟩
        · rw [hend, hleft]
          rfl
        · rw [hconsumed]
          omega
      · have hnext : words = taken ++ others.rest.ahead := hahead
        refine ⟨word :: taken, ?_, .word hnone hbinds hbound, ?_, ?_, hlabel⟩
        · rw [hwords, hnext]
          rfl
        · rw [hconsumed]
          simp only [Line.index, List.length_append, List.length_cons, List.length_nil]
          omega
        · rw [hpassed]
          simp

theorem consumed_le_of_bindAll {switches : List (Nat × Option (Value α))}
    {arguments : List (Argument α)} :
    ∀ {place consumed : Nat} {line : Line} {shortfall : Shortfall},
      (∀ argument ∈ arguments, argument.reader.Standard) →
      bindAll switches place consumed line arguments = .error shortfall →
      shortfall.consumed ≤ consumed + line.size := by
  induction arguments with
  | nil => intro place consumed line shortfall _ h; cases h
  | cons argument rest ih =>
      intro place consumed line shortfall hstandard h
      obtain ⟨hhere, hrest⟩ := List.forall_mem_cons.1 hstandard
      rw [bindAll] at h
      rcases hone : bindOne switches place line argument with refusal | ⟨value, behind⟩
      · rw [hone] at h
        injection h with h
        rw [← h]
        exact Nat.le_add_right _ _
      · rw [hone] at h
        dsimp only at h
        rcases hothers : bindAll switches (place + 1) (consumed + (behind.index - line.index))
          behind rest with other | matched
        · rw [hothers] at h
          injection h with h
          subst h
          have hle := ih hrest hothers
          -- what the cursor passes is counted, and is no longer ahead
          have hmoved : behind.index - line.index + behind.size = line.size := by
            rcases bindOne_eq_ok hhere hone with
              ⟨-, rfl, -⟩ | ⟨-, rfl, -, -⟩ | ⟨-, word, words, hwords, -, rfl⟩
            · omega
            · omega
            · simp only [Line.index, Line.size, hwords, List.length_append, List.length_cons,
                List.length_nil]
              omega
          omega
        · rw [hothers] at h
          cases h

-- ============================================================ whole chains

/-- A match accounts for every word. -/
theorem accounts_of_parse {chain : Chain α} (hstandard : chain.Standard) {line : Line}
    {matched : Match α} (h : chain.parse line = .ok matched) :
    ∃ taken, matched.Accounts chain line taken := by
  obtain ⟨switches, consumed, hread, hbind⟩ := parse_eq_ok h
  obtain ⟨hswitches, htotal⟩ := readGiven_eq_ok hread
  have hargument : ∀ switch ∈ chain.given none line,
      chain.arguments[switch.place]? = some switch.argument := getElem?_of_mem_scan
  obtain ⟨taken, hahead, hbound, hconsumed, hpassed, hlabel⟩ :=
    bindAll_eq_ok hswitches hstandard
      (fun switch hswitch i argument hplace hi => by
        rw [Nat.zero_add] at hi
        subst hi
        exact Option.some.inj ((hargument switch hswitch).symm.trans hplace)) hbind
  rw [ahead_withoutGiven] at hahead
  refine ⟨taken, ⟨?_, hargument, (nodup_place_scan ..).1, hbound, ?_, hpassed, hlabel⟩⟩
  · rw [← hahead]
    exact mixed_scan ..
  · rw [hconsumed, htotal]
    omega

/-- The words consumed and those left are all words that were ahead. -/
theorem consumed_add_size_of_parse {chain : Chain α} (hstandard : chain.Standard) {line : Line}
    {matched : Match α} (h : chain.parse line = .ok matched) :
    matched.consumed + matched.rest.size = line.size := by
  obtain ⟨taken, haccounts⟩ := accounts_of_parse hstandard h
  have hlength := haccounts.words.length_eq
  rw [List.length_append] at hlength
  rw [haccounts.consumed, Line.size, Line.size, hlength]
  omega

/-- A shortfall has not consumed more words than were ahead. -/
theorem consumed_le_of_parse {chain : Chain α} (hstandard : chain.Standard) {line : Line}
    {shortfall : Shortfall} (h : chain.parse line = .error shortfall) :
    shortfall.consumed ≤ line.size := by
  have hlength := (chain.mixed_scan none [] line.index line.ahead).length_eq
  unfold parse at h
  dsimp only at h
  rcases hread : readGiven 0 (chain.given none line) with other | ⟨switches, consumed⟩
  · rw [hread] at h
    injection h with h
    subst h
    have hle := consumed_le_of_readGiven hread
    rw [Line.size, hlength]
    unfold given at hle
    omega
  · rw [hread] at h
    have hle := consumed_le_of_bindAll hstandard h
    obtain ⟨-, htotal⟩ := readGiven_eq_ok hread
    rw [Line.size, ahead_withoutGiven] at hle
    rw [Line.size, hlength]
    unfold given at htotal
    omega

/-- The line that matching leaves: what the chain did not take, or the
line as it was. -/
def lineAfter (chain : Chain α) (line : Line) : Line :=
  match chain.parse line with
  | .ok matched => matched.rest
  | .error _ => line

/-- Matching a chain accounts for every word of the line: those of the
switches given, those that the other arguments take and those left are the
words that were ahead, in their order, and each argument binds by a word of
its own or by what stands in for it. Where the chain does not match, the
line stays, and no more words are counted than there were. -/
theorem parse_accounts {chain : Chain α} {nodes : List Spec.Node}
    (hchain : ofNodes .standard nodes = .ok chain) (line : Line) :
    (∀ matched, chain.parse line = .ok matched →
        chain.lineAfter line = matched.rest ∧ ∃ taken, matched.Accounts chain line taken)
      ∧ ∀ shortfall, chain.parse line = .error shortfall →
        chain.lineAfter line = line ∧ shortfall.consumed ≤ line.size := by
  have hstandard := standard_of_ofNodes hchain
  refine ⟨fun matched h => ⟨?_, accounts_of_parse hstandard h⟩,
    fun shortfall h => ⟨?_, consumed_le_of_parse hstandard h⟩⟩
  · rw [lineAfter, h]
  · rw [lineAfter, h]

/-- Two switches around a choice, and a text that may be left out. -/
def ordering : String :=
  "@int(switch=n,default=7,required=false) add|drop @string(required=false) @string(switch=s)"

/-- The value of `-s` looks like the other flag, which then stands at the
end without a value. Where the choice is refused, three words count. -/
theorem ordering_parse_accounts :
    let chain : Chain Unit := (ofSpec .standard ordering).toOption.getD ⟨[]⟩
    let line (word : String) : Line :=
      { passed := ["shop"], ahead := ["-s", "-n", word, "-n"], label := "at", completion := none }
    (∃ matched taken, chain.parse (line "add") = .ok matched
        ∧ matched.Accounts chain (line "add") taken
        ∧ (matched.consumed, matched.rest.passed, matched.rest.ahead) = (4, ["shop", "add"], [])
        ∧ matched.bindings.map (fun binding => (binding.value.bind Value.int?).map Int64.toInt)
          = [some 7, none, none, none]
        ∧ matched.bindings.map (fun binding => binding.value.bind Value.text?)
          = [none, some "add", none, some "-n"])
      ∧ ∃ shortfall, chain.parse (line "sell") = .error shortfall
        ∧ chain.lineAfter (line "sell") = line "sell"
        ∧ shortfall.consumed = 3 ∧ shortfall.consumed ≤ (line "sell").size := by
  intro chain line
  have hchain : ofNodes .standard (Spec.nodes ordering) = .ok chain :=
    ofNodes_of_isOk (by decide +kernel)
  have hmatches : (chain.parse (line "add")).isOk = true := by decide +kernel
  have hrefused : (chain.parse (line "sell")).isOk = false := by decide +kernel
  constructor
  · obtain ⟨matched, hmatched⟩ : ∃ matched, chain.parse (line "add") = .ok matched := by
      rcases h : chain.parse (line "add") with shortfall | matched
      · rw [h] at hmatches
        cases hmatches
      · exact ⟨matched, rfl⟩
    obtain ⟨-, taken, haccounts⟩ := (parse_accounts hchain (line "add")).1 matched hmatched
    have hvalues : matched = (chain.parse (line "add")).toOption.getD ⟨[], 0, line "add"⟩ := by
      rw [hmatched]
      rfl
    refine ⟨matched, taken, hmatched, haccounts, ?_⟩
    rw [hvalues]
    decide +kernel
  · obtain ⟨shortfall, hshortfall⟩ :
        ∃ shortfall, chain.parse (line "sell") = .error shortfall := by
      rcases h : chain.parse (line "sell") with shortfall | matched
      · exact ⟨shortfall, rfl⟩
      · rw [h] at hrefused
        cases hrefused
    obtain ⟨hstays, hle⟩ := (parse_accounts hchain (line "sell")).2 shortfall hshortfall
    refine ⟨shortfall, hshortfall, hstays, ?_, hle⟩
    have hthree : (match chain.parse (line "sell") with
        | .error shortfall => shortfall.consumed
        | .ok _ => 0) = 3 := by
      decide +kernel
    rw [hshortfall] at hthree
    exact hthree

end Chain

end CommandGrammar
