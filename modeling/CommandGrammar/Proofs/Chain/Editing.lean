/-
A line under a series of changes. The cursor is passed on or moved, also back;
words are put in where it stands; and a chain that matches takes words out, the
flags and values of the switches given. Each change moves words of the line to
other positions. `track` says of a position where the change moves its word, or
that it takes the word out, and does not know which word is being completed.

The line itself keeps that word's position only, and every change renumbers it
in a way of its own. `Moves` says that the two agree: the position kept goes
where `track` moves it, the words at the positions are the same and stay in
their order, and the end of the line goes to the end of the line, so no word
that is tracked lies past it. It is shown of each kind of change
(`moves_apply`). Since changes compose, it holds of a series of them
(`moves_run`), and after any series the word being completed is the one that it
was at first, wherever the changes have moved it (`keeps_run`).

Taking words out lowers a position by the number of those before it. The
positions taken are distinct, so there are not more of them than there are
words before it.
-/
import CommandGrammar.Proofs.Chain.Account

namespace CommandGrammar

variable {α : Type}

-- =============================================================== one chain

/-- Another line is the same one with the cursor moved on. -/
structure Line.Onward (line behind : Line) : Prop where
  words : behind.allWords = line.allWords
  completion : behind.completion = line.completion
  index : line.index ≤ behind.index

namespace Line.Onward

theorem refl (line : Line) : line.Onward line :=
  ⟨rfl, rfl, Nat.le_refl _⟩

theorem trans {a b c : Line} (hab : a.Onward b) (hbc : b.Onward c) : a.Onward c where
  words := hbc.words.trans hab.words
  completion := hbc.completion.trans hab.completion
  index := Nat.le_trans hab.index hbc.index

end Line.Onward

namespace Chain

/-- Binding an argument takes no word back. -/
theorem onward_of_bindOne {switches : List (Nat × Option (Value α))} {place : Nat}
    {line behind : Line} {argument : Argument α} {value : Option (Value α)}
    (hstandard : argument.reader.Standard)
    (h : bindOne switches place line argument = .ok (value, behind)) : line.Onward behind := by
  rcases bindOne_eq_ok hstandard h with
    ⟨-, rfl, -⟩ | ⟨-, rfl, -, -⟩ | ⟨-, word, rest, hahead, -, rfl⟩
  · exact .refl _
  · exact .refl _
  · constructor
    case words => simp [Line.allWords, hahead]
    case completion => rfl
    case index => simp [Line.index]

theorem onward_of_bindAll {switches : List (Nat × Option (Value α))}
    {arguments : List (Argument α)} :
    ∀ {place consumed : Nat} {line : Line} {matched : Match α},
      (∀ argument ∈ arguments, argument.reader.Standard) →
      bindAll switches place consumed line arguments = .ok matched →
      line.Onward matched.rest := by
  induction arguments with
  | nil =>
      intro place consumed line matched _ h
      injection h with h
      exact h ▸ .refl _
  | cons argument rest ih =>
      intro place consumed line matched hstandard h
      obtain ⟨value, behind, others, hone, hothers, rfl⟩ := bindAll_cons_eq_ok h
      obtain ⟨hhere, hrest⟩ := List.forall_mem_cons.1 hstandard
      have hbehind : behind.Onward others.rest := ih hrest hothers
      exact (onward_of_bindOne hhere hone).trans hbehind

/-- The positions of the words that a chain takes out of a line it matches. -/
def taken (chain : Chain α) (line : Line) : List Nat :=
  (chain.given none line).flatMap Given.positions

theorem nodup_taken (chain : Chain α) (line : Line) : (chain.taken line).Nodup :=
  nodup_positions_given chain none line

theorem mem_taken_iff {chain : Chain α} {line : Line} {p : Nat} :
    p ∈ chain.taken line
      ↔ ∃ switch ∈ chain.given none line,
        p = switch.flag ∨ switch.value.isSome = true ∧ p = switch.flag + 1 := by
  unfold taken
  rw [List.mem_flatMap]
  refine exists_congr fun switch => and_congr_right fun _ => ?_
  unfold Given.positions
  rw [List.mem_cons]
  by_cases hvalue : switch.value.isSome = true
  · simp [hvalue]
  · simp [hvalue]

/-- All of them are ahead of the cursor. -/
theorem within_of_mem_taken {chain : Chain α} {line : Line} {p : Nat} (h : p ∈ chain.taken line) :
    line.index ≤ p ∧ p < line.index + line.size :=
  within_of_mem_positions_scan chain none [] line.index line.ahead p h

/-- Where the word at a position is after a match; nowhere if it is taken out. -/
def track (chain : Chain α) (line : Line) (p : Nat) : Option Nat :=
  match chain.parse line with
  | .ok _ =>
      if p ∈ chain.taken line then none else some (p - (chain.taken line).countP (· < p))
  | .error _ => some p

/-- A chain that matches takes its words out and passes others. -/
theorem onward_of_parse {chain : Chain α} (hstandard : chain.Standard) {line : Line}
    {matched : Match α} (h : chain.parse line = .ok matched) :
    (line.remove (chain.taken line)).Onward matched.rest := by
  obtain ⟨switches, consumed, -, hbind⟩ := parse_eq_ok h
  exact onward_of_bindAll hstandard hbind

end Chain

-- =============================================================== one change

/-- What is done to a line. -/
inductive Edit (α : Type) where
  /-- The cursor passes the current word, if there is one. -/
  | next
  /-- The cursor is put at a position. -/
  | moveTo (index : Nat)
  /-- The words of a text are put in at the cursor. -/
  | insert (text : String)
  /-- A chain is matched, and if it does match, the line behind it taken. -/
  | parse (chain : Chain α)

namespace Edit

/-- A chain that is matched has been built from a spec, of the argument kinds
that are there from the start. -/
def Standard : Edit α → Prop
  | .parse chain => ∃ nodes, Chain.ofNodes .standard nodes = .ok chain
  | _ => True

/-- The line with the cursor past the current word, if there is one. -/
def pass (line : Line) : Line :=
  match line.next with
  | .ok (_, behind) => behind
  | .error _ => line

/-- The line afterwards. -/
def apply : Edit α → Line → Line
  | .next, line => pass line
  | .moveTo index, line => line.moveTo index
  | .insert text, line => line.insert text
  | .parse chain, line => chain.lineAfter line

/-- Where the word at a position is afterwards; nowhere if it is taken out. -/
def track : Edit α → Line → Nat → Option Nat
  | .next, _, p => some p
  | .moveTo _, _, p => some p
  | .insert text, line, p =>
      some (if line.index ≤ p then p + (Line.words text.toList).1.length else p)
  | .parse chain, line, p => chain.track line p

/-- What a change does to a line, said of its words and of the word being
completed. -/
structure Moves (line behind : Line) (track : Nat → Option Nat) : Prop where
  /-- The position of the word being completed goes where its word goes. -/
  completion : behind.completion = line.completion.bind track
  /-- A word that is still there is the same word. -/
  word : ∀ p q, track p = some q → behind.allWords[q]? = line.allWords[p]?
  /-- Words stay in their order. -/
  order : ∀ p q p' q', track p = some q → track p' = some q' → p < p' → q < q'
  /-- Behind the last word stays behind the last word. -/
  last : track line.allWords.length = some behind.allWords.length

theorem Moves.onward {line behind passed : Line} {track : Nat → Option Nat}
    (h : Moves line behind track) (honward : behind.Onward passed) : Moves line passed track where
  completion := honward.completion.trans h.completion
  word p q hq := by rw [honward.words, h.word p q hq]
  order := h.order
  last := by rw [honward.words, h.last]

theorem Moves.trans {a b c : Line} {first second : Nat → Option Nat} (hab : Moves a b first)
    (hbc : Moves b c second) : Moves a c fun p => (first p).bind second where
  completion := by rw [hbc.completion, hab.completion, Option.bind_assoc]
  word p q h := by
    obtain ⟨r, hr, hq⟩ := Option.bind_eq_some_iff.1 h
    rw [hbc.word r q hq, hab.word p r hr]
  order p q p' q' h h' hlt := by
    obtain ⟨r, hr, hq⟩ := Option.bind_eq_some_iff.1 h
    obtain ⟨r', hr', hq'⟩ := Option.bind_eq_some_iff.1 h'
    exact hbc.order r q r' q' hq hq' (hab.order p r p' r' hr hr' hlt)
  last := by rw [hab.last, Option.bind_some, hbc.last]

/-- A position up to the end of the line is moved to one up to the end. -/
theorem Moves.le_length {line behind : Line} {track : Nat → Option Nat}
    (h : Moves line behind track) {p q : Nat} (hp : p ≤ line.allWords.length)
    (hq : track p = some q) : q ≤ behind.allWords.length := by
  rcases Nat.lt_or_eq_of_le hp with hlt | rfl
  · exact Nat.le_of_lt (h.order p q _ _ hq h.last hlt)
  · exact Nat.le_of_eq (Option.some.inj (hq.symm.trans h.last))

-- a cursor that moves moves no word
theorem moves_of_allWords_eq {line behind : Line} (hwords : behind.allWords = line.allWords)
    (hcompletion : behind.completion = line.completion) : Moves line behind some where
  completion := by rw [hcompletion, Option.bind_fun_some]
  word p q h := by rw [hwords, Option.some.inj h]
  order p q p' q' h h' hlt := by
    rwa [Option.some.inj h, Option.some.inj h'] at hlt
  last := by rw [hwords]

theorem moves_insert (line : Line) (text : String) :
    Moves line (line.insert text) fun p =>
      some (if line.index ≤ p then p + (Line.words text.toList).1.length else p) := by
  obtain ⟨inserted, hinserted⟩ : ∃ inserted, inserted
      = (Line.words text.toList).1.map String.ofList := ⟨_, rfl⟩
  have hlength : (Line.words text.toList).1.length = inserted.length := by
    rw [hinserted, List.length_map]
  have hwords : (line.insert text).allWords = line.passed ++ inserted ++ line.ahead := by
    rw [hinserted, List.append_assoc]
    rfl
  rw [hlength]
  constructor
  case completion =>
    show line.completion.map _ = _
    rw [← hinserted, Option.map_eq_bind]
    rfl
  case word =>
    intro p q h
    rw [hwords, ← Option.some.inj h]
    unfold Line.allWords Line.index
    by_cases hp : line.passed.length ≤ p
    · rw [if_pos hp, List.getElem?_append_right (by rw [List.length_append]; omega),
        List.getElem?_append_right hp, List.length_append]
      congr 1
      omega
    · rw [if_neg hp, List.append_assoc, List.getElem?_append_left (by omega),
        List.getElem?_append_left (by omega)]
  case order =>
    intro p q p' q' h h' hlt
    rw [← Option.some.inj h, ← Option.some.inj h']
    split <;> split <;> omega
  case last =>
    rw [hwords, if_pos (by simp [Line.index, Line.allWords])]
    simp only [Line.allWords, List.length_append]
    congr 1
    omega

theorem moves_remove {line : Line} {positions : List Nat} (hnodup : positions.Nodup)
    (hwithin : ∀ p ∈ positions, line.index ≤ p ∧ p < line.index + line.size) :
    Moves line (line.remove positions) fun p =>
      if p ∈ positions then none else some (p - positions.countP (· < p)) := by
  have hlength : line.allWords.length = line.index + line.size := List.length_append
  have hwords := Line.allWords_remove hwithin
  have hkept : ∀ {p q}, (if p ∈ positions then none
      else some (p - positions.countP (· < p))) = some q →
      p ∉ positions ∧ q = p - Line.between positions 0 p := by
    intro p q h
    split at h
    case isTrue => cases h
    case isFalse hp => exact ⟨hp, by rw [← Line.countP_lt_eq_between, Option.some.inj h]⟩
  constructor
  case completion => exact Line.completion_remove_of_within hwithin
  case word =>
    intro p q h
    obtain ⟨hp, rfl⟩ := hkept h
    have hword : (Line.keep positions 0 line.allWords)[p - Line.between positions 0 (0 + p)]?
        = line.allWords[p]? := Line.getElem?_keep hnodup (by rwa [Nat.zero_add]) _
    rwa [Nat.zero_add, ← hwords] at hword
  case order =>
    -- of the words from one kept word to another only those between can be gone
    intro p q p' q' h h' hlt
    obtain ⟨hp, rfl⟩ := hkept h
    obtain ⟨hp', rfl⟩ := hkept h'
    obtain ⟨k, rfl⟩ := Nat.exists_eq_add_of_lt hlt
    have hsplit := @Line.between_add positions 0 p (k + 1)
    have hfirst := Line.between_eq positions (show p < p + (k + 1) by omega)
    have hmiddle := Line.between_le hnodup (p + 1) k
    have hbefore := Line.between_le hnodup 0 p
    rw [List.count_eq_zero_of_not_mem hp] at hfirst
    simp only [Nat.zero_add, Nat.add_assoc, Nat.add_comm 1 k] at hsplit hfirst hmiddle hbefore ⊢
    omega
  case last =>
    have hout : line.allWords.length ∉ positions := fun hin => by
      have := (hwithin _ hin).2
      omega
    have hcount := Line.length_keep hnodup 0 line.allWords
    rw [Nat.zero_add, ← hwords] at hcount
    rw [if_neg hout, Line.countP_lt_eq_between]
    congr 1
    omega

theorem onward_pass (line : Line) : line.Onward (pass line) := by
  unfold pass Line.next
  cases hahead : line.ahead with
  | nil => exact .refl line
  | cons word rest =>
      constructor
      case words => simp [Line.allWords, hahead]
      case completion => rfl
      case index => simp [Line.index]

theorem moves_lineAfter {chain : Chain α} (hstandard : chain.Standard) (line : Line) :
    Moves line (chain.lineAfter line) (chain.track line) := by
  rcases hparse : chain.parse line with shortfall | matched
  · have hline : chain.lineAfter line = line := by rw [Chain.lineAfter, hparse]
    have htrack : chain.track line = some := by
      funext p
      rw [Chain.track, hparse]
    rw [hline, htrack]
    exact moves_of_allWords_eq rfl rfl
  · have hline : chain.lineAfter line = matched.rest := by rw [Chain.lineAfter, hparse]
    have htrack : chain.track line = fun p =>
        if p ∈ chain.taken line then none
        else some (p - (chain.taken line).countP (· < p)) := by
      funext p
      rw [Chain.track, hparse]
    rw [hline, htrack]
    apply (moves_remove (chain.nodup_taken line) fun p hp => ?_).onward
    · exact Chain.onward_of_parse hstandard hparse
    · exact Chain.within_of_mem_taken hp

/-- A change moves words and the position of the word being completed alike. -/
theorem moves_apply {edit : Edit α} (hstandard : edit.Standard) (line : Line) :
    Moves line (edit.apply line) (edit.track line) := by
  cases edit with
  | next =>
      have hpass := onward_pass line
      exact moves_of_allWords_eq hpass.words hpass.completion
  | moveTo index => exact moves_of_allWords_eq (List.take_append_drop _ _) rfl
  | insert text => exact moves_insert line text
  | parse chain =>
      obtain ⟨nodes, hnodes⟩ := hstandard
      exact moves_lineAfter (Chain.standard_of_ofNodes hnodes) line

/-- A word is taken out by a chain, which takes it for a flag or for the value of
one. -/
theorem exists_of_track_eq_none {edit : Edit α} {line : Line} {p : Nat}
    (h : edit.track line p = none) :
    ∃ chain matched, edit = .parse chain ∧ chain.parse line = .ok matched
      ∧ ∃ switch ∈ chain.given none line,
        p = switch.flag ∨ switch.value.isSome = true ∧ p = switch.flag + 1 := by
  cases edit with
  | next => cases h
  | moveTo index => cases h
  | insert text => cases h
  | parse chain =>
      change chain.track line p = none at h
      rw [Chain.track] at h
      rcases hparse : chain.parse line with shortfall | matched
      · rw [hparse] at h
        cases h
      · rw [hparse] at h
        by_cases hp : p ∈ chain.taken line
        · exact ⟨chain, matched, rfl, hparse, Chain.mem_taken_iff.1 hp⟩
        · dsimp only at h
          rw [if_neg hp] at h
          cases h

-- ============================================================ many changes

/-- The line after changes, one after the other. -/
def run : List (Edit α) → Line → Line
  | [], line => line
  | edit :: rest, line => run rest (edit.apply line)

/-- Where they move the word at a position. -/
def trackAll : List (Edit α) → Line → Nat → Option Nat
  | [], _, p => some p
  | edit :: rest, line, p => (edit.track line p).bind (trackAll rest (edit.apply line))

theorem moves_run {edits : List (Edit α)} :
    ∀ (_ : ∀ edit ∈ edits, edit.Standard) (line : Line),
      Moves line (run edits line) (trackAll edits line) := by
  induction edits with
  | nil => exact fun _ line => moves_of_allWords_eq rfl rfl
  | cons edit rest ih =>
      intro hstandard line
      obtain ⟨hedit, hrest⟩ := List.forall_mem_cons.1 hstandard
      exact (moves_apply hedit line).trans (ih hrest (edit.apply line))

/-- If the word being completed was there and is not, one of the changes has
taken it out. -/
theorem exists_of_completion_eq_none {edits : List (Edit α)} {start : Line}
    (hstandard : ∀ edit ∈ edits, edit.Standard) (hstart : start.completion ≠ none)
    (hend : (run edits start).completion = none) :
    ∃ earlier chain later matched c, edits = earlier ++ .parse chain :: later
      ∧ (run earlier start).completion = some c
      ∧ chain.parse (run earlier start) = .ok matched
      ∧ ∃ switch ∈ chain.given none (run earlier start),
        c = switch.flag ∨ switch.value.isSome = true ∧ c = switch.flag + 1 := by
  induction edits generalizing start with
  | nil => exact absurd hend hstart
  | cons edit rest ih =>
      obtain ⟨hedit, hrest⟩ := List.forall_mem_cons.1 hstandard
      by_cases hnext : (edit.apply start).completion = none
      · obtain ⟨c, hc⟩ := Option.ne_none_iff_exists'.1 hstart
        rw [(moves_apply hedit start).completion, hc, Option.bind_some] at hnext
        obtain ⟨chain, matched, rfl, hparse, htaken⟩ := exists_of_track_eq_none hnext
        exact ⟨[], chain, rest, matched, c, rfl, hc, hparse, htaken⟩
      · obtain ⟨earlier, chain, later, matched, c, rfl, hc, hparse, htaken⟩ :=
          ih hrest hnext hend
        exact ⟨edit :: earlier, chain, later, matched, c, rfl, hc, hparse, htaken⟩

end Edit

-- ========================================================= lines made afresh

/-- A line that nothing has been done to: that of a typed text, or of words that
are split already, which may be told whether a space follows. -/
inductive Line.Fresh : Line → Prop
  | text (text : String) : Fresh (ofText text)
  | words (words : List String) : Fresh (ofWords words)
  | spaced (words : List String) (trailing : Bool) :
      Fresh ((ofWords words).withTrailingSpace trailing)

/-- The word being completed is the last one or comes behind it. -/
theorem Line.Fresh.exists_completion {line : Line} (h : line.Fresh) :
    ∃ c, line.completion = some c ∧ c ≤ line.allWords.length
      ∧ line.allWords.length ≤ c + 1 := by
  have hspaced : ∀ words trailing, ∃ c,
      ((ofWords words).withTrailingSpace trailing).completion = some c ∧ c ≤ words.length
        ∧ words.length ≤ c + 1 := by
    intro words trailing
    refine ⟨_, rfl, ?_⟩
    show (if trailing then words.length else words.length - 1) ≤ words.length
      ∧ words.length ≤ (if trailing then words.length else words.length - 1) + 1
    split <;> omega
  cases h with
  | text text => exact hspaced _ _
  | words words => exact ⟨words.length - 1, rfl, Nat.sub_le _ _, by show words.length ≤ _; omega⟩
  | spaced words trailing => exact hspaced _ _

namespace Edit

/-- What holds of a line that was made afresh, after changes. -/
structure Keeps (edits : List (Edit α)) (start line : Line) : Prop where
  /-- The cursor is within the line or at its end. -/
  index_le : line.index ≤ line.allWords.length
  /-- So is the word being completed. -/
  completion_le : ∀ c, line.completion = some c → c ≤ line.allWords.length
  /-- It is the one of the line made afresh, unless that was taken out. -/
  completion_eq : line.completion = start.completion.bind (trackAll edits start)
  /-- So at its position there is still the same word, or still none. -/
  same_word : ∀ c, line.completion = some c →
    ∃ p, start.completion = some p ∧ line.allWords[c]? = start.allWords[p]?
  /-- A word that was not taken out is still the same word. -/
  word : ∀ p q, trackAll edits start p = some q → line.allWords[q]? = start.allWords[p]?
  /-- No two words have become one, or changed their order. -/
  order : ∀ p q p' q', trackAll edits start p = some q → trackAll edits start p' = some q' →
    p < p' → q < q'
  /-- Where no word was yet, there is none yet. -/
  last : trackAll edits start start.allWords.length = some line.allWords.length
  /-- The word being completed is lost to a chain only, which takes that very word
  for the flag of a switch or for its value. -/
  lost : line.completion = none →
    ∃ earlier chain later matched c, edits = earlier ++ .parse chain :: later
      ∧ (run earlier start).completion = some c
      ∧ chain.parse (run earlier start) = .ok matched
      ∧ ∃ switch ∈ chain.given none (run earlier start),
        c = switch.flag ∨ switch.value.isSome = true ∧ c = switch.flag + 1
  /-- Then it stays lost. -/
  stays : line.completion = none → ∀ more : List (Edit α), (∀ edit ∈ more, edit.Standard) →
    (run more line).completion = none
  /-- No more words are taken out before it than there are, whichever chain is
  matched next. -/
  before_le : ∀ (chain : Chain α) c, line.completion = some c →
    (chain.taken line).countP (· < c) ≤ c
  /-- No argument of a chain moves the cursor back, wherever it stands. -/
  forward : ∀ (chain : Chain α) nodes, Chain.ofNodes .standard nodes = .ok chain →
    ∀ argument ∈ chain.arguments, ∀ switches place here behind value,
      Chain.bindOne switches place here argument = .ok (value, behind) →
      here.index ≤ behind.index

/-- The position of the word being completed survives any series of changes. -/
theorem keeps_run {edits : List (Edit α)} (hstandard : ∀ edit ∈ edits, edit.Standard)
    {start : Line} (hstart : start.Fresh) : Keeps edits start (run edits start) := by
  have hmoves := moves_run hstandard start
  obtain ⟨first, hfirst, hle, -⟩ := hstart.exists_completion
  constructor
  case index_le =>
    show (run edits start).passed.length ≤ _
    rw [Line.allWords, List.length_append]
    exact Nat.le_add_right _ _
  case completion_le =>
    intro c hc
    rw [hmoves.completion, hfirst, Option.bind_some] at hc
    exact hmoves.le_length hle hc
  case completion_eq => exact hmoves.completion
  case same_word =>
    intro c hc
    rw [hmoves.completion, hfirst, Option.bind_some] at hc
    exact ⟨first, hfirst, hmoves.word first c hc⟩
  case word => exact hmoves.word
  case order => exact hmoves.order
  case last => exact hmoves.last
  case lost =>
    intro hnone
    apply exists_of_completion_eq_none hstandard _ hnone
    rw [hfirst]
    exact Option.some_ne_none first
  case stays =>
    intro hnone more hmore
    rw [(moves_run hmore _).completion, hnone]
    rfl
  case before_le =>
    intro chain c _
    rw [Line.countP_lt_eq_between]
    simpa using Line.between_le (chain.nodup_taken (run edits start)) 0 c
  case forward =>
    intro chain nodes hnodes argument hargument switches place here behind value hbind
    have hreader := Chain.standard_of_ofNodes hnodes argument hargument
    exact (Chain.onward_of_bindOne hreader hbind).index

/-- The cursor passes a word, a word is put in, the cursor goes back, and a chain
takes a switch out before the word being completed. -/
def moving : List (Edit Unit) :=
  [.next, .insert "far", .moveTo 0,
    .parse ((Chain.ofSpec .standard "move far @int(switch=n,required=false)").toOption.getD ⟨[]⟩)]

/-- Behind the value of the switch the word is kept; as its value it is lost. -/
theorem moving_keeps :
    (∀ edit ∈ moving, edit.Standard)
      ∧ Keeps moving (.ofText "move -n 3 u") (run moving (.ofText "move -n 3 u"))
      ∧ (Line.ofText "move -n 3 u").completion = some 3
      ∧ (run moving (.ofText "move -n 3 u")).completion = some 2
      ∧ (run moving (.ofText "move -n 3 u")).allWords = ["move", "far", "u"]
      ∧ Keeps moving (.ofText "move -n 3") (run moving (.ofText "move -n 3"))
      ∧ (run moving (.ofText "move -n 3")).completion = none := by
  have hstandard : ∀ edit ∈ moving, edit.Standard := by
    refine List.forall_mem_cons.2 ⟨trivial, List.forall_mem_cons.2 ⟨trivial,
      List.forall_mem_cons.2 ⟨trivial, List.forall_mem_singleton.2 ?_⟩⟩⟩
    exact ⟨_, Chain.ofNodes_of_isOk (by decide +kernel)⟩
  exact ⟨hstandard, keeps_run hstandard (.text _), by decide +kernel, by decide +kernel,
    by decide +kernel, keeps_run hstandard (.text _), by decide +kernel⟩

end Edit

end CommandGrammar
