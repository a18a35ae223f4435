/-
Matching a chain sees the words ahead of the cursor and nothing else of a
line: not the words passed, nor how the line is shown, nor which word is
being completed. On two lines with the same words ahead a chain is refused
for the same reason at the same word, or it binds the same values and
leaves the same words (`parse_same`).

Only the positions of the switches differ then, and they serve no more
than to take the switches out.
-/
import CommandGrammar.Proofs.Chain.Match

namespace CommandGrammar

variable {α : Type}

/-- Two attempts to match are the same as far as the words ahead go: both
fail for one reason and at one word, or both bind the same values with the
same marks, consume as many words and leave the same ones. -/
inductive Match.Same : Except Shortfall (Match α) → Except Shortfall (Match α) → Prop
  | fail (shortfall : Shortfall) : Same (.error shortfall) (.error shortfall)
  | succeed {a b : Match α} : a.bindings = b.bindings → a.consumed = b.consumed →
      a.rest.ahead = b.rest.ahead → Same (.ok a) (.ok b)

theorem Match.Same.bound {x y : Except Shortfall (Match α)} (h : Same x y)
    (binding : Binding α) :
    Same (x.map fun matched => { matched with bindings := binding :: matched.bindings })
      (y.map fun matched => { matched with bindings := binding :: matched.bindings }) := by
  cases h with
  | fail shortfall => exact .fail shortfall
  | succeed hbindings hconsumed hahead =>
      exact .succeed (congrArg (binding :: ·) hbindings) hconsumed hahead

-- =============================================================== switches

/-- A switch that is given, but not where. -/
def Given.unplaced (given : Given α) : Given α :=
  { given with flag := 0 }

namespace Chain

theorem readGiven_unplaced (given : List (Given α)) :
    ∀ consumed, readGiven consumed (given.map Given.unplaced) = readGiven consumed given := by
  induction given with
  | nil => intro consumed; rfl
  | cons first rest ih =>
      intro consumed
      have hread : first.unplaced.read = first.read := rfl
      rw [List.map_cons, readGiven, readGiven, hread]
      rcases first.read with refusal | ⟨value, words⟩
      · rfl
      · dsimp only
        rw [ih]
        rfl

/-- Where the words stand does not matter to a scan for all switches. -/
theorem scan_unplaced (chain : Chain α) (found : List Nat) (position : Nat) (words : List String) :
    ∀ other, (chain.scan none found position words).map Given.unplaced
        = (chain.scan none found other words).map Given.unplaced
      ∧ chain.leave none found position words = chain.leave none found other words := by
  fun_induction scan chain none found position words with
  | case1 => intro other; exact ⟨rfl, rfl⟩
  | case2 found position word rest hflag ih =>
      intro other
      have hother : chain.flag? none found other word = none := hflag
      obtain ⟨hscan, hleave⟩ := ih (other + 1)
      rw [scan_of_no_flag hother, leave_of_no_flag hflag, leave_of_no_flag hother]
      exact ⟨hscan, congrArg (word :: ·) hleave⟩
  | case3 found position word argument place hflag =>
      intro other
      have hother : chain.flag? none found other word = some (argument, place) := hflag
      rw [scan_of_last_flag hother, leave_of_last_flag hflag, leave_of_last_flag hother]
      exact ⟨rfl, rfl⟩
  | case4 found position word argument place hflag value rest ih =>
      intro other
      have hother : chain.flag? none found other word = some (argument, place) := hflag
      obtain ⟨hscan, hleave⟩ := ih (other + 2)
      rw [scan_of_flag hother, leave_of_flag hflag, leave_of_flag hother]
      exact ⟨congrArg (_ :: ·) hscan, hleave⟩

-- ================================================================ binding

/-- A standard reader sees the first word ahead and nothing else of a
line. -/
theorem read_of_ahead {reader : Reader α} (h : reader.Standard) {line : Line} {word : String}
    {rest : List String} (hahead : line.ahead = word :: rest) :
    reader.read line = (reader.readWord word).map fun value =>
      (value, { line with passed := line.passed ++ [word], ahead := rest }) := by
  rw [h.read_eq]
  unfold Line.next
  rw [hahead]
  show (do
    let value ← reader.readWord word
    return (value, { line with passed := line.passed ++ [word], ahead := rest })) = _
  rcases reader.readWord word with refusal | value <;> rfl

/-- On lines with the same words ahead, an argument is refused twice, or
binds the same value and passes as many words. -/
theorem bindOne_agrees {switches other : List (Nat × Option (Value α))} {place : Nat}
    (hlookup : switches.lookup place = other.lookup place) {argument : Argument α}
    (hstandard : argument.reader.Standard) {a b : Line} (hahead : a.ahead = b.ahead) :
    (∃ refusal, bindOne switches place a argument = .error refusal
        ∧ bindOne other place b argument = .error refusal)
      ∨ ∃ value a' b', bindOne switches place a argument = .ok (value, a')
        ∧ bindOne other place b argument = .ok (value, b')
        ∧ a'.ahead = b'.ahead ∧ a'.index - a.index = b'.index - b.index := by
  have hmissing : (∃ refusal, argument.missing.map (·, a) = .error refusal
        ∧ argument.missing.map (·, b) = .error refusal)
      ∨ ∃ value a' b', argument.missing.map (·, a) = .ok (value, a')
        ∧ argument.missing.map (·, b) = .ok (value, b')
        ∧ a'.ahead = b'.ahead ∧ a'.index - a.index = b'.index - b.index := by
    rcases argument.missing with refusal | value
    · exact Or.inl ⟨refusal, rfl, rfl⟩
    · exact Or.inr ⟨value, a, b, rfl, rfl, hahead, by omega⟩
  unfold bindOne
  by_cases hswitch : argument.switch.isSome
  · rw [if_pos hswitch, if_pos hswitch, hlookup]
    rcases other.lookup place with - | value
    · exact hmissing
    · exact Or.inr ⟨value, a, b, rfl, rfl, hahead, by omega⟩
  · rw [if_neg hswitch, if_neg hswitch]
    unfold Line.isEnd
    rw [← hahead]
    rcases hwords : a.ahead with - | ⟨word, rest⟩
    · exact hmissing
    · rw [read_of_ahead hstandard hwords, read_of_ahead hstandard (hahead.symm.trans hwords)]
      rcases argument.reader.readWord word with refusal | value
      · exact Or.inl ⟨refusal, rfl, rfl⟩
      · refine Or.inr ⟨some value, _, _, rfl, rfl, rfl, ?_⟩
        show (a.passed ++ [word]).length - a.passed.length
          = (b.passed ++ [word]).length - b.passed.length
        simp

/-- On lines with the same words ahead, arguments are bound the same. -/
theorem bindAll_same {switches other : List (Nat × Option (Value α))}
    (hlookup : ∀ place, switches.lookup place = other.lookup place)
    {arguments : List (Argument α)} :
    ∀ {place consumed : Nat} {a b : Line},
      (∀ argument ∈ arguments, argument.reader.Standard) → a.ahead = b.ahead →
      Match.Same (bindAll switches place consumed a arguments)
        (bindAll other place consumed b arguments) := by
  induction arguments with
  | nil =>
      intro place consumed a b _ hahead
      exact .succeed rfl rfl hahead
  | cons argument rest ih =>
      intro place consumed a b hstandard hahead
      rw [bindAll, bindAll]
      rcases bindOne_agrees (hlookup place) (hstandard argument (List.mem_cons_self ..)) hahead with
        ⟨refusal, ha, hb⟩ | ⟨value, a', b', ha, hb, hahead', hpassed⟩
      · rw [ha, hb]
        exact .fail _
      · rw [ha, hb]
        dsimp only
        rw [hpassed]
        exact (ih (fun later hlater => hstandard later (List.mem_cons_of_mem _ hlater))
          hahead').bound _

-- ============================================================ whole chains

/-- On lines with the same words ahead, a chain matches the same. -/
theorem parse_same {chain : Chain α} (hstandard : chain.Standard) {a b : Line}
    (hahead : a.ahead = b.ahead) : Match.Same (chain.parse a) (chain.parse b) := by
  obtain ⟨hscan, hleave⟩ := chain.scan_unplaced [] a.index a.ahead b.index
  have hread : readGiven 0 (chain.given none a) = readGiven 0 (chain.given none b) := by
    rw [← readGiven_unplaced, ← readGiven_unplaced (chain.given none b), given, given, hscan,
      hahead]
  unfold parse
  dsimp only
  rw [hread]
  rcases readGiven 0 (chain.given none b) with shortfall | ⟨switches, consumed⟩
  · exact .fail shortfall
  · refine bindAll_same (fun _ => rfl) hstandard ?_
    rw [ahead_withoutGiven, ahead_withoutGiven, hleave, hahead]

end Chain

end CommandGrammar
