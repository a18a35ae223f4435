/-
Switches. An argument with a switch name is given as `-name value`
anywhere in the words ahead. One pass from the left finds what is given:
the first flag of each switch counts, and the word behind a flag is its
value whatever it looks like, so it is never a flag itself. A flag at
the end of the line has no value.

While a line is being completed, the word under completion is no flag
yet: its name may still be growing.
-/
import CommandGrammar.Chain

namespace CommandGrammar

variable {α : Type}

/-- A switch that a line gives. -/
structure Given (α : Type) where
  /-- The place of the argument in its chain. -/
  place : Nat
  /-- The argument. -/
  argument : Argument α
  /-- The position of the flag in the line. -/
  flag : Nat
  /-- The word behind the flag. -/
  value : Option String

namespace Given

/-- The positions of the words that a switch takes. -/
def positions (given : Given α) : List Nat :=
  given.flag :: if given.value.isSome then [given.flag + 1] else []

end Given

namespace Chain

/-- The first argument whose switch a word names, with its place. -/
def switchOf? (chain : Chain α) (word : String) : Option (Argument α × Nat) :=
  match word.toList with
  | '-' :: name =>
      chain.arguments.zipIdx.find? fun entry => entry.1.switch == some (String.ofList name)
  | _ => none

/-- The switch that the word at a position gives, if it gives one that
was not given before. The word at `typing` gives none. -/
def flag? (chain : Chain α) (typing : Option Nat) (found : List Nat) (position : Nat)
    (word : String) : Option (Argument α × Nat) :=
  (chain.switchOf? word).filter fun entry =>
    !found.contains entry.2 && typing != some position

/-- Finds switches in words that start at a position, some switches
being found already. -/
def scan (chain : Chain α) (typing : Option Nat) :
    List Nat → Nat → List String → List (Given α)
  | _, _, [] => []
  | found, position, word :: rest =>
      match chain.flag? typing found position word with
      | none => scan chain typing found (position + 1) rest
      | some (argument, place) =>
          match rest with
          | [] => [⟨place, argument, position, none⟩]
          | value :: rest =>
              ⟨place, argument, position, some value⟩
                :: scan chain typing (place :: found) (position + 2) rest

section Step

variable {chain : Chain α} {typing : Option Nat} {found : List Nat} {position : Nat}
  {word : String}

/-- A word that is no flag is passed by. -/
theorem scan_of_no_flag (h : chain.flag? typing found position word = none)
    (rest : List String) :
    chain.scan typing found position (word :: rest)
      = chain.scan typing found (position + 1) rest := by
  rw [scan, h]

/-- A flag is taken with the word behind it. -/
theorem scan_of_flag {argument : Argument α} {place : Nat}
    (h : chain.flag? typing found position word = some (argument, place)) (value : String)
    (rest : List String) :
    chain.scan typing found position (word :: value :: rest)
      = ⟨place, argument, position, some value⟩
        :: chain.scan typing (place :: found) (position + 2) rest := by
  rw [scan, h]

/-- A flag at the end is taken alone. -/
theorem scan_of_last_flag {argument : Argument α} {place : Nat}
    (h : chain.flag? typing found position word = some (argument, place)) :
    chain.scan typing found position [word] = [⟨place, argument, position, none⟩] := by
  rw [scan, h]

end Step

/-- The switches given ahead of the cursor of a line. -/
def given (chain : Chain α) (typing : Option Nat) (line : Line) : List (Given α) :=
  chain.scan typing [] line.index line.ahead

/-- The line without the words that switches take. -/
def withoutGiven (given : List (Given α)) (line : Line) : Line :=
  line.remove (given.flatMap Given.positions)

end Chain

end CommandGrammar
