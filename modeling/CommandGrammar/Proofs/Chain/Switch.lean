/-
What a scan for switches takes and what it leaves. The positions it
takes are ascending and lie within the words that it looks at
(`pairwise_positions_scan`, `within_of_mem_positions_scan`), so taking
them out of the line leaves what the scan passes by, word for word:
`leave` follows the scan and lists these words, without any position,
and `ahead_withoutGiven` is the equation between the two.

Whatever a scan finds is an argument of its chain at its place, named by
the word that gave it (`switch_of_mem_scan`).
-/
import CommandGrammar.Chain.Switch
import CommandGrammar.Proofs.Line
import Mathlib.Data.List.Pairwise

namespace CommandGrammar

variable {α : Type}

-- ============================================================= positions

namespace Given

/-- A switch takes the word of its flag and perhaps the one behind it. -/
theorem within_of_mem_positions {given : Given α} {p : Nat} (h : p ∈ given.positions) :
    given.flag ≤ p ∧ p ≤ given.flag + 1 := by
  unfold positions at h
  rcases List.mem_cons.1 h with rfl | h
  · omega
  · split at h
    case isTrue hvalue =>
      rw [List.mem_singleton.1 h]
      omega
    case isFalse => cases h

end Given

namespace Chain

/-- The positions that a scan takes lie within the words scanned. -/
theorem within_of_mem_positions_scan (chain : Chain α) (typing : Option Nat) (found : List Nat)
    (position : Nat) (words : List String) :
    ∀ p ∈ (chain.scan typing found position words).flatMap Given.positions,
      position ≤ p ∧ p < position + words.length := by
  fun_induction scan chain typing found position words with
  | case1 => intro p hp; cases hp
  | case2 found position word rest hflag ih =>
      intro p hp
      have := ih p hp
      rw [List.length_cons]
      omega
  | case3 found position word argument place hflag =>
      intro p hp
      rw [List.flatMap_singleton] at hp
      obtain rfl : p = position := List.mem_singleton.1 hp
      rw [List.length_singleton]
      omega
  | case4 found position word argument place hflag value rest ih =>
      intro p hp
      rw [List.flatMap_cons, List.mem_append] at hp
      rw [List.length_cons, List.length_cons]
      rcases hp with hp | hp
      · obtain ⟨hle, hlt⟩ := Given.within_of_mem_positions hp
        dsimp only at hle hlt
        omega
      · have := ih p hp
        omega

/-- The positions that a scan takes are ascending. -/
theorem pairwise_positions_scan (chain : Chain α) (typing : Option Nat) (found : List Nat)
    (position : Nat) (words : List String) :
    ((chain.scan typing found position words).flatMap Given.positions).Pairwise (· < ·) := by
  fun_induction scan chain typing found position words with
  | case1 => exact List.Pairwise.nil
  | case2 found position word rest hflag ih => exact ih
  | case3 found position word argument place hflag =>
      rw [List.flatMap_singleton]
      exact List.pairwise_singleton ..
  | case4 found position word argument place hflag value rest ih =>
      rw [List.flatMap_cons]
      refine List.pairwise_append.2 ⟨?_, ih, fun p hp q hq => ?_⟩
      · exact List.pairwise_pair.2 (Nat.lt_succ_self _)
      · obtain ⟨-, hlt⟩ := Given.within_of_mem_positions hp
        have := within_of_mem_positions_scan chain typing _ _ _ q hq
        dsimp only at hlt
        omega

theorem nodup_positions_given (chain : Chain α) (typing : Option Nat) (line : Line) :
    ((chain.given typing line).flatMap Given.positions).Nodup :=
  (pairwise_positions_scan chain typing [] line.index line.ahead).imp Nat.ne_of_lt

-- ============================================================ words left

/-- The words that a scan passes by: those that it takes neither for a
flag nor for a value. -/
def leave (chain : Chain α) (typing : Option Nat) : List Nat → Nat → List String → List String
  | _, _, [] => []
  | found, position, word :: rest =>
      match chain.flag? typing found position word with
      | none => word :: leave chain typing found (position + 1) rest
      | some (_, place) =>
          match rest with
          | [] => []
          | _ :: rest => leave chain typing (place :: found) (position + 2) rest

section Step

variable {chain : Chain α} {typing : Option Nat} {found : List Nat} {position : Nat}
  {word : String}

/-- A word that is no flag is left. -/
theorem leave_of_no_flag (h : chain.flag? typing found position word = none)
    (rest : List String) :
    chain.leave typing found position (word :: rest)
      = word :: chain.leave typing found (position + 1) rest := by
  rw [leave, h]

/-- A flag goes with the word behind it. -/
theorem leave_of_flag {argument : Argument α} {place : Nat}
    (h : chain.flag? typing found position word = some (argument, place)) (value : String)
    (rest : List String) :
    chain.leave typing found position (word :: value :: rest)
      = chain.leave typing (place :: found) (position + 2) rest := by
  rw [leave, h]

/-- A flag at the end goes alone. -/
theorem leave_of_last_flag {argument : Argument α} {place : Nat}
    (h : chain.flag? typing found position word = some (argument, place)) :
    chain.leave typing found position [word] = [] := by
  rw [leave, h]

end Step

/-- Without the positions that a scan takes, the words are those that it
passes by. -/
theorem keep_positions_scan (chain : Chain α) (typing : Option Nat) (found : List Nat)
    (position : Nat) (words : List String) :
    Line.keep ((chain.scan typing found position words).flatMap Given.positions) position words
      = chain.leave typing found position words := by
  fun_induction scan chain typing found position words with
  | case1 => rfl
  | case2 found position word rest hflag ih =>
      have hpassed : position ∉ (chain.scan typing found (position + 1) rest).flatMap
          Given.positions := by
        intro hp
        have := within_of_mem_positions_scan chain typing _ _ _ _ hp
        omega
      rw [leave, hflag, Line.keep, if_neg hpassed, ih]
  | case3 found position word argument place hflag =>
      rw [leave, hflag, List.flatMap_singleton, Line.keep, if_pos (by simp [Given.positions])]
      rfl
  | case4 found position word argument place hflag value rest ih =>
      have hrest : Line.keep
          ((⟨place, argument, position, some value⟩ ::
            chain.scan typing (place :: found) (position + 2) rest).flatMap Given.positions)
          (position + 2) rest = chain.leave typing (place :: found) (position + 2) rest := by
        rw [← ih]
        refine Line.keep_congr fun p hle _ => ?_
        rw [List.flatMap_cons, List.mem_append]
        refine or_iff_right fun hp => ?_
        obtain ⟨-, hlt⟩ := Given.within_of_mem_positions hp
        dsimp only at hlt
        omega
      rw [leave, hflag, Line.keep, if_pos (by simp [Given.positions]), Line.keep,
        if_pos (by simp [Given.positions])]
      exact hrest

/-- Without the switches given, the words ahead are those that the scan
for them passes by. -/
theorem ahead_withoutGiven (chain : Chain α) (typing : Option Nat) (line : Line) :
    (withoutGiven (chain.given typing line) line).ahead
      = chain.leave typing [] line.index line.ahead := by
  rw [← keep_positions_scan]
  refine Line.keep_congr fun p hle hlt => ?_
  rw [List.mem_filter]
  refine and_iff_left ?_
  simp only [Bool.and_eq_true, decide_eq_true_eq]
  exact ⟨hle, hlt⟩

-- ========================================================= switches found

/-- A word that names a switch is a minus sign and the switch's name; the
argument is one of the chain. -/
theorem switch_of_switchOf? {chain : Chain α} {word : String} {argument : Argument α} {place : Nat}
    (h : chain.switchOf? word = some (argument, place)) :
    chain.arguments[place]? = some argument
      ∧ ∃ name, word = "-" ++ name ∧ argument.switch = some name := by
  unfold switchOf? at h
  split at h
  case h_2 => cases h
  case h_1 name hword =>
    have hmem := List.mem_of_find?_eq_some h
    have hswitch := List.find?_some h
    refine ⟨List.mem_zipIdx_iff_getElem?.1 hmem, String.ofList name, ?_, eq_of_beq hswitch⟩
    rw [← String.toList_inj, hword, String.toList_append]
    show '-' :: name = '-' :: (String.ofList name).toList
    rw [String.toList_ofList]

theorem switchOf?_eq_none {chain : Chain α} {word : String}
    (h : ∀ argument ∈ chain.arguments, ∀ name, argument.switch = some name →
      word ≠ "-" ++ name) : chain.switchOf? word = none := by
  rcases hswitch : chain.switchOf? word with - | ⟨argument, place⟩
  · rfl
  · obtain ⟨hplace, name, hword, hname⟩ := switch_of_switchOf? hswitch
    exact absurd hword (h argument (List.mem_of_getElem? hplace) name hname)

theorem getElem?_of_mem_scan {chain : Chain α} {typing : Option Nat} {found : List Nat}
    {position : Nat} {words : List String} :
    ∀ given ∈ chain.scan typing found position words,
      chain.arguments[given.place]? = some given.argument := by
  fun_induction scan chain typing found position words with
  | case1 => intro given h; cases h
  | case2 found position word rest hflag ih => exact ih
  | case3 found position word argument place hflag =>
      intro given h
      rw [List.mem_singleton.1 h]
      exact (switch_of_switchOf? (Option.eq_some_of_filter_eq_some hflag)).1
  | case4 found position word argument place hflag value rest ih =>
      intro given h
      rcases List.mem_cons.1 h with rfl | h
      · exact (switch_of_switchOf? (Option.eq_some_of_filter_eq_some hflag)).1
      · exact ih given h

end Chain

end CommandGrammar
