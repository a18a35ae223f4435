/-
Chains without switches. Nothing is taken out of a line for them, and each
argument is bound by the words that the one before it left. So a chain in
two parts is matched as the first part is and then, on what that leaves,
as the second is (`parse_append`).

The general facts are about binding: arguments in two parts are bound part
by part, and the words consumed before are added to those consumed behind.
-/
import CommandGrammar.Proofs.Chain.Ahead

namespace CommandGrammar

variable {α : Type}

/-- One match after another. -/
def Match.andThen (first second : Match α) : Match α :=
  ⟨first.bindings ++ second.bindings, first.consumed + second.consumed, second.rest⟩

/-- A shortfall behind words that were consumed. -/
def Shortfall.after (words : Nat) (shortfall : Shortfall) : Shortfall :=
  { shortfall with consumed := words + shortfall.consumed }

namespace Line

theorem remove_nil (line : Line) : line.remove [] = line := by
  obtain ⟨passed, ahead, label, trailingSpace, completion⟩ := line
  unfold remove
  simp [keep_nil]

end Line

namespace Chain

-- ================================================================ binding

/-- Arguments in two parts are bound part by part. -/
theorem bindAll_append (switches : List (Nat × Option (Value α))) (b : List (Argument α))
    {a : List (Argument α)} :
    ∀ (place consumed : Nat) (line : Line),
      bindAll switches place consumed line (a ++ b)
        = (bindAll switches place consumed line a).bind fun first =>
            (bindAll switches (place + a.length) first.consumed first.rest b).map fun second =>
              { second with bindings := first.bindings ++ second.bindings } := by
  induction a with
  | nil =>
      intro place consumed line
      rw [List.nil_append, bindAll]
      show bindAll switches place consumed line b = (bindAll switches place consumed line b).map _
      rcases bindAll switches place consumed line b with shortfall | matched <;> rfl
  | cons argument rest ih =>
      intro place consumed line
      rw [List.cons_append, bindAll, bindAll]
      rcases bindOne switches place line argument with refusal | ⟨value, behind⟩
      · rfl
      · dsimp only
        rw [ih, List.length_cons, show place + (rest.length + 1) = place + 1 + rest.length by omega]
        rcases bindAll switches (place + 1) _ behind rest with shortfall | first
        · rfl
        · show Except.map _ ((bindAll switches _ first.consumed first.rest b).map _)
            = (bindAll switches _ first.consumed first.rest b).map _
          rcases bindAll switches _ first.consumed first.rest b with shortfall | second <;> rfl

/-- Words consumed before are added to those consumed behind. -/
theorem bindAll_add (switches : List (Nat × Option (Value α))) (words : Nat)
    (arguments : List (Argument α)) :
    ∀ (place consumed : Nat) (line : Line),
      bindAll switches place (words + consumed) line arguments
        = ((bindAll switches place consumed line arguments).map fun matched =>
            { matched with consumed := words + matched.consumed }).mapError
          (Shortfall.after words) := by
  induction arguments with
  | nil => intro place consumed line; rfl
  | cons argument rest ih =>
      intro place consumed line
      rw [bindAll, bindAll]
      rcases bindOne switches place line argument with refusal | ⟨value, behind⟩
      · rfl
      · dsimp only
        rw [Nat.add_assoc, ih]
        rcases bindAll switches (place + 1) _ behind rest with shortfall | matched <;> rfl

/-- Without switches, places do not matter. -/
theorem bindAll_place {arguments : List (Argument α)} :
    ∀ (place other consumed : Nat) (line : Line),
      bindAll [] place consumed line arguments = bindAll [] other consumed line arguments := by
  induction arguments with
  | nil => intro place other consumed line; rfl
  | cons argument rest ih =>
      intro place other consumed line
      have hone : bindOne [] place line argument = bindOne [] other line argument := rfl
      rw [bindAll, bindAll, hone]
      rcases bindOne [] other line argument with refusal | ⟨value, behind⟩
      · rfl
      · dsimp only
        rw [ih (place + 1) (other + 1)]

-- =========================================================== no switches

/-- No argument of the chain is a switch. -/
def Switchless (chain : Chain α) : Prop :=
  ∀ argument ∈ chain.arguments, argument.switch = none

namespace Switchless

variable {chain : Chain α} (h : chain.Switchless)

include h

theorem flag?_eq_none (typing : Option Nat) (found : List Nat) (position : Nat) (word : String) :
    chain.flag? typing found position word = none := by
  unfold flag?
  rw [switchOf?_eq_none fun argument hargument name hname => ?_]
  · rfl
  · rw [h argument hargument] at hname
    cases hname

theorem scan_eq_nil (typing : Option Nat) (found : List Nat) (words : List String) :
    ∀ position, chain.scan typing found position words = [] := by
  induction words with
  | nil => intro position; rfl
  | cons word rest ih =>
      intro position
      rw [scan_of_no_flag (h.flag?_eq_none typing found position word), ih]

theorem withoutGiven_eq (typing : Option Nat) (line : Line) :
    withoutGiven (chain.given typing line) line = line := by
  rw [given, h.scan_eq_nil]
  exact line.remove_nil

/-- The arguments are bound on the line as it is. -/
theorem parse_eq (line : Line) : chain.parse line = bindAll [] 0 0 line chain.arguments := by
  have hgiven : chain.given none line = [] := h.scan_eq_nil _ _ _ _
  have hline := h.withoutGiven_eq none line
  unfold parse
  dsimp only
  rw [hline, hgiven]
  rfl

end Switchless

/-- One chain behind another, as one chain. -/
instance : Append (Chain α) := ⟨fun a b => ⟨a.arguments ++ b.arguments⟩⟩

@[simp] theorem arguments_append (a b : Chain α) :
    (a ++ b).arguments = a.arguments ++ b.arguments := rfl

theorem Switchless.append {a b : Chain α} (ha : a.Switchless) (hb : b.Switchless) :
    (a ++ b).Switchless := fun argument hargument =>
  (List.mem_append.1 hargument).elim (ha argument) (hb argument)

/-- A chain in two parts is matched part by part. -/
theorem parse_append {a b : Chain α} (ha : a.Switchless) (hb : b.Switchless) (line : Line) :
    (a ++ b).parse line
      = (a.parse line).bind fun first =>
          ((b.parse first.rest).map first.andThen).mapError (Shortfall.after first.consumed) := by
  rw [(ha.append hb).parse_eq, ha.parse_eq, arguments_append, bindAll_append]
  rcases bindAll [] 0 0 line a.arguments with shortfall | first
  · rfl
  · have hbehind := bindAll_add [] first.consumed b.arguments 0 0 first.rest
    rw [Nat.add_zero] at hbehind
    show (bindAll [] _ first.consumed first.rest b.arguments).map _
      = ((b.parse first.rest).map first.andThen).mapError _
    rw [hb.parse_eq, bindAll_place _ 0, hbehind]
    rcases bindAll [] 0 0 first.rest b.arguments with shortfall | second <;> rfl

/-- A single argument takes the next word. -/
theorem parse_singleton {argument : Argument α} (hstandard : argument.reader.Standard)
    (hswitch : argument.switch = none) {line : Line} {word : String} {rest : List String}
    (hahead : line.ahead = word :: rest) :
    parse ⟨[argument]⟩ line
      = match argument.reader.readWord word with
        | .error refusal => .error ⟨refusal, 0⟩
        | .ok value => .ok ⟨[⟨some value, argument.suppressed⟩], 1,
            { line with passed := line.passed ++ [word], ahead := rest }⟩ := by
  have hswitchless : Switchless (⟨[argument]⟩ : Chain α) := List.forall_mem_singleton.2 hswitch
  have hone : bindOne [] 0 line argument
      = (argument.reader.readWord word).map fun value =>
          (some value, { line with passed := line.passed ++ [word], ahead := rest }) := by
    unfold bindOne Line.isEnd
    rw [hswitch, hahead, read_of_ahead hstandard hahead]
    show ((argument.reader.readWord word).map _).map _ = _
    rcases argument.reader.readWord word with refusal | value <;> rfl
  rw [hswitchless.parse_eq, bindAll, hone]
  rcases argument.reader.readWord word with refusal | value
  · rfl
  · show Except.ok _ = Except.ok _
    unfold Line.index
    simp

end Chain

end CommandGrammar
