/-
Matching a chain against a line. The switches are taken out of the line
first and their values read in the order of the line; then every
argument is bound in the order of the chain: a switch by what was given,
any other argument by the next words. An argument without words of its
own binds what stands in for them. The words consumed are counted along
the way, also up to a refusal, for that count is what decides between
several chains.
-/
import CommandGrammar.Chain.Switch

namespace CommandGrammar

variable {α : Type}

/-- What a chain bound. -/
structure Match (α : Type) where
  /-- One binding per argument, in the order of the chain. -/
  bindings : List (Binding α)
  /-- How many words were consumed, flags included. -/
  consumed : Nat
  /-- The line behind the consumed words, without the switches given. -/
  rest : Line

/-- Why a chain did not match, and how far it got. -/
structure Shortfall where
  /-- The refusal of the first argument that could not be bound. -/
  refusal : Refusal
  /-- How many words were consumed before it. -/
  consumed : Nat
  deriving DecidableEq

namespace Given

/-- The value of a switch that was given, and how many words it took
besides the flag. Without a value, the stand-in counts. -/
def read (given : Given α) : Except Refusal (Option (Value α) × Nat) :=
  match given.value with
  | some word => (given.argument.reader.readWord word).map fun value => (some value, 1)
  | none => given.argument.missing.map fun value => (value, 0)

end Given

namespace Chain

/-- Reads the values of switches, each under the place of its argument,
and counts the words on top of those consumed before. -/
def readGiven : Nat → List (Given α) → Except Shortfall (List (Nat × Option (Value α)) × Nat)
  | consumed, [] => .ok ([], consumed)
  | consumed, given :: rest =>
      match given.read with
      | .error refusal => .error ⟨refusal, consumed + 1⟩
      | .ok (value, words) =>
          (readGiven (consumed + 1 + words) rest).map fun read =>
            ((given.place, value) :: read.1, read.2)

/-- Binds one argument: what it binds, and the line behind its words. -/
def bindOne (switches : List (Nat × Option (Value α))) (place : Nat) (line : Line)
    (argument : Argument α) : Except Refusal (Option (Value α) × Line) :=
  if argument.switch.isSome then
    match switches.lookup place with
    | some value => .ok (value, line)
    | none => argument.missing.map (·, line)
  else if line.isEnd then argument.missing.map (·, line)
  else (argument.reader.read line).map fun read => (some read.1, read.2)

/-- Binds arguments from a place in the chain on, counting words on top
of those consumed before. -/
def bindAll (switches : List (Nat × Option (Value α))) :
    Nat → Nat → Line → List (Argument α) → Except Shortfall (Match α)
  | _, consumed, line, [] => .ok ⟨[], consumed, line⟩
  | place, consumed, line, argument :: rest =>
      match bindOne switches place line argument with
      | .error refusal => .error ⟨refusal, consumed⟩
      | .ok (value, behind) =>
          (bindAll switches (place + 1) (consumed + (behind.index - line.index)) behind rest).map
            fun matched =>
              { matched with bindings := ⟨value, argument.suppressed⟩ :: matched.bindings }

/-- Binds every argument of a chain from the words ahead. -/
def parse (chain : Chain α) (line : Line) : Except Shortfall (Match α) :=
  let given := chain.given none line
  match readGiven 0 given with
  | .error shortfall => .error shortfall
  | .ok (switches, consumed) =>
      bindAll switches 0 consumed (withoutGiven given line) chain.arguments

end Chain

end CommandGrammar
