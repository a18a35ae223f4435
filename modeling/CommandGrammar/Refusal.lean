/-
Why the words of a line were refused. Refusals are data: a walk gathers
them with the number of words that led to each, so that the one that
got furthest can be shown.
-/
import CommandGrammar.Text.Record

namespace CommandGrammar

open Text

/-- The reason an argument, a chain or a tree refused its words. -/
inductive Refusal where
  /-- An argument needs a word and there is none. -/
  | endOfInput
  /-- The word has not the form that the argument expects. -/
  | invalidFormat (expected : String)
  /-- The word is none of the accepted ones. -/
  | invalidOption (input : String) (options : List String)
  /-- The number lies above the largest one allowed. -/
  | numberTooBig (max : String)
  /-- The number lies below the smallest one allowed. -/
  | numberTooSmall (min : String)
  /-- The line ends at a node that does nothing by itself. -/
  | inputExpected
  /-- No node below takes the next word. -/
  | unexpectedInput (input : String)
  /-- No command has the name. -/
  | unknownCommand (name : String)
  /-- The reason of an argument kind that the application adds. -/
  | custom (text : String)
  deriving DecidableEq, Inhabited

/-- The sentence shown to whoever typed the line. -/
def Refusal.message : Refusal → String
  | .endOfInput => "expected additional input"
  | .invalidFormat expected => "invalid format, expected " ++ expected
  | .invalidOption input options =>
      "invalid option \"" ++ input ++ "\", expected one of: " ++ ", ".intercalate options
  | .numberTooBig max => "number too big, maximum is " ++ max
  | .numberTooSmall min => "number too small, minimum is " ++ min
  | .inputExpected => "input expected"
  | .unexpectedInput input => "unexpected input \"" ++ input ++ "\""
  | .unknownCommand name => "unknown command \"" ++ name ++ "\""
  | .custom text => text

/-- The record of a refusal. -/
def Refusal.record : Refusal → Record
  | .endOfInput => .word "EndOfInput"
  | .invalidFormat expected => .fields "InvalidFormat" [("expected", .quoted expected)]
  | .invalidOption input options =>
      .fields "InvalidOption"
        [("input", .quoted input), ("options", .list (options.map .quoted))]
  | .numberTooBig max => .fields "NumberTooBig" [("max", .quoted max)]
  | .numberTooSmall min => .fields "NumberTooSmall" [("min", .quoted min)]
  | .inputExpected => .word "InputExpected"
  | .unexpectedInput input => .fields "UnexpectedInput" [("input", .quoted input)]
  | .unknownCommand name => .fields "UnknownCommand" [("name", .quoted name)]
  | .custom text => .call "Custom" (.quoted text)

end CommandGrammar
