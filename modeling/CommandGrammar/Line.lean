/-
A typed line with a cursor. The cursor stands between the words already
passed and the words ahead, so a line is those two lists; the index of
the cursor is the number of words passed, and no index can lie outside
the line.

A line also knows which word is being completed: the last one, or the
one that a trailing space is about to begin. That position counts words
of the whole line, so it moves when words are put in before it or taken
out before it, and it is gone once the word itself is taken out.
-/
import CommandGrammar.Line.Words
import CommandGrammar.Refusal

namespace CommandGrammar

/-- The words of a command line, split at a cursor. -/
structure Line where
  /-- The words before the cursor. -/
  passed : List String := []
  /-- The words from the cursor on; the first is the current word. -/
  ahead : List String := []
  /-- What is shown before the words, such as the name under which a
  command was looked up. It is never matched. -/
  label : String := ""
  /-- Whether the typed text ended with a space. -/
  trailingSpace : Bool := false
  /-- The position of the word being completed. -/
  completion : Option Nat
  deriving DecidableEq

namespace Line

-- ========================================================= construction

/-- The line of words that are split already, the cursor before the
first and the last one being completed. -/
def ofWords (words : List String) : Line :=
  { ahead := words, completion := some (words.length - 1) }

/-- All words, passed or not. -/
def allWords (line : Line) : List String :=
  line.passed ++ line.ahead

/-- The line with its trailing space given or denied; with one, the word
being completed is the one past the last. -/
def withTrailingSpace (line : Line) (trailing : Bool) : Line :=
  { line with
    trailingSpace := trailing
    completion := some (if trailing then line.allWords.length else line.allWords.length - 1) }

/-- The line under another label. -/
def withLabel (line : Line) (label : String) : Line :=
  { line with label }

/-- The line of a typed text. -/
def ofText (text : String) : Line :=
  let split := words text.toList
  (ofWords (split.1.map String.ofList)).withTrailingSpace split.2

-- =============================================================== reading

/-- The position of the cursor. -/
def index (line : Line) : Nat :=
  line.passed.length

/-- The number of words ahead. -/
def size (line : Line) : Nat :=
  line.ahead.length

/-- Whether no word is ahead. -/
def isEnd (line : Line) : Bool :=
  line.ahead.isEmpty

/-- The current word; empty at the end of the line. -/
def current (line : Line) : String :=
  line.ahead.headD ""

/-- Whether the current word is the one being completed. -/
def atCompletion (line : Line) : Bool :=
  line.completion == some line.index

/-- A label and words, parted by single spaces; no space while there is
nothing to part from. -/
def join (label : String) (words : List String) : String :=
  words.foldl (fun text word => if text.isEmpty then word else text ++ " " ++ word) label

/-- The label and every word. -/
def text (line : Line) : String :=
  join line.label line.allWords

-- =============================================================== moving

/-- The current word and the line behind it. -/
def next (line : Line) : Except Refusal (String × Line) :=
  match line.ahead with
  | word :: rest => .ok (word, { line with passed := line.passed ++ [word], ahead := rest })
  | [] => .error .endOfInput

/-- The line with the cursor at a position, or at the end if the line is
shorter. -/
def moveTo (line : Line) (index : Nat) : Line :=
  { line with passed := line.allWords.take index, ahead := line.allWords.drop index }

-- ============================================================== changing

/-- The line with the words of a text put in at the cursor. The word
being completed stays the same word if it lay at the cursor or behind
it. -/
def insert (line : Line) (text : String) : Line :=
  let inserted := (words text.toList).1.map String.ofList
  { line with
    ahead := inserted ++ line.ahead
    completion := line.completion.map fun c =>
      if line.index ≤ c then c + inserted.length else c }

/-- The words whose positions, counted from `first`, are not listed. -/
def keep (positions : List Nat) : Nat → List String → List String
  | _, [] => []
  | first, word :: rest =>
      if first ∈ positions then keep positions (first + 1) rest
      else word :: keep positions (first + 1) rest

/-- The line without the words ahead at the given positions. Without the
word being completed, nothing is completed on the line any more. -/
def remove (line : Line) (positions : List Nat) : Line :=
  let removed := positions.filter fun p => line.index ≤ p && p < line.index + line.size
  { line with
    ahead := keep removed line.index line.ahead
    completion := line.completion.bind fun c =>
      if c ∈ removed then none else some (c - removed.countP (· < c)) }

end Line

end CommandGrammar
