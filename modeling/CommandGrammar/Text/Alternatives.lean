/-
Lists of alternatives: texts parted by bars, such as `mike|milly`.
-/
namespace CommandGrammar.Text

/-- The stretches between the occurrences of a character; one more than
there are occurrences. -/
def splitAt (sep : Char) : List Char → List (List Char)
  | [] => [[]]
  | c :: rest =>
      if c = sep then [] :: splitAt sep rest
      else
        match splitAt sep rest with
        | first :: others => (c :: first) :: others
        | [] => [[c]]

/-- The stretches between the bars of a text. -/
def alternatives (text : String) : List (List Char) :=
  splitAt '|' text.toList

/-- Whether a text begins with what has been typed of it. -/
def begins (text typed : String) : Bool :=
  typed.toList.isPrefixOf text.toList

end CommandGrammar.Text
