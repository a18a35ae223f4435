/-
Quoted text. A text stands between two equal quotes, and a backslash
takes the character after it as it is. `escape` writes what `unquote`
reads: each quote and each backslash of the text gets a backslash in
front, so the first bare quote is the closing one.
-/
namespace CommandGrammar.Text

/-- The two quotes. -/
def isQuote (c : Char) : Bool :=
  c == '\'' || c == '"'

/-- The text as it is written between two quotes `q`. -/
def escape (q : Char) (text : List Char) : List Char :=
  text.flatMap fun c => if c = q ∨ c = '\\' then ['\\', c] else [c]

/-- Reads up to the closing quote `q`: the text read, and what stands
after the quote. Without a closing quote the text runs to the end, and
a backslash that has no character to take is dropped. -/
def unquote (q : Char) : List Char → List Char × List Char
  | [] => ([], [])
  | '\\' :: c :: rest => (unquote q rest).map (c :: ·) id
  | c :: rest =>
      if c = '\\' then ([], [])
      else if c = q then ([], rest)
      else (unquote q rest).map (c :: ·) id

/-- What stands after the closing quote is no longer than the input. -/
theorem unquote_snd_length_le (q : Char) (text : List Char) :
    (unquote q text).2.length ≤ text.length := by
  fun_induction unquote q text <;> simp_all <;> omega

end CommandGrammar.Text
