/-
Splitting a typed line into words. Spaces and tabs part words; a quoted
stretch is part of its word, blanks and all, and may begin and end
within it; a backslash takes the next character as it is, in quotes and
out of them, and stands for itself where no character follows.

A word begins at every character that is not a separator, so an empty
pair of quotes is a word. The line ends with a space exactly when its
last character is a separator that no quote and no backslash takes.
-/
import CommandGrammar.Text.Blank
import CommandGrammar.Text.Quoted

namespace CommandGrammar.Line

open Text

/-- Reads the rest of a word, inside the given quote or outside quotes:
the characters of the word, and the text from the separator on that
ends it. -/
def word : Option Char → List Char → List Char × List Char
  | _, [] => ([], [])
  | quote, c :: rest =>
      if c = '\\' then
        match rest with
        | [] => (['\\'], [])
        | d :: rest => (word quote rest).map (d :: ·) id
      else if quote = some c then word none rest
      else if quote = none ∧ isSeparator c then ([], c :: rest)
      else if quote = none ∧ isQuote c then word (some c) rest
      else (word quote rest).map (c :: ·) id

/-- A word leaves no more text than there was. -/
theorem word_snd_length_le (quote : Option Char) (text : List Char) :
    (word quote text).2.length ≤ text.length := by
  fun_induction word quote text <;>
    simp_all only [List.length_cons, List.length_nil, Prod.map_snd, id_eq] <;> omega

/-- A word that begins at a character other than a separator takes at
least that character. -/
theorem word_cons_snd_length_lt {c : Char} (h : isSeparator c = false) (rest : List Char) :
    (word none (c :: rest)).2.length < (c :: rest).length := by
  unfold word
  by_cases escapes : c = '\\'
  · rcases rest with _ | ⟨d, rest⟩
    · simp [escapes]
    · have := word_snd_length_le none rest
      simp only [escapes, if_true, Prod.map_snd, id_eq, List.length_cons]
      omega
  · have outside := word_snd_length_le none rest
    have quoted := word_snd_length_le (some c) rest
    by_cases opens : isQuote c = true
    · simp only [escapes, h, opens, List.length_cons]
      simpa using by omega
    · simp only [escapes, h, opens, List.length_cons]
      simpa using by omega

/-- The words of a text, and whether it ends with a separator outside
quotes. -/
def words (text : List Char) : List (List Char) × Bool :=
  match h : text.dropWhile isSeparator with
  | [] => ([], !text.isEmpty)
  | c :: rest =>
      have : (word none (c :: rest)).2.length < text.length := by
        have shorter := (List.dropWhile_sublist isSeparator (l := text)).length_le
        have head : isSeparator c = false := by
          simpa [h] using List.head?_dropWhile_not isSeparator text
        have := word_cons_snd_length_lt head rest
        simp only [h] at shorter
        omega
      let first := word none (c :: rest)
      (words first.2).map (first.1 :: ·) id
termination_by text.length

end CommandGrammar.Line
