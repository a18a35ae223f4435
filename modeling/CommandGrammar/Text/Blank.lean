/-
Blank characters. Two notions live side by side and must not be mixed:
*trimming* removes every character with the Unicode property
White_Space, while only a space or a tab *parts* the words of a line
and the nodes of a spec. A no-break space is therefore trimmed off the
end of a name, yet it never ends one.
-/
import CommandGrammar.Text.CodeRange

namespace CommandGrammar.Text

-- ======================================================= the two notions

/-- The code points with the property White_Space: 25 characters. -/
def whiteSpace : CodeRanges :=
  [(0x0009, 0x000D), (0x0020, 0x0020), (0x0085, 0x0085), (0x00A0, 0x00A0),
   (0x1680, 0x1680), (0x2000, 0x200A), (0x2028, 0x2029), (0x202F, 0x202F),
   (0x205F, 0x205F), (0x3000, 0x3000)]

/-- Whether trimming removes the character. -/
def isBlank (c : Char) : Bool :=
  whiteSpace.contains c

/-- Whether the character parts words and nodes: a space or a tab. -/
def isSeparator (c : Char) : Bool :=
  c == ' ' || c == '\t'

-- ============================================================== trimming

/-- The text without the blanks at its end. -/
def trimEnd (text : List Char) : List Char :=
  (text.reverse.dropWhile isBlank).reverse

/-- The text without the blanks at either end. -/
def trim (text : List Char) : List Char :=
  trimEnd (text.dropWhile isBlank)

end CommandGrammar.Text
