/-
Sets of characters given by the code points they span. A property of
the Unicode standard is a table of such spans, so a table module holds
its numbers and nothing else.
-/
namespace CommandGrammar.Text

/-- A set of characters as inclusive spans of code points. -/
abbrev CodeRanges : Type := List (Nat × Nat)

/-- Whether a character lies in one of the spans. -/
def CodeRanges.contains (ranges : CodeRanges) (c : Char) : Bool :=
  ranges.any fun span => span.1 ≤ c.toNat && c.toNat ≤ span.2

end CommandGrammar.Text
