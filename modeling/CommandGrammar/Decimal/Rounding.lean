/-
Rounding a quotient to the nearest whole number. Of two equally near
ones the even one is taken.
-/
namespace CommandGrammar.Decimal

/-- The whole number nearest to `num / den`, a half going to the even
neighbour. -/
def roundDiv (num den : Nat) : Nat :=
  let floor := num / den
  let rest := num % den
  if 2 * rest < den then floor
  else if den < 2 * rest then floor + 1
  else floor + floor % 2

/-- Rounding takes one of the two neighbours. -/
theorem roundDiv_le (num den : Nat) : roundDiv num den ≤ num / den + 1 := by
  simp only [roundDiv]
  split
  · omega
  · split <;> omega

end CommandGrammar.Decimal
