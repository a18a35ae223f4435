/-
Where a format ends. The largest number of a format and the bound behind it
are neighbours for rounding: halfway between them and beyond, the nearest
magnitude is the bound, and that is not finite (`ofRatio?_eq_none_iff`). A
quotient on the halfway mark goes there as well, for its lower neighbour is
odd.

Rounding looks at the quotient alone. A common factor of numerator and
denominator, such as the ten that one more decimal place brings, changes
nothing (`ofRatio?_mul_mul`).
-/
import CommandGrammar.Decimal.Binary

namespace CommandGrammar.Decimal

-- powers of naturals are the core library's, whatever else is imported
attribute [local instance (2000)] instPowNat

-- =============================================================== quotients

theorem roundDiv_mul_mul {c : Nat} (hc : 0 < c) (num den : Nat) :
    roundDiv (c * num) (c * den) = roundDiv num den := by
  have hdouble : 2 * (c * (num % den)) = c * (2 * (num % den)) := Nat.mul_left_comm ..
  unfold roundDiv
  dsimp only
  rw [Nat.mul_div_mul_left num den hc, Nat.mul_mod_mul_left, hdouble]
  simp only [Nat.mul_lt_mul_left hc]

theorem div_le_roundDiv (num den : Nat) : num / den ≤ roundDiv num den := by
  unfold roundDiv
  dsimp only
  split
  · exact Nat.le_refl _
  · split <;> omega

/-- Rounding leaves an odd number for the next one halfway between the two. -/
theorem succ_le_roundDiv_iff {n num den : Nat} (hden : 0 < den) (hodd : n % 2 = 1) :
    n + 1 ≤ roundDiv num den ↔ (2 * n + 1) * den ≤ 2 * num := by
  have hsplit := Nat.div_add_mod num den
  have hrest := Nat.mod_lt num hden
  have hhalf : (2 * n + 1) * den = 2 * (den * n) + den := by
    rw [Nat.add_mul, Nat.one_mul, Nat.mul_assoc, Nat.mul_comm n den]
  have hle := roundDiv_le num den
  have hge := div_le_roundDiv num den
  rw [hhalf]
  rcases Nat.lt_trichotomy (num / den) n with hlt | heq | hgt
  · -- not even the next whole number is reached
    have hmul : den * (num / den) + den ≤ den * n := Nat.mul_le_mul_left den hlt
    exact iff_of_false (by omega) (by omega)
  · unfold roundDiv
    dsimp only
    rw [heq] at hsplit ⊢
    rw [hodd]
    split
    · exact iff_of_false (by omega) (by omega)
    · split
      · exact iff_of_true (Nat.le_refl _) (by omega)
      · exact iff_of_true (Nat.le_refl _) (by omega)
  · have hmul : den * n + den ≤ den * (num / den) := Nat.mul_le_mul_left den hgt
    exact iff_of_true (by omega) (by omega)

-- ================================================================ formats

namespace Format

/-- The quotient lies halfway between the largest number and the bound or
beyond. -/
def Overflows (f : Format) (num den : Nat) : Prop :=
  (2 ^ (f.precision + 1) - 1) * 2 ^ (f.bound + f.scale - f.precision) * den
    ≤ 2 * (num * 2 ^ f.scale)

instance (f : Format) (num den : Nat) : Decidable (f.Overflows num den) :=
  inferInstanceAs (Decidable (_ ≤ _))

theorem round_mul_mul {c : Nat} (hc : 0 < c) (f : Format) (num den : Nat) :
    f.round (c * num) (c * den) = f.round num den := by
  unfold round
  dsimp only
  rw [Nat.mul_div_mul_left num den hc, Nat.mul_assoc, roundDiv_mul_mul hc]

/-- How many bits are cut off tells how large the quotient is at most. -/
theorem div_lt_two_pow (f : Format) (q : Nat) : q < 2 ^ (f.precision + f.excess q) := by
  rcases Nat.eq_zero_or_pos q with rfl | hpos
  · exact Nat.two_pow_pos _
  · refine (Nat.log2_lt (Nat.pos_iff_ne_zero.1 hpos)).1 ?_
    unfold excess
    omega

/-- What is cut off is rounded to the precision, or to one more. -/
theorem round_le (f : Format) (num den : Nat) :
    f.round num den ≤ 2 ^ (f.precision + f.excess (num / den)) := by
  have hfloor := f.div_lt_two_pow (num / den)
  have hle := roundDiv_le num (den * 2 ^ f.excess (num / den))
  rw [← Nat.div_div_eq_div_mul] at hle
  unfold round
  dsimp only
  rw [Nat.pow_add] at hfloor ⊢
  refine Nat.mul_le_mul_right _ (Nat.le_trans hle ?_)
  exact Nat.div_lt_of_lt_mul (Nat.mul_comm .. ▸ hfloor)

/-- Rounding does not leave the range between two powers of two downwards. -/
theorem two_pow_le_round {f : Format} {num den t : Nat} (ht : f.precision ≤ t)
    (h : 2 ^ t ≤ num / den) : 2 ^ t ≤ f.round num den := by
  have hpos : num / den ≠ 0 := Nat.pos_iff_ne_zero.1 (Nat.lt_of_lt_of_le (Nat.two_pow_pos t) h)
  have hlog : t ≤ (num / den).log2 := (Nat.le_log2 hpos).2 h
  have hprecision := f.precision_pos
  have hexcess : f.excess (num / den) ≤ (num / den).log2 := by
    unfold excess
    omega
  have hpow : 2 ^ (num / den).log2
      = 2 ^ ((num / den).log2 - f.excess (num / den)) * 2 ^ f.excess (num / den) := by
    rw [← Nat.pow_add, Nat.sub_add_cancel hexcess]
  calc 2 ^ t
    _ ≤ 2 ^ (num / den).log2 := Nat.pow_le_pow_right (by omega) hlog
    _ = 2 ^ ((num / den).log2 - f.excess (num / den)) * 2 ^ f.excess (num / den) := hpow
    _ ≤ f.round num den := by
        refine Nat.mul_le_mul_right _ (Nat.le_trans ?_ (div_le_roundDiv ..))
        rw [← Nat.div_div_eq_div_mul, Nat.le_div_iff_mul_le (Nat.two_pow_pos _), ← hpow]
        exact Nat.log2_self_le hpos

/-- Below the bound, no more bits are cut off than the largest number has
behind its significant ones. -/
theorem excess_le {f : Format} {q : Nat} (h : q < 2 ^ (f.bound + f.scale)) :
    f.excess q ≤ f.bound + f.scale - f.precision := by
  have hprecision := f.precision_pos
  unfold excess
  rcases Nat.eq_zero_or_pos q with rfl | hpos
  · rw [Nat.log2_zero]
    omega
  · have hlog := (Nat.log2_lt (Nat.pos_iff_ne_zero.1 hpos)).2 h
    omega

/-- Rounding reaches the bound exactly from halfway on. -/
theorem limit_le_round_iff (f : Format) {num den : Nat} (hden : 0 < den) :
    f.limit ≤ f.round (num * 2 ^ f.scale) den ↔ f.Overflows num den := by
  have hprecision := f.precision_pos
  have hsum : f.precision + (f.bound + f.scale - f.precision) = f.bound + f.scale :=
    Nat.add_sub_of_le f.precision_le
  have hpow : 2 ^ (f.precision + 1) = 2 * 2 ^ f.precision := Nat.pow_add_one'
  have hpos : 0 < 2 ^ f.precision := Nat.two_pow_pos _
  unfold Overflows limit
  generalize num * 2 ^ f.scale = units
  rw [hpow]
  rcases Nat.lt_or_ge (units / den) (2 ^ (f.bound + f.scale)) with hlt | hge
  · rcases Nat.lt_or_eq_of_le (excess_le hlt) with hfew | hall
    · -- the bits kept do not reach up to the bound
      refine iff_of_false (Nat.not_le.2 ?_) (Nat.not_le.2 ?_)
      · exact Nat.lt_of_le_of_lt (f.round_le units den)
          (Nat.pow_lt_pow_right (by omega) (by omega))
      · have hunits : units < 2 ^ (f.precision + f.excess (units / den)) * den :=
          (Nat.div_lt_iff_lt_mul hden).1 (f.div_lt_two_pow _)
        calc 2 * units
          _ < 2 * (2 ^ (f.precision + f.excess (units / den)) * den) := by omega
          _ = 2 ^ (f.precision + f.excess (units / den) + 1) * den := by
              rw [Nat.pow_add_one', Nat.mul_assoc]
          _ ≤ 2 ^ (f.precision + (f.bound + f.scale - f.precision)) * den :=
              Nat.mul_le_mul_right _ (Nat.pow_le_pow_right (by omega) (by omega))
          _ ≤ (2 * 2 ^ f.precision - 1) * 2 ^ (f.bound + f.scale - f.precision) * den := by
              rw [Nat.pow_add]
              exact Nat.mul_le_mul_right _ (Nat.mul_le_mul_right _ (by omega))
    · -- the largest number and the bound are neighbours here
      have heven : 2 ∣ 2 ^ f.precision := Nat.pow_dvd_pow 2 hprecision
      have hodd : (2 ^ f.precision - 1) % 2 = 1 := by omega
      have htwice : 2 * (2 ^ f.precision - 1) + 1 = 2 * 2 ^ f.precision - 1 := by omega
      unfold round
      dsimp only
      rw [hall, ← hsum, Nat.pow_add, Nat.add_sub_cancel_left,
        Nat.mul_le_mul_right_iff (Nat.two_pow_pos _), ← Nat.sub_add_cancel hpos,
        succ_le_roundDiv_iff (Nat.mul_pos hden (Nat.two_pow_pos _)) hodd, htwice,
        Nat.sub_add_cancel hpos, Nat.mul_assoc, Nat.mul_comm den]
  · refine iff_of_true (two_pow_le_round f.precision_le hge) ?_
    have hunits : 2 ^ (f.bound + f.scale) * den ≤ units := (Nat.le_div_iff_mul_le hden).1 hge
    calc (2 * 2 ^ f.precision - 1) * 2 ^ (f.bound + f.scale - f.precision) * den
      _ ≤ 2 * 2 ^ f.precision * 2 ^ (f.bound + f.scale - f.precision) * den :=
          Nat.mul_le_mul_right _ (Nat.mul_le_mul_right _ (Nat.sub_le ..))
      _ = 2 * (2 ^ (f.bound + f.scale) * den) := by
          rw [Nat.mul_assoc 2, ← Nat.pow_add, hsum, Nat.mul_assoc]
      _ ≤ 2 * units := Nat.mul_le_mul_left 2 hunits

end Format

namespace Binary

theorem ofRatio?_mul_mul {c : Nat} (hc : 0 < c) (f : Format) (negative : Bool) (num den : Nat) :
    ofRatio? f negative (c * num) (c * den) = ofRatio? f negative num den := by
  unfold ofRatio?
  simp only [Nat.mul_assoc c, Format.round_mul_mul hc]

/-- There is a nearest number exactly if the quotient is not halfway to the
bound. -/
theorem ofRatio?_eq_none_iff (f : Format) (negative : Bool) {num den : Nat} (hden : 0 < den) :
    ofRatio? f negative num den = none ↔ f.Overflows num den := by
  rw [← f.limit_le_round_iff hden, ← Nat.not_lt]
  unfold ofRatio?
  dsimp only
  split
  · next h => exact iff_of_false (Option.some_ne_none _) (not_not_intro h)
  · next h => exact iff_of_true rfl h

end Binary

end CommandGrammar.Decimal
