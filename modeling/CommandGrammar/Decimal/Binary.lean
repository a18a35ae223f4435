/-
Finite binary floating-point numbers. A format keeps a fixed count of
significant bits, has a smallest positive number and a bound. Every
number of a format is a whole multiple of the smallest one, so a number
is represented by a sign and that multiple, its *units*; the count of
significant bits then says which multiples exist: the low bits beyond
the precision are zero. Sums, comparisons and roundings are thus exact
arithmetic on whole numbers, and a number has one representation.
-/
import CommandGrammar.Decimal.Rounding

namespace CommandGrammar.Decimal

-- powers of naturals are the core library's, whatever else is imported
attribute [local instance (2000)] instPowNat

/-- The shape of a binary floating-point format. -/
structure Format where
  /-- How many significant bits a number keeps. -/
  precision : Nat
  /-- The smallest positive number is two to the minus this. -/
  scale : Nat
  /-- Every finite number lies below two to this. -/
  bound : Nat
  /-- At least one bit is kept. -/
  precision_pos : 0 < precision := by decide
  /-- The bits kept reach from the bound no further than to the smallest
  number. -/
  precision_le : precision ≤ bound + scale := by decide
  deriving DecidableEq

namespace Format

/-- The format of 32 bits. -/
def single : Format := { precision := 24, scale := 149, bound := 128 }

/-- The format of 64 bits. -/
def double : Format := { precision := 53, scale := 1074, bound := 1024 }

-- ====================================================== exact magnitudes

/-- How many low bits of a magnitude lie beyond the precision. -/
def excess (f : Format) (units : Nat) : Nat :=
  units.log2 + 1 - f.precision

/-- Whether a magnitude has no significant bit beyond the precision. -/
def IsExact (f : Format) (units : Nat) : Prop :=
  2 ^ f.excess units ∣ units

instance (f : Format) (units : Nat) : Decidable (f.IsExact units) :=
  inferInstanceAs (Decidable (_ ∣ _))

/-- A magnitude is exact when its leading bits fit the precision. -/
theorem isExact_mul_two_pow {f : Format} {leading : Nat}
    (h : leading < 2 ^ f.precision) (k : Nat) : f.IsExact (leading * 2 ^ k) := by
  refine Nat.dvd_trans (Nat.pow_dvd_pow 2 ?_) (Nat.dvd_mul_left (2 ^ k) leading)
  rcases Nat.eq_zero_or_pos leading with rfl | positive
  · have := f.precision_pos
    simp only [excess, Nat.zero_mul, Nat.log2_zero]
    omega
  · have nonzero : leading * 2 ^ k ≠ 0 :=
      Nat.mul_ne_zero (Nat.pos_iff_ne_zero.1 positive) (Nat.pos_iff_ne_zero.1 (Nat.two_pow_pos k))
    have below : leading * 2 ^ k < 2 ^ (f.precision + k) := by
      rw [Nat.pow_add]
      exact Nat.mul_lt_mul_of_pos_right h (Nat.two_pow_pos k)
    have := (Nat.log2_lt nonzero).2 below
    simp only [excess]
    omega

/-- The exact magnitude nearest to `num / den` units, a tie going to the
one with an even last bit. -/
def round (f : Format) (num den : Nat) : Nat :=
  let k := f.excess (num / den)
  roundDiv num (den * 2 ^ k) * 2 ^ k

/-- Rounding gives an exact magnitude. -/
theorem isExact_round (f : Format) (num den : Nat) : f.IsExact (f.round num den) := by
  simp only [round]
  generalize hk : f.excess (num / den) = k
  have le := roundDiv_le num (den * 2 ^ k)
  have floor : num / (den * 2 ^ k) < 2 ^ f.precision := by
    rw [← Nat.div_div_eq_div_mul]
    rw [Nat.div_lt_iff_lt_mul (Nat.two_pow_pos k), ← Nat.pow_add]
    rcases Nat.eq_zero_or_pos (num / den) with zero | positive
    · rw [zero]; exact Nat.two_pow_pos _
    · refine (Nat.log2_lt (Nat.pos_iff_ne_zero.1 positive)).1 ?_
      simp only [excess] at hk
      omega
  rcases Nat.lt_or_ge (roundDiv num (den * 2 ^ k)) (2 ^ f.precision) with small | large
  · exact isExact_mul_two_pow small k
  · have carried : roundDiv num (den * 2 ^ k) = 2 ^ f.precision := by omega
    have := isExact_mul_two_pow (Nat.one_lt_two_pow (Nat.pos_iff_ne_zero.1 f.precision_pos))
      (f.precision + k)
    rwa [Nat.one_mul, Nat.pow_add, ← carried] at this

/-- The magnitudes from here on are not finite. -/
def limit (f : Format) : Nat :=
  2 ^ (f.bound + f.scale)

end Format

-- ================================================================ numbers

/-- A finite number of a format. Zero has both signs. -/
structure Binary (f : Format) where
  /-- Whether the sign is minus. -/
  negative : Bool
  /-- The magnitude in multiples of the smallest positive number. -/
  units : Nat
  /-- The magnitude fits the precision. -/
  isExact : f.IsExact units
  /-- The magnitude lies below the bound. -/
  units_lt : units < f.limit
  deriving DecidableEq

namespace Binary

variable {f : Format}

/-- The number of a format that is nearest to `num / den`, under a sign;
nothing if it lies beyond the bound. -/
def ofRatio? (f : Format) (negative : Bool) (num den : Nat) : Option (Binary f) :=
  let units := f.round (num * 2 ^ f.scale) den
  if h : units < f.limit then
    some ⟨negative, units, f.isExact_round _ _, h⟩
  else none

/-- The largest number of a format, or under a minus sign the smallest. -/
def largest (f : Format) (negative : Bool) : Binary f where
  negative
  units := (2 ^ f.precision - 1) * 2 ^ (f.bound + f.scale - f.precision)
  isExact := Format.isExact_mul_two_pow (Nat.sub_lt (Nat.two_pow_pos _) Nat.one_pos) _
  units_lt := by
    have sum : f.precision + (f.bound + f.scale - f.precision) = f.bound + f.scale :=
      Nat.add_sub_of_le f.precision_le
    have below := Nat.mul_lt_mul_of_pos_right (Nat.sub_lt (Nat.two_pow_pos f.precision) Nat.one_pos)
      (Nat.two_pow_pos (f.bound + f.scale - f.precision))
    rwa [← Nat.pow_add, sum] at below

/-- The number as a whole multiple of the smallest positive one. -/
def signed (x : Binary f) : Int :=
  if x.negative then -x.units else x.units

/-- Numbers are ordered by what they are worth, so that the two zeros
are equal. -/
instance : LE (Binary f) := ⟨fun x y => x.signed ≤ y.signed⟩

instance : LT (Binary f) := ⟨fun x y => x.signed < y.signed⟩

instance (x y : Binary f) : Decidable (x ≤ y) :=
  inferInstanceAs (Decidable (x.signed ≤ y.signed))

instance (x y : Binary f) : Decidable (x < y) :=
  inferInstanceAs (Decidable (x.signed < y.signed))

/-- The number rounded to another format; nothing if it lies beyond that
format's bound. -/
def convert? (g : Format) (x : Binary f) : Option (Binary g) :=
  ofRatio? g x.negative x.units (2 ^ f.scale)

/-- The number nearest to a whole number; nothing beyond the bound. -/
def ofInt? (f : Format) (n : Int) : Option (Binary f) :=
  ofRatio? f (n < 0) n.natAbs 1

/-- The number plus one, if rounding leaves it larger than the number. -/
def next? (x : Binary f) : Option (Binary f) :=
  let sum := x.signed + 2 ^ f.scale
  (ofRatio? f (sum < 0) sum.natAbs (2 ^ f.scale)).filter (x < ·)

end Binary

end CommandGrammar.Decimal
