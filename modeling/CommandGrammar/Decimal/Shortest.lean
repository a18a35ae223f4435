/-
The shortest decimal of a binary number: of all decimals that round to
the number, one with the fewest digits, and of those the nearest; an
exact tie goes upwards.

A decimal `n · 10 ^ e` is found by trying the grids of the powers of
ten from coarse to fine. On each grid the two neighbours of the number
are enough: if any point of the grid rounds to the number, one of them
does. The grid of the smallest positive number's own decimal places
holds every number of the format exactly, which ends the search.
-/
import CommandGrammar.Decimal.Binary

namespace CommandGrammar.Decimal

-- powers of naturals are the core library's, whatever else is imported
attribute [local instance (2000)] instPowNat

namespace Format

/-- Half the way down from a magnitude to the next smaller one and half
the way up to the next larger one, in quarters of a unit. The way down
is shorter at a power of two, where the smaller numbers lie denser. -/
def reach (f : Format) (units : Nat) : Nat × Nat :=
  let gap := 2 ^ f.excess units
  (if 0 < f.excess units ∧ units = 2 ^ units.log2 then gap else 2 * gap, 2 * gap)

/-- Whether `n · 10 ^ e` rounds to a magnitude. The ends of the interval
belong to it when the last bit kept is even. -/
def roundsTo (f : Format) (units n : Nat) (e : Int) : Bool :=
  let point := n * 10 ^ e.toNat * 2 ^ (f.scale + 2)
  let ten := 10 ^ (-e).toNat
  let low := (4 * units - (f.reach units).1) * ten
  let high := (4 * units + (f.reach units).2) * ten
  if units / 2 ^ f.excess units % 2 = 0 then low ≤ point ∧ point ≤ high
  else low < point ∧ point < high

/-- The neighbour of a magnitude on the grid of `10 ^ e` that rounds to
it; of two the nearer, and on a tie the upper. -/
def neighbour? (f : Format) (units : Nat) (e : Int) : Option Nat :=
  let num := units * 10 ^ (-e).toNat
  let den := 2 ^ f.scale * 10 ^ e.toNat
  let lower := num / den
  match f.roundsTo units lower e, f.roundsTo units (lower + 1) e with
  | true, true => some (if 2 * (num % den) < den then lower else lower + 1)
  | true, false => some lower
  | false, true => some (lower + 1)
  | false, false => none

/-- Tries the grids from `10 ^ e` down, as many as given, and takes the
exact decimal after them. -/
def search (f : Format) (units : Nat) : Nat → Int → Nat × Int
  | 0, _ => (units * 5 ^ f.scale, -f.scale)
  | grids + 1, e =>
      match f.neighbour? units e with
      | some n => (n, e)
      | none => search f units grids (e - 1)

end Format

/-- The shortest decimal `n · 10 ^ e` of a number's magnitude, as the
pair of `n` and `e`. -/
def Binary.shortest {f : Format} (x : Binary f) : Nat × Int :=
  if x.units = 0 then (0, 0)
  else
    let top := (Nat.toDigits 10 (x.units / 2 ^ f.scale)).length
    f.search x.units (top + f.scale) top

end CommandGrammar.Decimal
