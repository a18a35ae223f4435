/-
Listing numbers for a text that could not begin one. No number has a text
that begins with it, so there is nothing to list, and mostly nothing is
listed. But what follows the minus sign, or the whole if there is none, is
read as a number with a sign of its own. So behind a plus sign the listing
is that of the number without it. Behind a second sign that makes the number
zero or negative, no multiple of it is ever too large, and the loop over the
counts of further digits goes on until a register overflows
(`listed_of_refused`).
-/
import CommandGrammar.Argument.Fraction
import CommandGrammar.Proofs.Argument.Numeral
import CommandGrammar.Proofs.Argument.Register

namespace CommandGrammar.Integer

open Text

-- powers of naturals are the core library's, whatever else is imported
attribute [local instance (2000)] instPowNat

variable {text rest : List Char} {typed : String} {negative : Bool}

-- =================================================== what digits write

/-- What is listed begins with the digits behind a plus sign or none. -/
theorem leading?_of_digits {digits : List Char}
    (htext : text = '+' :: digits ∨ text = digits ∧ ∀ rest, text = '+' :: rest → False) :
    leading? text = match readDigits (2 ^ (63 : Nat)) 0 digits with
      | .ok n => if 0 < n then some n else none
      | .error _ => none := by
  rcases htext with rfl | ⟨rfl, hplus⟩
  · rfl
  · exact leading?_of_no_plus hplus

/-- They write a positive number. -/
theorem leading?_eq_some_iff_of_digits {digits : List Char} {n : Nat}
    (htext : text = '+' :: digits ∨ text = digits ∧ ∀ rest, text = '+' :: rest → False) :
    leading? text = some n ↔ readDigits (2 ^ (63 : Nat)) 0 digits = .ok n ∧ 0 < n := by
  rw [leading?_of_digits htext]
  rcases readDigits (2 ^ (63 : Nat)) 0 digits with fault | m
  · exact iff_of_false nofun nofun
  · dsimp only
    constructor
    · intro h
      split at h
      · next hpos =>
          obtain rfl := Option.some.inj h
          exact ⟨rfl, hpos⟩
      · cases h
    · rintro ⟨h, hpos⟩
      obtain rfl := Except.ok.inj h
      exact if_pos hpos

/-- It is the number that the text writes. -/
theorem leading?_eq_some_iff {n : Nat} :
    leading? text = some n ↔ Writes text n ∧ 0 < n ∧ n ≤ 2 ^ (63 : Nat) := by
  have hread : ∀ digits, readDigits (2 ^ (63 : Nat)) 0 digits = .ok n ∧ 0 < n
      ↔ (Stretch Char.isDigit digits ∧ (n : Int) = digitsValue digits)
        ∧ 0 < n ∧ n ≤ 2 ^ (63 : Nat) := by
    intro digits
    rw [readDigits_eq_ok_iff]
    constructor
    · rintro ⟨⟨hdigits, hvalue, hle⟩, hpos⟩
      have hne : digits ≠ [] := by
        rintro rfl
        exact Nat.ne_of_lt hpos hvalue
      exact ⟨⟨⟨hne, hdigits⟩, by rw [hvalue]⟩, hpos, hle⟩
    · rintro ⟨⟨hdigits, hvalue⟩, hpos, hle⟩
      exact ⟨⟨hdigits.all, (Int.ofNat.inj hvalue).symm, hle⟩, hpos⟩
  rw [writes_iff]
  by_cases hplus : ∃ digits, text = '+' :: digits
  · obtain ⟨digits, rfl⟩ := hplus
    exact (leading?_eq_some_iff_of_digits (.inl rfl)).trans (hread digits)
  · rw [leading?_eq_some_iff_of_digits (.inr ⟨rfl, fun digits h => hplus ⟨digits, h⟩⟩), hread]
    unfold splitSign
    split
    · -- behind a minus sign there is no positive number
      next digits =>
      refine iff_of_false (fun h => ?_) fun h => ?_
      · exact absurd (h.1.1.all '-' (List.mem_cons_self ..)) (by decide)
      · have := h.1.2
        simp only [if_true] at this
        omega
    · next digits => exact absurd ⟨digits, rfl⟩ hplus
    · exact Iff.rfl

/-- A number that is written is written by its text too. -/
theorem writes_iff_of_writes {n : Nat} (h : Writes text n) (i : Int) :
    Writes text i ↔ Writes (Nat.toDigits 10 n) i :=
  ⟨fun hi => h.unique hi ▸ writes_toDigits n, fun hi => (writes_toDigits n).unique hi ▸ h⟩

theorem leading?_of_writes {n : Nat} (h : Writes text n) :
    leading? text = leading? (Nat.toDigits 10 n) :=
  Option.ext fun m => by
    rw [leading?_eq_some_iff, leading?_eq_some_iff, writes_iff_of_writes h]

-- ======================================================== what was typed

/-- The sign that is taken off first is a minus sign or none. -/
theorem splitMinus_cases (h : Fraction.splitSign text = (negative, rest)) :
    (negative = true ∧ text = '-' :: rest)
      ∨ negative = false ∧ text = rest ∧ ∀ digits, rest = '-' :: digits → False := by
  unfold Fraction.splitSign at h
  split at h
  · injection h with hnegative hrest
    exact .inl ⟨hnegative.symm, congrArg _ hrest⟩
  · next hminus =>
      injection h with hnegative hrest
      exact .inr ⟨hnegative.symm, hrest, hrest ▸ hminus⟩

/-- Behind it, what could begin a number is digits. -/
theorem canBegin_of_splitMinus (h : Fraction.splitSign typed.toList = (negative, rest)) :
    canBegin typed = rest.all Char.isDigit := by
  unfold canBegin
  rcases splitMinus_cases h with ⟨-, htext⟩ | ⟨-, htext, hminus⟩
  · rw [htext]
    rfl
  · rw [htext]
    split
    · next digits => exact (hminus digits rfl).elim
    · rfl

theorem splitMinus_toString (negative : Bool) {n : Nat} (hn : 0 < n) :
    Fraction.splitSign (toString (if negative then -(n : Int) else n)).toList
      = (negative, Nat.toDigits 10 n) := by
  cases negative with
  | true =>
      rw [if_pos rfl, toList_toString_neg hn]
      rfl
  | false =>
      rw [if_neg Bool.false_ne_true, toList_toString_ofNat]
      unfold Fraction.splitSign
      split
      · next h => exact absurd (isDigit_of_mem_toDigits (h ▸ List.mem_cons_self ..)) (by decide)
      · rfl

/-- What is more than digits and writes a number still has a sign of its own. -/
theorem exists_of_writes {i : Int} (h : Writes rest i) (hrest : rest.all Char.isDigit = false) :
    ∃ digits, rest = '+' :: digits ∨ rest = '-' :: digits := by
  cases h with
  | unsigned h =>
      rw [List.all_eq_true.2 h.all] at hrest
      cases hrest
  | plus => exact ⟨_, .inl rfl⟩
  | minus => exact ⟨_, .inr rfl⟩

/-- There is a first character, and it is no zero: either a digit of a positive
number, or no digit. -/
structure Starts (rest : List Char) : Prop where
  /-- There is one. -/
  nonempty : rest = [] → False
  /-- It is no zero. -/
  not_zero : ∀ more, rest = '0' :: more → False

theorem starts_of_writes {i : Int} (h : Writes rest i) (hrest : rest.all Char.isDigit = false) :
    Starts rest := by
  obtain ⟨digits, rfl | rfl⟩ := exists_of_writes h hrest
  · exact ⟨nofun, nofun⟩
  · exact ⟨nofun, nofun⟩

theorem starts_toDigits {n : Nat} (hn : 0 < n) : Starts (Nat.toDigits 10 n) where
  nonempty := Nat.toDigits_ne_nil
  not_zero more h := by
    have hbegins : '0' :: more <+: Nat.toDigits 10 n := h ▸ List.prefix_rfl
    exact Nat.ne_of_gt hn (eq_zero_of_leading_zero hbegins).1

-- =========================================================== the listing

namespace Register

theorem spans_of_splitMinus (range : Span) (hsplit : Fraction.splitSign text = (negative, rest))
    (hrest : Starts rest) :
    spans range text
      = if negative then ((magnitudesOf rest).map Span.opposite).reverse.map range.meet
        else (magnitudesOf rest).map range.meet := by
  rcases splitMinus_cases hsplit with ⟨rfl, rfl⟩ | ⟨rfl, rfl, hminus⟩
  · exact spans_of_minus range hrest.nonempty hrest.not_zero
  · exact spans_of_digits range hminus hrest.nonempty hrest.not_zero

/-- Nothing is listed for what writes no positive number. -/
theorem listed_eq_nil (hsplit : Fraction.splitSign typed.toList = (negative, rest))
    (hrest : rest.all Char.isDigit = false) (h : ∀ n : Nat, 0 < n → ¬Writes rest n)
    (min max : Int64) (limit : Nat) : listed min max typed limit = [] := by
  have hspans : spans (min.toInt, max.toInt) typed.toList = [] := by
    by_cases hzero : ∃ more, rest = '0' :: more
    · obtain ⟨more, rfl⟩ := hzero
      rcases splitMinus_cases hsplit with ⟨-, htext⟩ | ⟨-, htext, -⟩
      · rw [htext]
        rfl
      · rw [htext]
        cases more with
        | nil => cases hrest
        | cons => rfl
    · have hnone : magnitudesOf rest = [] := by
        unfold magnitudesOf
        cases hleading : leading? rest with
        | none => rfl
        | some n =>
            obtain ⟨hwrites, hpos, -⟩ := leading?_eq_some_iff.1 hleading
            exact absurd hwrites (h n hpos)
      have hne : rest = [] → False := by
        rintro rfl
        cases hrest
      rw [spans_of_splitMinus _ hsplit ⟨hne, fun more hmore => hzero ⟨more, hmore⟩⟩, hnone]
      cases negative <;> rfl
  unfold listed
  rw [hspans]
  rfl

/-- For what writes a positive number the listing is that of its text. -/
theorem listed_of_writes (hsplit : Fraction.splitSign typed.toList = (negative, rest))
    (hrest : rest.all Char.isDigit = false) {n : Nat} (hn : 0 < n) (h : Writes rest n)
    (min max : Int64) (limit : Nat) :
    listed min max typed limit
      = listed min max (toString (if negative then -(n : Int) else n)) limit := by
  have hmagnitudes : magnitudesOf rest = magnitudesOf (Nat.toDigits 10 n) := by
    unfold magnitudesOf
    rw [leading?_of_writes h]
  unfold listed
  rw [spans_of_splitMinus _ hsplit (starts_of_writes h hrest),
    spans_of_splitMinus _ (splitMinus_toString negative hn) (starts_toDigits hn), hmagnitudes]

-- ============================================== the listing in registers

/-- The number of a register that a text writes. -/
def number? (text : List Char) : Option Int :=
  let (negative, digits) := splitSign text
  if digits.isEmpty then none
  else
    match readDigits (if negative then largest + 1 else largest) 0 digits with
    | .ok n => some (if negative then -n else n)
    | .error _ => none

/-- The spans of the numbers whose text begins with that of `n` behind a minus
sign or none. -/
def spansFrom? (negative : Bool) (n : Int) : Option (List Span) := do
  let found ← magnitudes? n 0
  if negative then
    let opposites ← found.mapM opposite?
    return opposites.reverse
  else return found

/-- The spans of the numbers that begin with a text behind a minus sign or
none. The text may have a sign of its own. -/
def spansBehind? (range : Span) (negative : Bool) (rest : List Char) : Option (List Span) :=
  match rest with
  | [] => some [if negative then (range.1, min range.2 (-1)) else range]
  | '0' :: more => some (if more = [] ∧ negative = false then [(0, 0)] else [])
  | rest =>
      match number? rest with
      | some n => spansFrom? negative n
      | none => some []

/-- At most `limit` numbers between two bounds that begin with what was typed,
a second sign included, or nothing where an operation on the way overflows. -/
def listedBehind? (min max : Int64) (typed : String) (limit : Nat) : Option (List Int64) := do
  let range : Span := (min.toInt, max.toInt)
  let (negative, rest) := Fraction.splitSign typed.toList
  let found ← spansBehind? range negative rest
  let numbers := found.flatMap fun span => (range.meet span).numbers
  return (numbers.take limit).filterMap narrow?

theorem number?_eq_some_iff {i : Int} :
    number? text = some i ↔ Writes text i ∧ -largest - 1 ≤ i ∧ i ≤ largest := by
  have hread : ∀ (limit : Nat) (f : Nat → Int) {digits : List Char}, digits ≠ [] →
      ((match readDigits limit 0 digits with
        | .ok n => some (f n)
        | .error _ => none) = some i
      ↔ Stretch Char.isDigit digits ∧ digitsValue digits ≤ limit
        ∧ f (digitsValue digits) = i) := by
    intro limit f digits hne
    constructor
    · intro h
      split at h
      · next n hread =>
          obtain ⟨hdigits, rfl, hle⟩ := readDigits_eq_ok_iff.1 hread
          exact ⟨⟨hne, hdigits⟩, hle, Option.some.inj h⟩
      · cases h
    · rintro ⟨hdigits, hle, rfl⟩
      rw [readDigits_eq_ok_iff.2 ⟨hdigits.all, rfl, hle⟩]
  rw [writes_iff]
  unfold number?
  generalize splitSign text = parts
  obtain ⟨negative, digits⟩ := parts
  dsimp only
  by_cases hempty : digits = []
  · rw [hempty, if_pos List.isEmpty_nil]
    exact iff_of_false nofun fun h => h.1.1.nonempty rfl
  · rw [List.isEmpty_eq_false_iff.2 hempty, if_neg Bool.false_ne_true]
    cases negative with
    | true =>
        simp only [if_true]
        refine (hread (largest + 1) (fun n => -(n : Int)) hempty).trans ?_
        constructor
        · rintro ⟨hdigits, hle, rfl⟩
          exact ⟨⟨hdigits, rfl⟩, by omega, by omega⟩
        · rintro ⟨⟨hdigits, rfl⟩, hlow, -⟩
          exact ⟨hdigits, by omega, rfl⟩
    | false =>
        simp only [Bool.false_eq_true, if_false]
        refine (hread largest (fun n => (n : Int)) hempty).trans ?_
        constructor
        · rintro ⟨hdigits, hle, rfl⟩
          exact ⟨⟨hdigits, rfl⟩, by omega, by omega⟩
        · rintro ⟨⟨hdigits, rfl⟩, -, hhigh⟩
          exact ⟨hdigits, by omega, rfl⟩

/-- The loop does not end with a number that is not positive. -/
theorem magnitudes?_of_nonpos {n : Int} (hn : n ≤ 0) (k : Nat) : magnitudes? n k = none := by
  induction hleft : 39 - k using Nat.strongRecOn generalizing k with
  | ind left ih =>
      rw [magnitudes?]
      split
      · rfl
      · next scale hscale =>
        obtain ⟨hpow, -, hfit⟩ := fit?_eq_some.1 hscale
        have hk : ¬39 ≤ k := fun hk => absurd (ten_pow_gt hk) (by omega)
        have hfurther := ih (39 - (k + 1)) (by omega) (k + 1) rfl
        have hlow : n * scale ≤ 0 :=
          Int.mul_nonpos_of_nonpos_of_nonneg hn (hpow ▸ Int.natCast_nonneg _)
        simp only [hfurther]
        rcases hfit : fit? (n * scale) with - | low
        · rfl
        · have hle : low ≤ ((2 ^ (63 : Nat) : Nat) : Int) := by
            have := (fit?_eq_some.1 hfit).1
            omega
          simp only [Option.bind_eq_bind, Option.bind_some, if_pos hle, Option.bind_none,
            Option.bind_fun_none]

theorem spansFrom?_of_nonpos {n : Int} (hn : n ≤ 0) : spansFrom? negative n = none := by
  unfold spansFrom?
  rw [magnitudes?_of_nonpos hn]
  rfl

theorem spansBehind?_eq (range : Span) (hrest : Starts rest) :
    spansBehind? range negative rest
      = match number? rest with
        | some n => spansFrom? negative n
        | none => some [] := by
  rw [spansBehind?]
  · exact hrest.nonempty
  · exact hrest.not_zero

theorem spansBehind?_congr (range : Span) {other : List Char} (hrest : Starts rest)
    (hother : Starts other) (h : number? rest = number? other) :
    spansBehind? range negative rest = spansBehind? range negative other := by
  rw [spansBehind?_eq range hrest, spansBehind?_eq range hother, h]

/-- What is no number of a register begins nothing. -/
theorem spansBehind?_of_none (range : Span) (hrest : rest.all Char.isDigit = false)
    (h : number? rest = none) : spansBehind? range negative rest = some [] := by
  unfold spansBehind?
  split
  · cases hrest
  · next more =>
      cases more with
      | nil => cases hrest
      | cons => rfl
  · rw [h]

/-- Digits have no sign of their own. -/
theorem number?_of_digits (hrest : rest.all Char.isDigit = true) (hne : rest ≠ []) :
    number? rest = match readDigits largest 0 rest with
      | .ok n => some (n : Int)
      | .error _ => none := by
  unfold number?
  rw [splitSign_of_stretch ⟨hne, List.all_eq_true.1 hrest⟩]
  dsimp only
  rw [List.isEmpty_eq_false_iff.2 hne, if_neg Bool.false_ne_true]
  simp only [Bool.false_eq_true, if_false]

theorem spansBehind?_of_digits (range : Span)
    (hsplit : Fraction.splitSign text = (negative, rest)) (hrest : rest.all Char.isDigit = true) :
    spansBehind? range negative rest = spans? range text := by
  unfold spansBehind?
  split
  · rcases splitMinus_cases hsplit with ⟨rfl, rfl⟩ | ⟨rfl, rfl, -⟩
    · rfl
    · rfl
  · next more =>
      rcases splitMinus_cases hsplit with ⟨rfl, rfl⟩ | ⟨rfl, rfl, -⟩
      · rw [if_neg (by rintro ⟨-, ⟨⟩⟩)]
        rfl
      · cases more with
        | nil => rfl
        | cons => rfl
  · next hne hzero =>
      rw [number?_of_digits hrest hne]
      rcases splitMinus_cases hsplit with ⟨rfl, rfl⟩ | ⟨rfl, rfl, hminus⟩
      · rw [spans?]
        · unfold magnitudesOf?
          cases readDigits largest 0 rest <;> rfl
        · exact hne
        · exact hzero
      · rw [spans?]
        · unfold magnitudesOf?
          rcases readDigits largest 0 text with fault | n
          · rfl
          · exact bind_pure (magnitudes? n 0)
        · exact hminus []
        · exact fun more => hminus ('0' :: more)
        · exact hminus
        · exact hne
        · exact hzero []
        · exact hzero

theorem listedBehind?_of_splitMinus
    (hsplit : Fraction.splitSign typed.toList = (negative, rest)) (min max : Int64) (limit : Nat) :
    listedBehind? min max typed limit
      = (spansBehind? (min.toInt, max.toInt) negative rest).map fun found =>
        ((found.flatMap fun span => (Span.meet (min.toInt, max.toInt) span).numbers).take
          limit).filterMap narrow? := by
  unfold listedBehind?
  dsimp only
  rw [hsplit]
  exact Option.map_eq_bind.symm

/-- For what could begin a number, a second sign is not to be found. -/
theorem listedBehind?_eq (htyped : canBegin typed = true) (min max : Int64) (limit : Nat) :
    listedBehind? min max typed limit = listed? min max typed limit := by
  rcases hsplit : Fraction.splitSign typed.toList with ⟨negative, rest⟩
  have hrest : rest.all Char.isDigit = true := canBegin_of_splitMinus hsplit ▸ htyped
  rw [listedBehind?_of_splitMinus hsplit, spansBehind?_of_digits _ hsplit hrest]
  exact Option.map_eq_bind

end Register

-- ============================================================== refused

/-- What begins the text of a number could begin a number. -/
theorem begins_eq_false (htyped : canBegin typed = false) (n : Int64) :
    begins (toString n.toInt) typed = false := by
  rw [← Bool.not_eq_true]
  intro h
  have hbegins : typed.toList <+: (toString n.toInt).toList := List.isPrefixOf_iff_prefix.1 h
  have hplus : typed.toList.head? = some '+' := by
    by_contra hplus
    rw [(canBegin_iff (read_toString n) hbegins).2 hplus] at htyped
    cases htyped
  obtain ⟨digits, hdigits⟩ := List.head?_eq_some_iff.1 hplus
  rw [hdigits] at hbegins
  rcases toString_cases n.toInt with ⟨x, -, -, htext⟩ | ⟨x, -, htext⟩
  · rw [htext, List.cons_prefix_cons] at hbegins
    exact absurd hbegins.1 (by decide)
  · rw [htext] at hbegins
    exact absurd (isDigit_of_mem_toDigits (hbegins.subset (List.mem_cons_self ..))) (by decide)

/-- What is listed for a text that could not begin a number, and what the
listing with checked operations gives. No number has a text that begins with
it. Nothing is listed unless what follows the minus sign or none writes a
number, which then has a sign of its own. Behind it, a positive number is
listed like its text. With one that is not positive, an operation
overflows. -/
theorem listed_of_refused (htyped : canBegin typed = false)
    (hsplit : Fraction.splitSign typed.toList = (negative, rest)) (min max : Int64) (limit : Nat) :
    (∀ n : Int64, begins (toString n.toInt) typed = false)
      ∧ ((∀ i, Writes rest i → i < -Register.largest - 1) →
        listed min max typed limit = [] ∧ Register.listedBehind? min max typed limit = some [])
      ∧ (∀ n : Nat, 0 < n → Writes rest n →
          let text := toString (if negative then -(n : Int) else n)
          listed min max typed limit = (scan min max text).take limit
            ∧ Register.listedBehind? min max typed limit = some ((scan min max text).take limit))
      ∧ ∀ i, Writes rest i → i ≤ 0 → -Register.largest - 1 ≤ i →
          Register.listedBehind? min max typed limit = none := by
  have hrest : rest.all Char.isDigit = false := canBegin_of_splitMinus hsplit ▸ htyped
  refine ⟨begins_eq_false htyped, fun h => ⟨?_, ?_⟩, fun n hn h => ?_, fun i h hi hlow => ?_⟩
  · refine Register.listed_eq_nil hsplit hrest (fun n hn hwrites => ?_) min max limit
    have := h n hwrites
    omega
  · have hnone : Register.number? rest = none := by
      refine Option.eq_none_iff_forall_ne_some.2 fun i hi => ?_
      obtain ⟨hwrites, hlow, -⟩ := Register.number?_eq_some_iff.1 hi
      have := h i hwrites
      omega
    rw [Register.listedBehind?_of_splitMinus hsplit, Register.spansBehind?_of_none _ hrest hnone,
      Option.map_some, List.flatMap_nil, List.take_nil, List.filterMap_nil]
  · intro text
    have htext : Fraction.splitSign text.toList = (negative, Nat.toDigits 10 n) :=
      splitMinus_toString negative hn
    have hbegin : canBegin text = true :=
      (canBegin_of_splitMinus htext).trans (List.all_eq_true.2 fun _ => isDigit_of_mem_toDigits)
    have hnumber : Register.number? rest = Register.number? (Nat.toDigits 10 n) :=
      Option.ext fun i => by
        rw [Register.number?_eq_some_iff, Register.number?_eq_some_iff, writes_iff_of_writes h]
    have hlisted : listed min max text limit = (scan min max text).take limit :=
      listed_eq_take_scan hbegin limit
    refine ⟨(Register.listed_of_writes hsplit hrest hn h min max limit).trans hlisted, ?_⟩
    rw [← hlisted, ← Register.listed?_eq hbegin, ← Register.listedBehind?_eq hbegin,
      Register.listedBehind?_of_splitMinus hsplit, Register.listedBehind?_of_splitMinus htext,
      Register.spansBehind?_congr _ (starts_of_writes h hrest) (starts_toDigits hn) hnumber]
  · have hnumber : Register.number? rest = some i :=
      Register.number?_eq_some_iff.2 ⟨h, hlow, by omega⟩
    rw [Register.listedBehind?_of_splitMinus hsplit,
      Register.spansBehind?_eq _ (starts_of_writes h hrest), hnumber]
    dsimp only
    rw [Register.spansFrom?_of_nonpos hi, Option.map_none]

/-- A letter ends a number, a plus sign makes another listing of it, and behind
two minus signs there is no end. -/
theorem listed_of_doubled_sign :
    canBegin "4x" = false ∧ listed 1 100 "4x" 20 = []
      ∧ canBegin "-+5" = false
      ∧ listed (-60) 0 "-+5" 3 = (scan (-60) 0 "-5").take 3
      ∧ listed (-60) 0 "-+5" 3 = [-59, -58, -57]
      ∧ canBegin "--5" = false ∧ Register.listedBehind? 1 100 "--5" 20 = none := by
  have hletter : Fraction.splitSign "4x".toList = (false, ['4', 'x']) := rfl
  have hplus : Fraction.splitSign "-+5".toList = (true, ['+', '5']) := rfl
  have hminus : Fraction.splitSign "--5".toList = (true, ['-', '5']) := rfl
  have digits : Stretch Char.isDigit ['5'] := ⟨List.cons_ne_nil _ _, List.all_eq_true.1 rfl⟩
  have five : Writes ['+', '5'] (5 : Nat) := Writes.plus digits
  refine ⟨by decide, ?_, by decide, ?_, by decide +kernel, by decide, ?_⟩
  · refine ((listed_of_refused (by decide) hletter 1 100 20).2.1 fun i h => ?_).1
    exact absurd ((writes_iff.1 h).1.all 'x' (by decide)) (by decide)
  · exact ((listed_of_refused (by decide) hplus (-60) 0 3).2.2.1 5 (by decide) five).1
  · exact (listed_of_refused (by decide) hminus 1 100 20).2.2.2 (-5) (Writes.minus digits)
      (by decide) (by decide)

/-- No number has a text that begins with a plus sign, and yet some are listed. -/
theorem listed_plus_five :
    canBegin "+5" = false
      ∧ (∀ n : Int64, begins (toString n.toInt) "+5" = false)
      ∧ listed 1 100 "+5" 20 = [5, 50, 51, 52, 53, 54, 55, 56, 57, 58, 59] :=
  ⟨by decide, begins_eq_false (by decide), by decide +kernel⟩

end CommandGrammar.Integer
