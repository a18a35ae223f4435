/-
Which whole numbers are listed for what was typed: all of the range whose
text begins with it, in ascending order, the first ones up to the limit
(`listed_eq_take_scan`). No number is looked at on its own. The typed
digits are the text of one number `n`, the numbers with `k` further digits
are a span, and the spans of all `k` lie one behind the other because the
next one begins at `10 · n · 10 ^ k`, not before `(n + 1) · 10 ^ k`.

Two ascending lists with the same members are equal, so it is enough that
the spans are in order (`pairwise_spans`), that they have only what begins
with the typed text (`prefix_of_mem_spans`), and that they leave none of
it out (`exists_mem_spans`).
-/
import CommandGrammar.Proofs.Argument.Digits
import Mathlib.Data.List.Sort

namespace CommandGrammar.Integer

open Text

-- ======================================================= numbers of spans

/-- All numbers of a span, in ascending order. -/
def Span.numbers (span : Span) : List Int :=
  (List.range (span.2 + 1 - span.1).toNat).map fun (i : Nat) => span.1 + i

theorem Span.mem_numbers {span : Span} {i : Int} : i ∈ span.numbers ↔ span.Holds i := by
  unfold numbers Holds
  simp only [List.mem_map, List.mem_range]
  constructor
  · rintro ⟨place, hplace, rfl⟩
    omega
  · rintro ⟨hlow, hhigh⟩
    exact ⟨(i - span.1).toNat, by omega, by omega⟩

theorem Span.pairwise_numbers (span : Span) : span.numbers.Pairwise (· < ·) := by
  unfold numbers
  rw [List.pairwise_map]
  exact List.pairwise_lt_range.imp fun hlt => by omega

theorem Span.first_eq (limit : Nat) (span : Span) : span.first limit = span.numbers.take limit := by
  unfold first numbers
  rw [← List.map_take, List.take_range]

/-- The first numbers of several spans are the first ones of all. -/
theorem firstOf_eq {spans : List Span} :
    ∀ (limit : Nat), firstOf limit spans = (spans.flatMap Span.numbers).take limit := by
  induction spans with
  | nil => intro limit; exact List.take_nil.symm
  | cons span rest ih =>
      intro limit
      rw [firstOf, Span.first_eq, ih, List.flatMap_cons, List.take_append, List.length_take]
      congr 2
      omega

/-- One span lies before another. -/
def Span.Before (a b : Span) : Prop :=
  ∀ i j, a.Holds i → b.Holds j → i < j

theorem Span.Before.meet {a b : Span} (h : a.Before b) (range : Span) :
    (range.meet a).Before (range.meet b) := fun i j hi hj =>
  h i j (Span.holds_meet.1 hi).2 (Span.holds_meet.1 hj).2

theorem Span.Before.opposite {a b : Span} (h : a.Before b) : b.opposite.Before a.opposite :=
  fun i j hi hj => by
    have := h (-j) (-i) (Span.holds_opposite.1 hj) (Span.holds_opposite.1 hi)
    omega

/-- Spans that lie one behind the other have their numbers in ascending
order. -/
theorem pairwise_flatMap_numbers {spans : List Span} (h : spans.Pairwise Span.Before) :
    (spans.flatMap Span.numbers).Pairwise (· < ·) := by
  refine List.pairwise_flatMap.2 ⟨fun span _ => span.pairwise_numbers, h.imp fun hbefore => ?_⟩
  intro i hi j hj
  exact hbefore i j (Span.mem_numbers.1 hi) (Span.mem_numbers.1 hj)

-- ============================================================ in order

/-- With more further digits come larger numbers. -/
theorem pairwise_magnitudes {n : Nat} (hn : 0 < n) : (magnitudes n).Pairwise Span.Before := by
  unfold magnitudes
  refine List.pairwise_map.2 (List.pairwise_lt_range.imp fun {j k} hlt => ?_)
  rintro x y ⟨-, hx⟩ ⟨hy, -⟩
  have hnext : (n + 1) * 10 ^ j ≤ n * 10 ^ k :=
    calc (n + 1) * 10 ^ j
        ≤ n * 10 * 10 ^ j := Nat.mul_le_mul_right _ (by omega)
      _ = n * 10 ^ (j + 1) := by rw [Nat.pow_succ, Nat.mul_assoc, Nat.mul_comm 10]
      _ ≤ n * 10 ^ k := Nat.mul_le_mul_left _ (Nat.pow_le_pow_right (by omega) hlt)
  dsimp only at hx hy
  omega

theorem pos_of_leading? {digits : List Char} {n : Nat} (h : leading? digits = some n) : 0 < n := by
  unfold leading? at h
  dsimp only at h
  split at h
  · split at h
    case isTrue hpos =>
      injection h with h
      exact h ▸ hpos
    case isFalse => cases h
  · cases h

theorem pairwise_spans (range : Span) (typed : List Char) :
    (spans range typed).Pairwise Span.Before := by
  have hmeet : ∀ {found : List Span}, found.Pairwise Span.Before →
      (found.map range.meet).Pairwise Span.Before := fun hfound =>
    List.pairwise_map.2 (hfound.imp fun hbefore => hbefore.meet range)
  unfold spans
  split
  · exact List.pairwise_singleton ..
  · exact List.Pairwise.nil
  · split
    case h_1 n hleading =>
      refine hmeet (List.pairwise_reverse.2 (List.pairwise_map.2 ?_))
      exact (pairwise_magnitudes (pos_of_leading? hleading)).imp Span.Before.opposite
    case h_2 => exact List.Pairwise.nil
  · exact List.pairwise_singleton ..
  · exact List.pairwise_singleton ..
  · exact List.Pairwise.nil
  · split
    case h_1 n hleading => exact hmeet (pairwise_magnitudes (pos_of_leading? hleading))
    case h_2 => exact List.Pairwise.nil

-- ========================================================= none left out

/-- Only zero has a text that begins with a zero. -/
theorem eq_zero_of_leading_zero {rest : List Char} {x : Nat}
    (h : '0' :: rest <+: Nat.toDigits 10 x) : x = 0 ∧ rest = [] := by
  obtain ⟨n, -, hn⟩ := eq_toDigits_of_prefix (List.cons_ne_nil _ _) h
  have hzero : ∀ {y : Nat}, ['0'] <+: Nat.toDigits 10 y → y = 0 := by
    intro y hy
    induction y using digitsInduction with
    | digit d hd =>
        rw [Nat.toDigits_of_lt_base hd, List.cons_prefix_cons] at hy
        exact Option.some.inj ((digit?_digitChar hd).symm.trans (hy.1 ▸ rfl))
    | behind y d hpos hd ih =>
        rw [toDigits_ten_mul_add hpos hd, List.prefix_concat_iff] at hy
        rcases hy with hy | hy
        · have hlength := congrArg List.length hy
          have : Nat.toDigits 10 y ≠ [] := Nat.toDigits_ne_nil
          rw [List.length_append, List.length_singleton, List.length_singleton,
            Nat.right_eq_add, List.length_eq_zero_iff] at hlength
          exact absurd hlength this
        · exact absurd (ih hy) (by omega)
  have hfirst : ['0'] <+: '0' :: rest := ⟨rest, rfl⟩
  refine ⟨hzero (hfirst.trans h), ?_⟩
  obtain rfl := hzero (hn ▸ hfirst)
  injection hn

theorem leading?_of_no_plus {digits : List Char} (h : ∀ rest, digits = '+' :: rest → False) :
    leading? digits = match readDigits (2 ^ 63) 0 digits with
      | .ok n => if 0 < n then some n else none
      | .error _ => none := by
  unfold leading?
  split
  · next rest => exact (h rest rfl).elim
  · rfl

/-- Digits that begin the text of a number are the text of the number that
begins it, and this has at most eighteen further digits. -/
theorem exists_leading?_of_prefix {digits : List Char} (hne : digits ≠ [])
    (hzero : ∀ rest, digits = '0' :: rest → False) {x : Nat} (hx : x ≤ 2 ^ 63)
    (h : digits <+: Nat.toDigits 10 x) :
    ∃ n k, leading? digits = some n ∧ k < 19 ∧ n * 10 ^ k ≤ x ∧ x < (n + 1) * 10 ^ k := by
  obtain ⟨n, hle, rfl⟩ := eq_toDigits_of_prefix hne h
  have hpos : 0 < n := Nat.pos_of_ne_zero fun hn => hzero [] (by rw [hn]; rfl)
  obtain ⟨k, hlow, hhigh⟩ := exists_of_toDigits_prefix h
  refine ⟨n, k, ?_, ?_, hlow, hhigh⟩
  · have hplus : ∀ rest, Nat.toDigits 10 n = '+' :: rest → False := fun rest hplus =>
      absurd (isDigit_of_mem_toDigits (hplus ▸ List.mem_cons_self ..)) (by decide)
    rw [leading?_of_no_plus hplus, readDigits_toDigits (Nat.le_trans hle hx)]
    exact if_pos hpos
  · by_contra hk
    have hbig : 10 ^ 19 ≤ n * 10 ^ k :=
      calc 10 ^ 19
          ≤ 10 ^ k := Nat.pow_le_pow_right (by omega) (by omega)
        _ ≤ n * 10 ^ k := Nat.le_mul_of_pos_left _ hpos
    omega

theorem mem_magnitudes {n k : Nat} (hk : k < 19) :
    (((n * 10 ^ k : Nat), ((n + 1) * 10 ^ k : Nat) - 1) : Span) ∈ magnitudes n :=
  List.mem_map.2 ⟨k, List.mem_range.2 hk, rfl⟩

/-- A number is its magnitude behind a minus sign, or the magnitude. -/
theorem toString_cases (i : Int) :
    (∃ x : Nat, 0 < x ∧ i = -x ∧ (toString i).toList = '-' :: Nat.toDigits 10 x)
      ∨ ∃ x : Nat, i = x ∧ (toString i).toList = Nat.toDigits 10 x := by
  rcases Int.lt_or_le i 0 with hsign | hsign
  · obtain ⟨x, hx⟩ := Int.eq_ofNat_of_zero_le (a := -i) (by omega)
    obtain rfl : i = -(x : Int) := by omega
    exact Or.inl ⟨x, by omega, rfl, toList_toString_neg (by omega)⟩
  · obtain ⟨x, rfl⟩ := Int.eq_ofNat_of_zero_le hsign
    exact Or.inr ⟨x, rfl, toList_toString_ofNat x⟩

/-- A text that begins with a minus sign is that of a negative number. -/
theorem exists_of_minus_prefix {digits : List Char} {i : Int}
    (h : '-' :: digits <+: (toString i).toList) :
    ∃ x : Nat, 0 < x ∧ i = -x ∧ digits <+: Nat.toDigits 10 x := by
  rcases toString_cases i with ⟨x, hpos, hi, htext⟩ | ⟨x, -, htext⟩
  · rw [htext, List.cons_prefix_cons] at h
    exact ⟨x, hpos, hi, h.2⟩
  · rw [htext] at h
    exact absurd (isDigit_of_mem_toDigits (h.subset (List.mem_cons_self ..))) (by decide)

/-- A text that begins with anything else is that of another number. -/
theorem exists_of_digit_prefix {typed : List Char} (hne : typed ≠ [])
    (hminus : ∀ digits, typed = '-' :: digits → False) {i : Int}
    (h : typed <+: (toString i).toList) : ∃ x : Nat, i = x ∧ typed <+: Nat.toDigits 10 x := by
  rcases toString_cases i with ⟨x, -, -, htext⟩ | ⟨x, hi, htext⟩
  · rw [htext] at h
    cases typed with
    | nil => exact absurd rfl hne
    | cons c digits => exact (hminus digits (by rw [(List.cons_prefix_cons.1 h).1])).elim
  · exact ⟨x, hi, htext ▸ h⟩

/-- A number of a range whose text begins with what was typed is in one of
the spans. -/
theorem exists_mem_spans {range : Span} {typed : List Char} {i : Int} (hrange : range.Holds i)
    (hlow : -2 ^ 63 ≤ i) (hhigh : i < 2 ^ 63) (h : typed <+: (toString i).toList) :
    ∃ span ∈ spans range typed, span.Holds i := by
  unfold spans
  split
  · -- a minus sign alone
    obtain ⟨x, hpos, rfl, -⟩ := exists_of_minus_prefix h
    refine ⟨_, List.mem_singleton_self _, Span.holds_meet.2 ⟨hrange, hrange.1, ?_⟩⟩
    dsimp only
    omega
  · obtain ⟨x, hpos, -, hprefix⟩ := exists_of_minus_prefix h
    exact absurd (eq_zero_of_leading_zero hprefix).1 (by omega)
  · -- digits behind a minus sign
    next digits hnone hzero =>
    obtain ⟨x, -, rfl, hprefix⟩ := exists_of_minus_prefix h
    obtain ⟨n, k, hleading, hk, hle, hlt⟩ := exists_leading?_of_prefix
      (fun hnil => hnone (by rw [hnil])) (fun rest hrest => hzero rest (by rw [hrest]))
      (by omega) hprefix
    rw [hleading]
    refine ⟨_, List.mem_map_of_mem (List.mem_reverse.2 (List.mem_map_of_mem (mem_magnitudes hk))),
      Span.holds_meet.2 ⟨hrange, Span.holds_opposite.2 ?_⟩⟩
    rw [Int.neg_neg]
    exact ⟨by dsimp only; omega, by dsimp only; omega⟩
  · exact ⟨_, List.mem_singleton_self _, hrange⟩
  · -- a zero alone
    obtain ⟨x, rfl, hprefix⟩ := exists_of_digit_prefix (List.cons_ne_nil '0' []) nofun h
    obtain ⟨rfl, -⟩ := eq_zero_of_leading_zero hprefix
    exact ⟨_, List.mem_singleton_self _, Span.holds_meet.2 ⟨hrange, Int.le_refl _, Int.le_refl _⟩⟩
  · -- no number but zero begins with a zero, and its text ends there
    next rest hrest =>
    obtain ⟨x, -, hprefix⟩ := exists_of_digit_prefix (List.cons_ne_nil '0' rest) nofun h
    exact (hrest (by rw [(eq_zero_of_leading_zero hprefix).2])).elim
  · -- digits without a sign
    next hminus hempty hnotZero hzero =>
    obtain ⟨x, rfl, hprefix⟩ := exists_of_digit_prefix hempty hminus h
    obtain ⟨n, k, hleading, hk, hle, hlt⟩ := exists_leading?_of_prefix hempty hzero
      (by omega) hprefix
    rw [hleading]
    refine ⟨_, List.mem_map_of_mem (mem_magnitudes hk), Span.holds_meet.2 ⟨hrange, ?_⟩⟩
    exact ⟨by dsimp only; omega, by dsimp only; omega⟩

-- ===================================================== none but these

/-- All numbers between two bounds that begin with what was typed, in
ascending order. Each one is looked at on its own. -/
def scan (min max : Int64) (typed : String) : List Int64 :=
  ((Span.numbers (min.toInt, max.toInt)).map Int64.ofInt).filter fun n =>
    begins (toString n.toInt) typed

theorem toInt_ofInt_of_mem_numbers {min max : Int64} {i : Int}
    (h : i ∈ Span.numbers (min.toInt, max.toInt)) : (Int64.ofInt i).toInt = i := by
  obtain ⟨hlow, hhigh⟩ := Span.mem_numbers.1 h
  exact Int64.toInt_ofInt_of_le (Int.le_trans min.minValue_le_toInt hlow)
    (Int.lt_of_le_of_lt hhigh max.toInt_lt)

theorem mem_scan {min max n : Int64} {typed : String} :
    n ∈ scan min max typed ↔ min ≤ n ∧ n ≤ max ∧ begins (toString n.toInt) typed = true := by
  unfold scan
  rw [List.mem_filter, ← and_assoc, Int64.le_iff_toInt_le, Int64.le_iff_toInt_le, List.mem_map]
  refine and_congr_left' ⟨?_, fun hn => ⟨n.toInt, Span.mem_numbers.2 hn, Int64.ofInt_toInt n⟩⟩
  rintro ⟨i, hi, rfl⟩
  rw [toInt_ofInt_of_mem_numbers hi]
  exact Span.mem_numbers.1 hi

theorem pairwise_scan (min max : Int64) (typed : String) :
    (scan min max typed).Pairwise (· < ·) := by
  refine List.Pairwise.filter _ (List.pairwise_map.2 ?_)
  refine (Span.pairwise_numbers _).imp_of_mem fun hi hj hlt => ?_
  rw [Int64.lt_iff_toInt_lt, toInt_ofInt_of_mem_numbers hi, toInt_ofInt_of_mem_numbers hj]
  exact hlt

/-- The spans have the numbers of the range that begin with what was
typed, and in the same order. -/
theorem flatMap_numbers_spans {min max : Int64} {typed : String} (htyped : canBegin typed = true) :
    (spans (min.toInt, max.toInt) typed.toList).flatMap Span.numbers
      = (Span.numbers (min.toInt, max.toInt)).filter fun i => begins (toString i) typed := by
  refine List.Pairwise.eq_of_mem_iff (pairwise_flatMap_numbers (pairwise_spans ..))
    ((Span.pairwise_numbers _).filter _) fun i => ?_
  rw [List.mem_filter, List.mem_flatMap, Span.mem_numbers]
  constructor
  · rintro ⟨span, hspan, hi⟩
    obtain ⟨hrange, hprefix⟩ := prefix_of_mem_spans htyped hspan (Span.mem_numbers.1 hi)
    exact ⟨hrange, List.isPrefixOf_iff_prefix.2 hprefix⟩
  · rintro ⟨hrange, hbegins⟩
    obtain ⟨span, hspan, hi⟩ := exists_mem_spans hrange
      (Int.le_trans min.minValue_le_toInt hrange.1) (Int.lt_of_le_of_lt hrange.2 max.toInt_lt)
      (List.isPrefixOf_iff_prefix.1 hbegins)
    exact ⟨span, hspan, Span.mem_numbers.2 hi⟩

/-- The listed numbers are the first ones that looking at each would find. -/
theorem listed_eq_take_scan {min max : Int64} {typed : String} (htyped : canBegin typed = true)
    (limit : Nat) : listed min max typed limit = (scan min max typed).take limit := by
  unfold listed scan
  rw [firstOf_eq, flatMap_numbers_spans htyped, List.map_take, List.filter_map]
  congr 2
  refine List.filter_congr fun i hi => ?_
  rw [Function.comp_apply, toInt_ofInt_of_mem_numbers hi]

end CommandGrammar.Integer
