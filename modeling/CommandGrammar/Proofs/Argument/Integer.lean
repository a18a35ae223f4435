/-
The whole numbers that are proposed for what was typed. Digits without a
leading zero are the text of the number they write (`toDigits_of_readDigits`),
and the texts that begin with the text of `n` are those of the numbers
from `n · 10 ^ k` to `(n + 1) · 10 ^ k - 1` (`toDigits_prefix`). So every
number in the spans of a typed text begins with that text
(`prefix_of_mem_spans`), and so does every number that is listed.
-/
import CommandGrammar.Argument.Integer
import Mathlib.Data.Nat.Notation
import Mathlib.Tactic.IntervalCases

namespace CommandGrammar.Integer

open Text

-- ============================================================ digit texts

/-- A digit is written by its value. -/
theorem digitChar_of_digit? {c : Char} {d : Nat} (h : digit? c = some d) :
    d.digitChar = c ∧ d < 10 := by
  unfold digit? at h
  split at h
  case isFalse => cases h
  case isTrue hc =>
    injection h with h
    simp only [Char.isDigit, Bool.and_eq_true, decide_eq_true_eq, ge_iff_le,
      UInt32.le_iff_toNat_le] at hc
    have hlow : 48 ≤ c.toNat := hc.1
    have hhigh : c.toNat ≤ 57 := hc.2
    have hcode : c = Char.ofNat (48 + d) := by
      rw [← h, show 48 + (c.toNat - '0'.toNat) = c.toNat from Nat.add_sub_cancel' hlow,
        Char.ofNat_toNat]
    have hd : d < 10 := by
      rw [← h]
      show c.toNat - 48 < 10
      omega
    refine ⟨?_, hd⟩
    rw [hcode]
    interval_cases d <;> rfl

theorem toDigits_append_digit {n d : Nat} {c : Char} (hn : 0 < n) (h : digit? c = some d) :
    Nat.toDigits 10 (10 * n + d) = Nat.toDigits 10 n ++ [c] := by
  obtain ⟨hchar, hd⟩ := digitChar_of_digit? h
  rw [← Nat.toDigits_append_toDigits (by omega) hn hd, Nat.toDigits_of_lt_base hd, hchar]

/-- Reading digits behind a number appends them to the number's text. -/
theorem toDigits_of_readDigits_pos {limit : Nat} {digits : List Char} :
    ∀ {m n : Nat}, 0 < m → readDigits limit m digits = .ok n →
      Nat.toDigits 10 n = Nat.toDigits 10 m ++ digits := by
  induction digits with
  | nil =>
      intro m n _ h
      injection h with h
      rw [h, List.append_nil]
  | cons c rest ih =>
      intro m n hm h
      rw [readDigits] at h
      cases hc : digit? c with
      | none => rw [hc] at h; cases h
      | some d =>
          rw [hc] at h
          dsimp only at h
          split at h
          case isFalse => cases h
          case isTrue =>
            rw [ih (by omega) h, toDigits_append_digit hm hc, List.append_assoc]
            rfl

/-- Digits without a leading zero are the text of the number they write. -/
theorem toDigits_of_readDigits {limit n : Nat} {c : Char} {rest : List Char} (hc : c ≠ '0')
    (h : readDigits limit 0 (c :: rest) = .ok n) : Nat.toDigits 10 n = c :: rest := by
  rw [readDigits] at h
  cases hdigit : digit? c with
  | none => rw [hdigit] at h; cases h
  | some d =>
      obtain ⟨hchar, hd⟩ := digitChar_of_digit? hdigit
      have hpos : 0 < d := by
        rcases Nat.eq_zero_or_pos d with rfl | hpos
        · exact absurd hchar.symm hc
        · exact hpos
      rw [hdigit] at h
      dsimp only at h
      split at h
      case isFalse => cases h
      case isTrue =>
        rw [Nat.mul_zero, Nat.zero_add] at h
        rw [toDigits_of_readDigits_pos hpos h, Nat.toDigits_of_lt_base hd, hchar,
          List.singleton_append]

/-- The numbers from `n · 10 ^ k` on, up to `(n + 1) · 10 ^ k`, begin
with the text of `n`. -/
theorem toDigits_prefix {n : Nat} (hn : 0 < n) :
    ∀ {k x : Nat}, n * 10 ^ k ≤ x → x < (n + 1) * 10 ^ k →
      Nat.toDigits 10 n <+: Nat.toDigits 10 x := by
  intro k
  induction k with
  | zero =>
      intro x hlow hhigh
      obtain rfl : x = n := by omega
      exact List.prefix_rfl
  | succ k ih =>
      intro x hlow hhigh
      have hbase : 10 ≤ x := by
        have : 1 ≤ n * 10 ^ k := Nat.mul_pos hn (Nat.pow_pos (by omega))
        rw [Nat.pow_succ, ← Nat.mul_assoc] at hlow
        omega
      rw [Nat.toDigits_of_base_le (by omega) hbase]
      refine (ih ?_ ?_).trans (List.prefix_append _ _)
      · rw [Nat.le_div_iff_mul_le (by omega), Nat.mul_assoc, ← Nat.pow_succ]
        exact hlow
      · rw [Nat.div_lt_iff_lt_mul (by omega), Nat.mul_assoc, ← Nat.pow_succ]
        exact hhigh

-- ================================================================= spans

theorem toList_toString_ofNat (n : Nat) : (toString (n : Int)).toList = Nat.toDigits 10 n :=
  Nat.toList_repr

theorem toList_toString_neg {n : Nat} (hn : 0 < n) :
    (toString (-n : Int)).toList = '-' :: Nat.toDigits 10 n := by
  obtain ⟨k, rfl⟩ := Nat.exists_eq_add_of_lt hn
  rw [Nat.zero_add]
  show ("-" ++ Nat.repr (k + 1)).toList = _
  rw [String.toList_append, Nat.toList_repr]
  rfl

/-- A number lies between the ends of a span, which belong to it. -/
def Span.Holds (span : Span) (i : Int) : Prop :=
  span.1 ≤ i ∧ i ≤ span.2

theorem Span.holds_meet {a b : Span} {i : Int} :
    (a.meet b).Holds i ↔ a.Holds i ∧ b.Holds i := by
  unfold Span.Holds Span.meet
  dsimp only
  omega

theorem Span.holds_opposite {span : Span} {i : Int} :
    span.opposite.Holds i ↔ span.Holds (-i) := by
  unfold Span.Holds Span.opposite
  dsimp only
  omega

/-- The first numbers of spans lie in one of them. -/
theorem holds_of_mem_firstOf {i : Int} {spans : List Span} :
    ∀ {limit : Nat}, i ∈ firstOf limit spans → ∃ span ∈ spans, span.Holds i := by
  induction spans with
  | nil => intro limit h; cases h
  | cons span rest ih =>
      intro limit h
      rcases List.mem_append.1 h with h | h
      · refine ⟨span, List.mem_cons_self .., ?_⟩
        obtain ⟨place, hplace, rfl⟩ := List.mem_map.1 h
        rw [List.mem_range] at hplace
        unfold Span.Holds
        omega
      · obtain ⟨other, hother, hholds⟩ := ih h
        exact ⟨other, List.mem_cons_of_mem _ hother, hholds⟩

/-- The numbers of the magnitudes of `n` begin with the text of `n`. -/
theorem prefix_of_holds_magnitudes {n : Nat} (hn : 0 < n) {span : Span}
    (hspan : span ∈ magnitudes n) {i : Int} (hi : span.Holds i) :
    ∃ x : Nat, i = x ∧ 0 < x ∧ Nat.toDigits 10 n <+: Nat.toDigits 10 x := by
  obtain ⟨k, -, rfl⟩ := List.mem_map.1 hspan
  obtain ⟨hlow, hhigh⟩ := hi
  dsimp only at hlow hhigh
  have hpos : 0 < n * 10 ^ k := Nat.mul_pos hn (Nat.pow_pos (by omega))
  obtain ⟨x, rfl⟩ := Int.eq_ofNat_of_zero_le (a := i) (by omega)
  refine ⟨x, rfl, by omega, toDigits_prefix (k := k) hn (by omega) (by omega)⟩

/-- Digits that begin numbers of a range, the sign aside, are the text of
the number that begins them. -/
theorem toDigits_of_leading? {digits : List Char} {n : Nat} (hdigits : digits.all Char.isDigit)
    (hzero : ∀ rest, digits = '0' :: rest → False) (h : leading? digits = some n) :
    0 < n ∧ Nat.toDigits 10 n = digits := by
  cases digits with
  | nil => cases h
  | cons c rest =>
      have hc : c ≠ '0' := fun hc => hzero rest (by rw [hc])
      have hplus : c ≠ '+' := by
        rintro rfl
        rw [List.all_cons] at hdigits
        cases hdigits
      have hread : ∃ limit k, readDigits limit 0 (c :: rest) = .ok k ∧ 0 < k ∧ k = n := by
        unfold leading? at h
        split at h
        · next hsigned =>
          injection hsigned with hsign
          exact absurd hsign hplus
        · dsimp only at h
          split at h
          · next k hk =>
            split at h
            case isFalse => cases h
            case isTrue hpos =>
              injection h with h
              exact ⟨_, k, hk, hpos, h⟩
          · cases h
      obtain ⟨limit, k, hk, hpos, rfl⟩ := hread
      exact ⟨hpos, toDigits_of_readDigits hc hk⟩

/-- Every number in the spans of a typed text lies in the range, and its
text begins with what was typed. -/
theorem prefix_of_mem_spans {range span : Span} {typed : String} {i : Int}
    (htyped : canBegin typed = true) (hspan : span ∈ spans range typed.toList)
    (hi : span.Holds i) : range.Holds i ∧ typed.toList <+: (toString i).toList := by
  unfold canBegin at htyped
  generalize typed.toList = chars at htyped hspan
  unfold spans at hspan
  split at hspan
  · -- a minus sign alone
    rw [List.mem_singleton.1 hspan, Span.holds_meet] at hi
    obtain ⟨hrange, -, hneg⟩ := hi
    obtain ⟨x, hx⟩ := Int.eq_ofNat_of_zero_le (a := -i) (by omega)
    obtain rfl : i = -(x : Int) := by omega
    rw [toList_toString_neg (by omega)]
    exact ⟨hrange, List.prefix_cons_inj _ |>.2 List.nil_prefix⟩
  · cases hspan
  · -- digits behind a minus sign
    next digits hnone hzero =>
    split at hspan
    case h_2 => cases hspan
    case h_1 n hleading =>
      obtain ⟨hn, htext⟩ := toDigits_of_leading? htyped
        (fun rest hrest => hzero rest (by rw [hrest])) hleading
      obtain ⟨other, hother, rfl⟩ := List.mem_map.1 hspan
      obtain ⟨magnitude, hmagnitude, rfl⟩ := List.mem_map.1 (List.mem_reverse.1 hother)
      obtain ⟨hrange, hi⟩ := Span.holds_meet.1 hi
      obtain ⟨x, hx, hpos, hprefix⟩ :=
        prefix_of_holds_magnitudes hn hmagnitude (Span.holds_opposite.1 hi)
      obtain rfl : i = -(x : Int) := by omega
      rw [toList_toString_neg hpos, ← htext]
      exact ⟨hrange, (List.prefix_cons_inj _).2 hprefix⟩
  · rw [List.mem_singleton.1 hspan] at hi
    exact ⟨hi, List.nil_prefix⟩
  · -- a zero alone
    rw [List.mem_singleton.1 hspan, Span.holds_meet] at hi
    obtain ⟨hrange, hlow, hhigh⟩ := hi
    obtain rfl : i = 0 := by
      dsimp only at hlow hhigh
      omega
    exact ⟨hrange, List.prefix_rfl⟩
  · cases hspan
  · -- digits without a sign
    next hminus hempty hnotZero hzero =>
    split at hspan
    case h_2 => cases hspan
    case h_1 n hleading =>
      have hdigits : chars.all Char.isDigit = true := by
        cases chars with
        | nil => rfl
        | cons c rest =>
            split at htyped
            · next hsigned => exact (hminus _ hsigned).elim
            · exact htyped
      obtain ⟨hn, htext⟩ := toDigits_of_leading? hdigits hzero hleading
      obtain ⟨magnitude, hmagnitude, rfl⟩ := List.mem_map.1 hspan
      obtain ⟨hrange, hi⟩ := Span.holds_meet.1 hi
      obtain ⟨x, rfl, -, hprefix⟩ := prefix_of_holds_magnitudes hn hmagnitude hi
      rw [toList_toString_ofNat, ← htext]
      exact ⟨hrange, hprefix⟩

/-- Every number that is listed has a text that begins with what was
typed. -/
theorem begins_of_mem_listed {min max n : Int64} {typed : String} {limit : Nat}
    (htyped : canBegin typed = true) (h : n ∈ listed min max typed limit) :
    begins (toString n.toInt) typed = true := by
  obtain ⟨i, hi, rfl⟩ := List.mem_map.1 h
  obtain ⟨span, hspan, hholds⟩ := holds_of_mem_firstOf hi
  obtain ⟨⟨hlow, hhigh⟩, hprefix⟩ := prefix_of_mem_spans htyped hspan hholds
  -- the number lies between two of 64 bits, so it is one itself
  have hi : (Int64.ofInt i).toInt = i :=
    Int64.toInt_ofInt_of_le (Int.le_trans min.minValue_le_toInt hlow)
      (Int.lt_of_le_of_lt hhigh max.toInt_lt)
  rw [hi, begins]
  exact List.isPrefixOf_iff_prefix.2 hprefix

end CommandGrammar.Integer
