/-
Words for whole numbers. A word writes a number if it is an optional sign
with one or more ASCII digits behind it (`Writes`); what an argument answers
depends on nothing else of the word but that number. It is refused beyond
the 64 bits on either side, then below the lower bound, then above the upper
one, and bound otherwise; a word that writes no number is never bound
(`readWord_answers`).

Reading stops at the first digit that leaves the limit and does not look at
those behind it. More digits never make a number smaller, though, so the
number of all of them lies beyond the limit then as well. The induction is
on the digits, with what was read so far within the limit
(`readDigits_of_isDigit`).
-/
import CommandGrammar.Proofs.Argument.Digits
import CommandGrammar.Proofs.Argument.Typing
import CommandGrammar.Proofs.Text

namespace CommandGrammar

open Text

variable {α : Type}

namespace Integer

-- ============================================================ the numerals

/-- The number that a text writes: digits, and a sign before them if there
is one. -/
inductive Writes : List Char → Int → Prop where
  /-- Without a sign. -/
  | unsigned {digits : List Char} (h : Stretch Char.isDigit digits) :
      Writes digits (digitsValue digits)
  /-- With a plus sign. -/
  | plus {digits : List Char} (h : Stretch Char.isDigit digits) :
      Writes ('+' :: digits) (digitsValue digits)
  /-- With a minus sign. -/
  | minus {digits : List Char} (h : Stretch Char.isDigit digits) :
      Writes ('-' :: digits) (-(digitsValue digits : Int))

theorem splitSign_of_stretch {digits : List Char} (h : Stretch Char.isDigit digits) :
    splitSign digits = (false, digits) := by
  unfold splitSign
  split
  · exact absurd (h.all '-' (List.mem_cons_self ..)) (by decide)
  · exact absurd (h.all '+' (List.mem_cons_self ..)) (by decide)
  · rfl

/-- What a text writes is told by its sign and what stands behind. -/
theorem writes_iff {text : List Char} {i : Int} :
    Writes text i ↔ Stretch Char.isDigit (splitSign text).2
      ∧ i = if (splitSign text).1 then -(digitsValue (splitSign text).2 : Int)
          else digitsValue (splitSign text).2 := by
  constructor
  · intro h
    cases h with
    | unsigned h =>
        rw [splitSign_of_stretch h]
        exact ⟨h, rfl⟩
    | plus h => exact ⟨h, rfl⟩
    | minus h => exact ⟨h, rfl⟩
  · rintro ⟨h, rfl⟩
    unfold splitSign at h ⊢
    split at h
    · exact .minus h
    · exact .plus h
    · exact .unsigned h

theorem Writes.unique {text : List Char} {i j : Int} (hi : Writes text i) (hj : Writes text j) :
    i = j :=
  (writes_iff.1 hi).2.trans (writes_iff.1 hj).2.symm

-- =============================================================== reading

/-- The number that digits write behind a number. -/
def digitsBehind (n : Nat) (digits : List Char) : Nat :=
  digits.foldl (fun n c => 10 * n + (c.toNat - '0'.toNat)) n

theorem digitsBehind_cons {c : Char} {d : Nat} (h : digit? c = some d) (n : Nat)
    (digits : List Char) : digitsBehind n (c :: digits) = digitsBehind (10 * n + d) digits := by
  unfold digit? at h
  split at h
  · injection h with h
    rw [← h]
    rfl
  · cases h

theorem le_digitsBehind (n : Nat) (digits : List Char) : n ≤ digitsBehind n digits := by
  induction digits generalizing n with
  | nil => exact Nat.le_refl n
  | cons c rest ih =>
      have hstep : n ≤ 10 * n + (c.toNat - '0'.toNat) := by omega
      exact Nat.le_trans hstep (ih _)

/-- Digits are read as the number that they write behind what was read so
far, unless that lies beyond the limit. -/
theorem readDigits_of_isDigit {limit : Nat} {digits : List Char}
    (h : ∀ c ∈ digits, c.isDigit = true) :
    ∀ {n : Nat}, n ≤ limit →
      readDigits limit n digits =
        if digitsBehind n digits ≤ limit then .ok (digitsBehind n digits)
        else .error .beyond := by
  induction digits with
  | nil =>
      intro n hn
      exact (if_pos hn).symm
  | cons c rest ih =>
      intro n hn
      obtain ⟨hc, hrest⟩ := List.forall_mem_cons.1 h
      have hd : digit? c = some (c.toNat - '0'.toNat) := if_pos hc
      rw [readDigits, hd, digitsBehind_cons hd]
      dsimp only
      by_cases hle : 10 * n + (c.toNat - '0'.toNat) ≤ limit
      · rw [if_pos hle, ih hrest hle]
      · -- given up here, and what the digits write is not smaller
        have hmore := le_digitsBehind (10 * n + (c.toNat - '0'.toNat)) rest
        rw [if_neg hle, if_neg (by omega)]

theorem readDigits_eq_ok_iff {limit n : Nat} {digits : List Char} :
    readDigits limit 0 digits = .ok n
      ↔ (∀ c ∈ digits, c.isDigit = true) ∧ digitsValue digits = n ∧ n ≤ limit := by
  constructor
  · intro h
    have hdigits := List.all_eq_true.1 (all_isDigit_of_readDigits h)
    rw [readDigits_of_isDigit hdigits (Nat.zero_le limit)] at h
    split at h
    · next hle =>
        injection h with h
        exact ⟨hdigits, h, h ▸ hle⟩
    · cases h
  · rintro ⟨hdigits, rfl, hle⟩
    exact (readDigits_of_isDigit hdigits (Nat.zero_le limit)).trans (if_pos hle)

/-- The text of a number writes it. -/
theorem writes_toDigits (n : Nat) : Writes (Nat.toDigits 10 n) n := by
  have h : Stretch Char.isDigit (Nat.toDigits 10 n) :=
    ⟨Nat.toDigits_ne_nil, fun _ => isDigit_of_mem_toDigits⟩
  obtain ⟨-, hvalue, -⟩ := readDigits_eq_ok_iff.1 (readDigits_toDigits (Nat.le_refl n))
  have hwrites := Writes.unsigned h
  rwa [hvalue] at hwrites

/-- A number of 64 bits is read as it is written; any other one is refused
for its size. -/
theorem read_of_writes {word : String} {i : Int} (h : Writes word.toList i) :
    read word =
      if Int64.maxValue.toInt < i then .error (.numberTooBig (toString Int64.maxValue.toInt))
      else if i < Int64.minValue.toInt then
        .error (.numberTooSmall (toString Int64.minValue.toInt))
      else .ok (Int64.ofInt i) := by
  have hmax : Int64.maxValue.toInt = 2 ^ 63 - 1 := by decide
  have hmin : Int64.minValue.toInt = -2 ^ 63 := by decide
  obtain ⟨hdigits, hi⟩ := writes_iff.1 h
  unfold read
  generalize splitSign word.toList = parts at hdigits hi ⊢
  obtain ⟨negative, digits⟩ := parts
  dsimp only at hdigits hi ⊢
  have hread : ∀ limit, readDigits limit 0 digits =
      if digitsValue digits ≤ limit then .ok (digitsValue digits) else .error .beyond :=
    fun limit => readDigits_of_isDigit hdigits.all (Nat.zero_le limit)
  rw [List.isEmpty_eq_false_iff.2 hdigits.nonempty, if_neg Bool.false_ne_true]
  cases negative with
  | true =>
      simp only [if_true] at hi ⊢
      have hhigh : ¬Int64.maxValue.toInt < i := by omega
      rw [hread, if_neg hhigh]
      by_cases hle : digitsValue digits ≤ 2 ^ 63
      · rw [if_pos hle, if_neg (by omega), hi]
      · rw [if_neg hle, if_pos (by omega)]
  | false =>
      simp only [Bool.false_eq_true, if_false] at hi ⊢
      rw [hread]
      by_cases hle : digitsValue digits ≤ 2 ^ 63 - 1
      · rw [if_pos hle, if_neg (by omega), if_neg (by omega), hi]
      · rw [if_neg hle, if_pos (by omega)]

/-- What is read is written. -/
theorem writes_of_read {word : String} {n : Int64} (h : read word = .ok n) :
    Writes word.toList n.toInt := by
  have hdigits : Stretch Char.isDigit (splitSign word.toList).2 := by
    refine ⟨fun hempty => ?_, List.all_eq_true.1 (all_isDigit_of_read h)⟩
    unfold read at h
    dsimp only at h
    rw [hempty] at h
    cases h
  obtain ⟨i, hwrites⟩ : ∃ i, Writes word.toList i := ⟨_, writes_iff.2 ⟨hdigits, rfl⟩⟩
  have hmax : Int64.maxValue.toInt = 2 ^ 63 - 1 := by decide
  have hmin : Int64.minValue.toInt = -2 ^ 63 := by decide
  rw [read_of_writes hwrites] at h
  split at h
  · cases h
  · split at h
    · cases h
    · injection h with h
      rw [← h, Int64.toInt_ofInt_of_le (by omega) (by omega)]
      exact hwrites

end Integer

-- =============================================================== bounds

namespace Number.Bounded

variable {N : Type} [LT N]

/-- A number keeps to the bounds that there are. -/
structure Admits (bounded : Bounded N) (n : N) : Prop where
  /-- It is not below the lower one. -/
  min : ∀ min, bounded.min = some min → ¬n < min
  /-- It is not above the upper one. -/
  max : ∀ max, bounded.max = some max → ¬max < n

variable [DecidableLT N] [Number N] {bounded : Bounded N} {n : N}

theorem check_of_lt {min : N} (hmin : bounded.min = some min) (h : n < min) :
    bounded.check n = .error (.numberTooSmall (text min)) := by
  unfold check
  rw [hmin]
  exact if_pos h

/-- The upper bound is looked at behind the lower one. -/
theorem check_of_not_lt (hmin : ∀ min, bounded.min = some min → ¬n < min) :
    bounded.check n = check ⟨none, bounded.max, bounded.hint⟩ n := by
  unfold check
  cases h : bounded.min with
  | none => rfl
  | some min => exact if_neg (hmin min h)

theorem check_of_gt (hmin : ∀ min, bounded.min = some min → ¬n < min) {max : N}
    (hmax : bounded.max = some max) (h : max < n) :
    bounded.check n = .error (.numberTooBig (text max)) := by
  rw [check_of_not_lt hmin]
  unfold check
  rw [hmax]
  exact if_pos h

theorem check_of_admits (h : bounded.Admits n) : bounded.check n = .ok n := by
  rw [check_of_not_lt h.min]
  unfold check
  cases hmax : bounded.max with
  | none => rfl
  | some max => exact if_neg (h.max max hmax)

/-- Within the bounds is what passes. -/
theorem admits_of_check {m : N} (h : bounded.check n = .ok m) : bounded.Admits n ∧ m = n := by
  have hmin : ∀ min, bounded.min = some min → ¬n < min := fun min hmin hlt => by
    rw [check_of_lt hmin hlt] at h
    cases h
  have hmax : ∀ max, bounded.max = some max → ¬max < n := fun max hmax hgt => by
    rw [check_of_gt hmin hmax hgt] at h
    cases h
  rw [check_of_admits ⟨hmin, hmax⟩] at h
  injection h with h
  exact ⟨⟨hmin, hmax⟩, h.symm⟩

/-- A word is read, and what is read is checked. -/
theorem readWord_of_read {word : String} (h : Number.read word = .ok n) :
    (bounded.readWord word : Except Refusal (Value α)) = (bounded.check n).map toValue := by
  unfold readWord
  rw [h]
  show (bounded.check n >>= fun n => pure (toValue n)) = _
  cases bounded.check n <;> rfl

theorem readWord_of_error {word : String} {refusal : Refusal}
    (h : (Number.read word : Except Refusal N) = .error refusal) :
    (bounded.readWord word : Except Refusal (Value α)) = .error refusal := by
  unfold readWord
  rw [h]
  rfl

theorem exists_of_readWord {word : String} {value : Value α}
    (h : bounded.readWord word = .ok value) :
    ∃ n, Number.read word = .ok n ∧ bounded.Admits n ∧ value = toValue n := by
  obtain ⟨n, hread, -⟩ := eq_ok_of_bind_eq_ok h
  rw [readWord_of_read hread] at h
  obtain ⟨m, hcheck, rfl⟩ := eq_ok_of_map_eq_ok h
  obtain ⟨hadmits, rfl⟩ := admits_of_check hcheck
  exact ⟨m, hread, hadmits, rfl⟩

end Number.Bounded

-- ============================================================ the answers

namespace Integer

open Number.Bounded

/-- A word is bound exactly if it writes a number of 64 bits within the
bounds, as that number. If it writes any other number, it is refused for
the 64 bits first, for the lower bound next, and for the upper bound last.
The text of each number within the bounds is bound as the number. -/
theorem readWord_answers (bounded : Number.Bounded Int64) (word : String) :
    (∀ value : Value α, bounded.readWord word = .ok value
        ↔ ∃ n : Int64, Writes word.toList n.toInt ∧ bounded.Admits n ∧ value = .int n)
      ∧ (∀ i, Writes word.toList i →
          (Int64.maxValue.toInt < i → bounded.readWord (α := α) word
            = .error (.numberTooBig (toString Int64.maxValue.toInt)))
          ∧ (i < Int64.minValue.toInt → bounded.readWord (α := α) word
            = .error (.numberTooSmall (toString Int64.minValue.toInt)))
          ∧ ∀ n : Int64, n.toInt = i →
              (∀ min, bounded.min = some min → n < min → bounded.readWord (α := α) word
                = .error (.numberTooSmall (toString min.toInt)))
              ∧ ∀ max, bounded.max = some max → max < n →
                  (∀ min, bounded.min = some min → ¬n < min) →
                  bounded.readWord (α := α) word = .error (.numberTooBig (toString max.toInt)))
      ∧ ∀ n : Int64, bounded.Admits n →
          bounded.readWord (α := α) (toString n.toInt) = .ok (.int n) := by
  have hwithin : ∀ {n : Int64}, Writes word.toList n.toInt → read word = .ok n := by
    intro n hn
    have hlow : ¬n.toInt < Int64.minValue.toInt := Int.not_lt.2 n.minValue_le_toInt
    have hhigh : ¬Int64.maxValue.toInt < n.toInt := Int.not_lt.2 n.toInt_le
    rw [read_of_writes hn, if_neg hhigh, if_neg hlow, Int64.ofInt_toInt]
  refine ⟨fun value => ⟨fun h => ?_, ?_⟩, fun i hi => ⟨fun hlt => ?_, fun hlt => ?_, ?_⟩, ?_⟩
  · obtain ⟨n, hread, hadmits, rfl⟩ := exists_of_readWord h
    exact ⟨n, writes_of_read hread, hadmits, rfl⟩
  · rintro ⟨n, hn, hadmits, rfl⟩
    rw [readWord_of_read (hwithin hn), check_of_admits hadmits]
    rfl
  · exact readWord_of_error ((read_of_writes hi).trans (if_pos hlt))
  · have hmin : Int64.minValue.toInt ≤ Int64.maxValue.toInt := by decide
    have hhigh : ¬Int64.maxValue.toInt < i := by omega
    exact readWord_of_error ((read_of_writes hi).trans ((if_neg hhigh).trans (if_pos hlt)))
  · rintro n rfl
    refine ⟨fun min hmin hlt => ?_, fun max hmax hgt hmin => ?_⟩
    · rw [readWord_of_read (hwithin hi), check_of_lt hmin hlt]
      rfl
    · rw [readWord_of_read (hwithin hi), check_of_gt hmin hmax hgt]
      rfl
  · intro n hadmits
    rw [readWord_of_read (read_toString n), check_of_admits hadmits]
    rfl

/-- A number from five to twelve. -/
def handful : Number.Bounded Int64 :=
  ⟨some 5, some 12, .ofNode ⟨"@int", ∅⟩⟩

/-- Signs and leading zeros are taken, the bounds refuse what is just beside
them, and so does the end of the 64 bits. -/
theorem handful_readWord_answers :
    handful.readWord (α := Unit) "+007" = .ok (.int 7)
      ∧ handful.readWord (α := Unit) "-0" = .error (.numberTooSmall "5")
      ∧ handful.readWord (α := Unit) "13" = .error (.numberTooBig "12")
      ∧ handful.readWord (α := Unit) "9223372036854775808"
        = .error (.numberTooBig "9223372036854775807")
      ∧ handful.readWord (α := Unit) "-00009223372036854775809"
        = .error (.numberTooSmall "-9223372036854775808")
      ∧ handful.readWord (α := Unit) "12" = .ok (.int 12) := by
  have digits : ∀ text : List Char, text ≠ [] → text.all Char.isDigit = true →
      Stretch Char.isDigit text :=
    fun text hne hall => ⟨hne, List.all_eq_true.1 hall⟩
  have answers := readWord_answers (α := Unit) handful
  have seven : Writes "+007".toList (Int64.toInt 7) :=
    Writes.plus (digits ['0', '0', '7'] (by decide) (by decide))
  have zero : Writes "-0".toList (Int64.toInt 0) :=
    Writes.minus (digits ['0'] (by decide) (by decide))
  have thirteen : Writes "13".toList (Int64.toInt 13) :=
    Writes.unsigned (digits ['1', '3'] (by decide) (by decide))
  have past : Writes "9223372036854775808".toList 9223372036854775808 :=
    writes_iff.2 ⟨digits _ (by decide +kernel) (by decide +kernel), by decide +kernel⟩
  have before : Writes "-00009223372036854775809".toList (-9223372036854775809) :=
    writes_iff.2 ⟨digits _ (by decide +kernel) (by decide +kernel), by decide +kernel⟩
  have admits : ∀ n : Int64, ¬n < 5 → ¬12 < n → handful.Admits n := fun n hmin hmax =>
    ⟨fun min h => by injection h with h; exact h ▸ hmin,
      fun max h => by injection h with h; exact h ▸ hmax⟩
  refine ⟨?_, ?_, ?_, ?_, ?_, ?_⟩
  · exact ((answers "+007").1 _).2 ⟨7, seven, admits 7 (by decide) (by decide), rfl⟩
  · exact (((answers "-0").2.1 _ zero).2.2 0 rfl).1 5 rfl (by decide)
  · refine (((answers "13").2.1 _ thirteen).2.2 13 rfl).2 12 rfl (by decide) fun min h => ?_
    injection h with h
    exact h ▸ by decide
  · exact ((answers _).2.1 _ past).1 (by decide)
  · exact ((answers _).2.1 _ before).2.1 (by decide)
  · exact (answers "").2.2 12 (admits 12 (by decide) (by decide))

end Integer

end CommandGrammar
