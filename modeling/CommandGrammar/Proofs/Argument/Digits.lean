/-
Numbers and their digits, read in both directions. The text of a number
is read back as that number (`readDigits_toDigits`), with its sign as well
(`read_toString`); and whatever begins the text of a number is itself the
text of one, to which further digits are added (`eq_toDigits_of_prefix`,
`exists_of_toDigits_prefix`).

A number beyond nine is the number without its last digit and that digit.
The induction is on this, for it is the way in which the text grows.
-/
import CommandGrammar.Proofs.Argument.Integer

namespace CommandGrammar.Integer

open Text

-- ============================================================= one digit

theorem digit?_digitChar {d : Nat} (h : d < 10) : digit? d.digitChar = some d := by
  unfold digit?
  rw [Nat.isDigit_digitChar, if_pos (decide_eq_true h), Nat.toNat_digitChar_of_lt_ten h]
  show some (48 + d - 48) = some d
  rw [Nat.add_sub_cancel_left]

theorem toDigits_ten_mul_add {n d : Nat} (hn : 0 < n) (hd : d < 10) :
    Nat.toDigits 10 (10 * n + d) = Nat.toDigits 10 n ++ [d.digitChar] :=
  toDigits_append_digit hn (digit?_digitChar hd)

/-- Every number is a digit, or a number with a digit behind it. -/
@[elab_as_elim]
theorem digitsInduction {P : Nat → Prop} (digit : ∀ d < 10, P d)
    (behind : ∀ n d, 0 < n → d < 10 → P n → P (10 * n + d)) (n : Nat) : P n := by
  induction n using Nat.strongRecOn with
  | ind n ih =>
      rcases Nat.lt_or_ge n 10 with hlt | hge
      · exact digit n hlt
      · rw [← Nat.div_add_mod n 10]
        exact behind (n / 10) (n % 10) (by omega) (by omega) (ih (n / 10) (by omega))

-- ========================================================== reading back

theorem readDigits_append (limit : Nat) (b : List Char) {a : List Char} :
    ∀ (n : Nat), readDigits limit n (a ++ b) = readDigits limit n a >>= (readDigits limit · b) := by
  induction a with
  | nil => intro n; rfl
  | cons c a ih =>
      intro n
      rw [List.cons_append, readDigits, readDigits]
      rcases digit? c with - | d
      · rfl
      · dsimp only
        split
        · exact ih _
        · rfl

/-- A number within the limit is read back from its text. -/
theorem readDigits_toDigits {limit n : Nat} (h : n ≤ limit) :
    readDigits limit 0 (Nat.toDigits 10 n) = .ok n := by
  have hlast : ∀ {m d : Nat}, d < 10 → 10 * m + d ≤ limit →
      readDigits limit m [d.digitChar] = .ok (10 * m + d) := by
    intro m d hd hle
    rw [readDigits, digit?_digitChar hd]
    dsimp only
    rw [if_pos hle]
    rfl
  induction n using digitsInduction with
  | digit d hd =>
      rw [Nat.toDigits_of_lt_base hd, hlast hd (by omega), Nat.mul_zero, Nat.zero_add]
  | behind n d hn hd ih =>
      rw [toDigits_ten_mul_add hn hd, readDigits_append, ih (by omega)]
      exact hlast hd h

/-- Behind a sign or none, the text of a magnitude within its limit is read
as the number. -/
theorem read_of_splitSign {word : String} {negative : Bool} {m : Nat}
    (hsplit : splitSign word.toList = (negative, Nat.toDigits 10 m))
    (hm : m ≤ if negative then 2 ^ 63 else 2 ^ 63 - 1) :
    read word = .ok (Int64.ofInt (if negative then -m else m)) := by
  have hne : (Nat.toDigits 10 m).isEmpty = false :=
    List.isEmpty_eq_false_iff.2 Nat.toDigits_ne_nil
  unfold read
  rw [hsplit]
  dsimp only
  rw [hne, if_neg Bool.false_ne_true, readDigits_toDigits hm]

theorem isDigit_of_mem_toDigits {c : Char} {m : Nat} (h : c ∈ Nat.toDigits 10 m) :
    c.isDigit = true :=
  Nat.isDigit_of_mem_toDigits (by omega) (by omega) h

/-- The text of a number without a sign begins with a digit. -/
theorem splitSign_toDigits (m : Nat) :
    splitSign (Nat.toDigits 10 m) = (false, Nat.toDigits 10 m) := by
  unfold splitSign
  split
  · next h => exact absurd (isDigit_of_mem_toDigits (h ▸ List.mem_cons_self ..)) (by decide)
  · next h => exact absurd (isDigit_of_mem_toDigits (h ▸ List.mem_cons_self ..)) (by decide)
  · rfl

/-- A number of 64 bits is read back from its text. -/
theorem read_toString (n : Int64) : read (toString n.toInt) = .ok n := by
  have hlow : -2 ^ 63 ≤ n.toInt := n.minValue_le_toInt
  have hhigh : n.toInt < 2 ^ 63 := n.toInt_lt
  rcases Int.lt_or_le n.toInt 0 with hsign | hsign
  · obtain ⟨m, hm⟩ := Int.eq_ofNat_of_zero_le (a := -n.toInt) (by omega)
    have hn : n.toInt = -(m : Int) := by omega
    have hsplit : splitSign (toString (-(m : Int))).toList = (true, Nat.toDigits 10 m) := by
      rw [toList_toString_neg (by omega)]
      rfl
    rw [hn, read_of_splitSign hsplit (by rw [if_pos rfl]; omega), if_pos rfl, ← hn,
      Int64.ofInt_toInt]
  · obtain ⟨m, hm⟩ := Int.eq_ofNat_of_zero_le hsign
    have hsplit : splitSign (toString (m : Int)).toList = (false, Nat.toDigits 10 m) := by
      rw [toList_toString_ofNat, splitSign_toDigits]
    rw [hm, read_of_splitSign hsplit (by rw [if_neg Bool.false_ne_true]; omega),
      if_neg Bool.false_ne_true, ← hm, Int64.ofInt_toInt]

-- ==================================================== what begins a text

/-- What begins the text of a number is the text of a number that is not
larger. -/
theorem eq_toDigits_of_prefix {digits : List Char} (hne : digits ≠ []) {x : Nat}
    (h : digits <+: Nat.toDigits 10 x) : ∃ n ≤ x, digits = Nat.toDigits 10 n := by
  induction x using digitsInduction with
  | digit d hd =>
      rw [Nat.toDigits_of_lt_base hd, ← List.nil_append [_], List.prefix_concat_iff] at h
      rcases h with h | h
      · exact ⟨d, Nat.le_refl d, h.trans (Nat.toDigits_of_lt_base hd).symm⟩
      · exact absurd (List.prefix_nil.1 h) hne
  | behind n d hn hd ih =>
      rw [toDigits_ten_mul_add hn hd, List.prefix_concat_iff, ← toDigits_ten_mul_add hn hd] at h
      rcases h with h | h
      · exact ⟨10 * n + d, Nat.le_refl _, h⟩
      · obtain ⟨m, hle, hm⟩ := ih h
        exact ⟨m, by omega, hm⟩

theorem toDigits_injective : Function.Injective (Nat.toDigits 10) := fun a b h => by
  have ha := readDigits_toDigits (Nat.le_max_left a b)
  rw [h, readDigits_toDigits (Nat.le_max_right a b)] at ha
  injection ha with ha
  exact ha.symm

/-- Further digits take a number to those from `n · 10 ^ k` on, up to
`(n + 1) · 10 ^ k`. -/
theorem exists_of_toDigits_prefix {n x : Nat} (h : Nat.toDigits 10 n <+: Nat.toDigits 10 x) :
    ∃ k, n * 10 ^ k ≤ x ∧ x < (n + 1) * 10 ^ k := by
  have hsame : ∀ {y : Nat}, Nat.toDigits 10 n = Nat.toDigits 10 y →
      ∃ k, n * 10 ^ k ≤ y ∧ y < (n + 1) * 10 ^ k := by
    intro y hy
    obtain rfl := toDigits_injective hy
    exact ⟨0, by omega, by omega⟩
  induction x using digitsInduction with
  | digit d hd =>
      rw [Nat.toDigits_of_lt_base hd, ← List.nil_append [_], List.prefix_concat_iff,
        List.nil_append, ← Nat.toDigits_of_lt_base hd] at h
      rcases h with h | h
      · exact hsame h
      · exact absurd (List.prefix_nil.1 h) Nat.toDigits_ne_nil
  | behind y d hy hd ih =>
      rw [toDigits_ten_mul_add hy hd, List.prefix_concat_iff, ← toDigits_ten_mul_add hy hd] at h
      rcases h with h | h
      · exact hsame h
      · obtain ⟨k, hlow, hhigh⟩ := ih h
        refine ⟨k + 1, ?_, ?_⟩
        · rw [Nat.pow_succ, ← Nat.mul_assoc]
          omega
        · rw [Nat.pow_succ, ← Nat.mul_assoc]
          omega

end CommandGrammar.Integer
