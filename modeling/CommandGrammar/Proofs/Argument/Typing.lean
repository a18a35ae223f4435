/-
A number while it is being typed. What is there so far is a beginning of
the word, and the argument goes on proposing its placeholder as long as
that could begin a number. A word and its beginnings are looked at by two
different rules, the one that reads it and `canBegin`, so the question is
whether the second one lets every beginning pass of a word that the first
one reads.

For fractions it does. Each of the steps that both rules share, taking off
the sign, the letter at the end and the point, makes of a beginning of a
word a beginning of what it makes of the word (`prefix_splitSign`,
`prefix_dropLetter`, `prefix_splitPoint`); what is left of the word are
digits, and so is what is left of its beginning.

For whole numbers it does up to the sign. Reading takes a plus sign,
beginnings do not: every beginning but the empty one of a number with a
plus sign is refused (`canBegin_of_begins`).
-/
import CommandGrammar.Proofs.Argument.Standard

namespace CommandGrammar

open Decimal Text

-- ========================================================== whole numbers

namespace Integer

/-- What is read are digits. -/
theorem all_isDigit_of_readDigits {limit : Nat} {digits : List Char} :
    ∀ {m n : Nat}, readDigits limit m digits = .ok n → digits.all Char.isDigit = true := by
  induction digits with
  | nil => exact fun _ => rfl
  | cons c rest ih =>
      intro m n h
      unfold readDigits at h
      by_cases hc : c.isDigit = true
      · rw [digit?, if_pos hc] at h
        dsimp only at h
        split at h
        case isFalse => cases h
        case isTrue => rw [List.all_cons, hc, ih h, Bool.and_self]
      · rw [digit?, if_neg hc] at h
        cases h

/-- A word that is read is a sign, perhaps, and digits. -/
theorem all_isDigit_of_read {word : String} {n : Int64} (h : read word = .ok n) :
    (splitSign word.toList).2.all Char.isDigit = true := by
  unfold read at h
  dsimp only at h
  split at h
  · cases h
  · split at h
    · next hdigits => exact all_isDigit_of_readDigits hdigits
    · cases h
    · cases h

/-- A beginning of a word that is read could begin a number, unless it has a plus
sign. -/
theorem canBegin_iff {word typed : String} {n : Int64} (hread : read word = .ok n)
    (htyped : typed.toList <+: word.toList) :
    canBegin typed = true ↔ typed.toList.head? ≠ some '+' := by
  have hdigits := all_isDigit_of_read hread
  unfold canBegin
  generalize typed.toList = text at htyped
  generalize word.toList = whole at htyped hdigits
  cases text with
  | nil => simp
  | cons c text =>
      obtain ⟨rest, rfl⟩ := htyped
      by_cases hminus : c = '-'
      · subst hminus
        have hall : (text ++ rest).all Char.isDigit = true := hdigits
        rw [List.all_append, Bool.and_eq_true] at hall
        simp [hall.1]
      · by_cases hplus : c = '+'
        · subst hplus
          simp
        · have hall : (c :: text ++ rest).all Char.isDigit = true := by
            simpa [splitSign, hminus, hplus] using hdigits
          rw [List.all_append, Bool.and_eq_true] at hall
          simp [hminus, hplus, hall.1]

end Integer

-- ============================================================== fractions

namespace Fraction

variable {text word : List Char}

theorem prefix_splitSign (h : text <+: word) : (splitSign text).2 <+: (splitSign word).2 := by
  cases text with
  | nil => exact List.nil_prefix
  | cons c text =>
      obtain ⟨rest, rfl⟩ := h
      by_cases hminus : c = '-'
      · subst hminus
        exact List.prefix_append text rest
      · simp [splitSign, hminus]

theorem dropLetter_prefix_self (naming : Naming) (text : List Char) :
    dropLetter naming text <+: text := by
  unfold dropLetter
  split
  · split
    · exact List.dropLast_prefix text
    · exact List.prefix_rfl
  · exact List.prefix_rfl

/-- Of a word only the last letter is dropped, and a beginning that is not the
whole word does not reach it. -/
theorem prefix_dropLetter (naming : Naming) (h : text <+: word) :
    dropLetter naming text <+: dropLetter naming word := by
  obtain ⟨rest, rfl⟩ := h
  cases rest with
  | nil => simp
  | cons c rest =>
      have hlast : (text ++ c :: rest).dropLast = text ++ (c :: rest).dropLast :=
        List.dropLast_append_of_ne_nil (by simp)
      apply (dropLetter_prefix_self naming text).trans
      unfold dropLetter
      split
      · split
        · rw [hlast]
          exact List.prefix_append _ _
        · exact List.prefix_append _ _
      · exact List.prefix_append _ _

theorem prefix_splitPoint (h : text <+: word) :
    (splitPoint text).1 <+: (splitPoint word).1 ∧ (splitPoint text).2 <+: (splitPoint word).2 := by
  obtain ⟨rest, rfl⟩ := h
  unfold splitPoint
  induction text with
  | nil => simp
  | cons c text ih =>
      by_cases hpoint : c = '.'
      · subst hpoint
        simp
      · simpa [hpoint] using ih

variable {f : Format} {naming : Naming}

/-- What is read are digits around a point. -/
theorem all_isDigit_of_read {word : String} {x : Binary f} (h : read f naming word = .ok x) :
    let parts := splitPoint (dropLetter naming (splitSign word.toList).2)
    (parts.1 ++ parts.2).all Char.isDigit = true := by
  unfold read at h
  dsimp only at h ⊢
  split at h
  · cases h
  · next hdigits =>
      rw [Bool.or_eq_true, not_or] at hdigits
      simpa using hdigits.2

/-- A beginning of a word that is read could begin a number. -/
theorem canBegin_of_read {word typed : String} {x : Binary f} (hread : read f naming word = .ok x)
    (htyped : typed.toList <+: word.toList) : canBegin naming typed = true := by
  have hdigits := all_isDigit_of_read hread
  obtain ⟨hwhole, hdecimals⟩ :=
    prefix_splitPoint (prefix_dropLetter naming (prefix_splitSign htyped))
  dsimp only at hdigits
  unfold canBegin
  dsimp only
  rw [List.all_eq_true] at hdigits ⊢
  intro c hc
  apply isDecimalNumber_of_isDigit
  apply hdigits
  rw [List.mem_append] at hc ⊢
  exact hc.imp (fun hc => hwhole.subset hc) (fun hc => hdecimals.subset hc)

end Fraction

-- ============================================================== arguments

namespace Number

/-- What was typed could begin a number, and an argument without both bounds
proposes its placeholder for it. -/
structure Awaited (N : Type) [LT N] [DecidableLT N] [Number N] (typed : String) : Prop where
  /-- It could begin a number. -/
  canBegin : canBegin N typed = true
  /-- So the placeholder is proposed. -/
  suggest : ∀ (bounded : Bounded N) (line : Line), bounded.min = none ∨ bounded.max = none →
    line.current = typed → bounded.suggest line = [[bounded.hint.freeInput typed]]

theorem awaited_iff {N : Type} [LT N] [DecidableLT N] [Number N] {typed : String} :
    Awaited N typed ↔ Number.canBegin N typed = true := by
  refine ⟨Awaited.canBegin, fun h => ⟨h, fun bounded line hbounds hcurrent => ?_⟩⟩
  unfold Bounded.suggest
  rw [hcurrent, if_pos h]
  rcases hbounds with hmin | hmax
  · rw [hmin]
  · rw [hmax]
    cases bounded.min <;> rfl

/-- While a word is being typed that is read as a number, the number is awaited.
A whole number with a plus sign is not, from the sign on. -/
theorem awaited_of_begins {word typed : String} (h : begins word typed = true) :
    (∀ n : Int64, read word = .ok n → (Awaited Int64 typed ↔ begins typed "+" = false))
      ∧ (∀ x : Binary .single, read word = .ok x → Awaited (Binary .single) typed)
      ∧ ∀ x : Binary .double, read word = .ok x → Awaited (Binary .double) typed := by
  have htyped : typed.toList <+: word.toList := List.isPrefixOf_iff_prefix.1 h
  have hplus : typed.toList.head? ≠ some '+' ↔ begins typed "+" = false := by
    unfold begins
    cases typed.toList with
    | nil => decide
    | cons c rest =>
        show some c ≠ some '+' ↔ ('+' == c && true) = false
        rw [Bool.and_true, beq_eq_false_iff_ne, Ne, Option.some_inj, ne_comm]
  refine ⟨fun n hread => ?_, fun x hread => ?_, fun x hread => ?_⟩
  · exact awaited_iff.trans ((Integer.canBegin_iff hread htyped).trans hplus)
  · exact awaited_iff.2 (Fraction.canBegin_of_read hread htyped)
  · exact awaited_iff.2 (Fraction.canBegin_of_read hread htyped)

/-- Each type awaits a negative number behind its sign. -/
theorem awaited_minus :
    (∃ n : Int64, read "-12" = .ok n) ∧ Awaited Int64 "-"
      ∧ (∃ x : Binary .single, read "-12" = .ok x) ∧ Awaited (Binary .single) "-"
      ∧ (∃ x : Binary .double, read "-12" = .ok x) ∧ Awaited (Binary .double) "-" := by
  have h : begins "-12" "-" = true := by decide
  obtain ⟨hint, hsingle, hdouble⟩ := awaited_of_begins h
  obtain ⟨n, hn⟩ := exists_of_isOk
    (by decide +kernel : (read "-12" : Except Refusal Int64).isOk = true)
  obtain ⟨x, hx⟩ := exists_of_isOk
    (by decide +kernel : (read "-12" : Except Refusal (Binary .single)).isOk = true)
  obtain ⟨y, hy⟩ := exists_of_isOk
    (by decide +kernel : (read "-12" : Except Refusal (Binary .double)).isOk = true)
  exact ⟨⟨n, hn⟩, (hint n hn).2 (by decide), ⟨x, hx⟩, hsingle x hx, ⟨y, hy⟩, hdouble y hy⟩

/-- A word with a plus sign is read, and no beginning of it from the sign on could
begin a number. -/
theorem not_awaited_plus :
    (read "+5" : Except Refusal Int64).toOption = some 5
      ∧ begins "+5" "+" = true ∧ Number.canBegin Int64 "+" = false
      ∧ begins "+5" "+5" = true ∧ Number.canBegin Int64 "+5" = false := by
  decide +kernel

end Number

end CommandGrammar
