/-
The word being completed, as a line is changed. Its position counts all
words of the line, so it is moved whenever words are put in or taken out
before it. `typed?` reads the word itself, as far as it lies ahead of
the cursor, and the statements here say that no operation makes it
another word: `typed?_insert` for words put in at the cursor,
`typed?_remove` for words taken out, `typed?_next` for a word passed.

Taking out words leaves the position right because it is lowered by as
many words as go before it. `length_keep` counts these: of a stretch of
words, those kept and those listed make up the whole.
-/
import CommandGrammar.Line
import Mathlib.Data.List.Nodup

namespace CommandGrammar.Line

-- before the end of a line there is a current word
theorem exists_ahead_eq {line : Line} (h : line.isEnd = false) :
    ∃ rest, line.ahead = line.current :: rest := by
  unfold isEnd at h
  unfold current
  cases hahead : line.ahead with
  | nil => rw [hahead] at h; cases h
  | cons word rest => exact ⟨rest, rfl⟩

-- ================================================ the word being completed

/-- The word being completed, if it is not behind the cursor; empty if it
is yet to begin. -/
def typed? (line : Line) : Option String :=
  match line.completion with
  | some c => if line.index ≤ c then some (line.ahead.getD (c - line.index) "") else none
  | none => none

/-- Its position counts all words of the line. -/
theorem typed?_eq_some_iff {line : Line} {word : String} :
    line.typed? = some word
      ↔ ∃ c, line.completion = some c ∧ line.index ≤ c ∧ line.allWords.getD c "" = word := by
  unfold typed?
  cases line.completion with
  | none => simp
  | some c =>
      simp only [Option.some.injEq, exists_eq_left']
      by_cases h : line.index ≤ c
      · have hword : line.allWords.getD c "" = line.ahead.getD (c - line.index) "" := by
          unfold allWords
          rw [List.getD_eq_getElem?_getD, List.getD_eq_getElem?_getD,
            List.getElem?_append_right h]
          rfl
        rw [if_pos h, hword]
        simp [h]
      · rw [if_neg h]
        simp [h]

/-- At the word being completed, that is the current word. -/
theorem typed?_of_atCompletion {line : Line} (h : line.atCompletion = true) :
    line.typed? = some line.current := by
  have hc : line.completion = some line.index := by simpa [atCompletion] using h
  unfold typed? current
  rw [hc]
  cases line.ahead <;> simp

/-- A cursor moved to the word being completed has it as its word. -/
theorem typed?_moveTo {line : Line} {c : Nat} (hc : line.completion = some c)
    (h : line.index ≤ c) : line.typed? = some (line.moveTo c).current := by
  refine typed?_eq_some_iff.2 ⟨c, hc, h, ?_⟩
  show line.allWords.getD c "" = (line.allWords.drop c).headD ""
  rw [List.headD_eq_head?_getD, List.head?_drop, List.getD_eq_getElem?_getD]

-- ================================================================= moving

/-- Past a word, the word being completed is the same one or lies behind. -/
theorem typed?_next {line rest : Line} {passed word : String}
    (hnext : line.next = .ok (passed, rest)) (h : rest.typed? = some word) :
    line.typed? = some word := by
  unfold next at hnext
  cases hahead : line.ahead with
  | nil => rw [hahead] at hnext; cases hnext
  | cons first others =>
      rw [hahead] at hnext
      injection hnext with hnext
      injection hnext with _ hrest
      subst hrest
      obtain ⟨c, hc, hle, hword⟩ := typed?_eq_some_iff.1 h
      refine typed?_eq_some_iff.2 ⟨c, hc, ?_, ?_⟩
      · have : (line.passed ++ [first]).length ≤ c := hle
        rw [List.length_append] at this
        exact Nat.le_of_succ_le this
      · rw [← hword]
        unfold allWords
        rw [hahead, List.append_assoc]
        rfl

-- ============================================================== inserting

/-- Words put in at the cursor leave the word being completed. -/
theorem typed?_insert (line : Line) (text : String) : (line.insert text).typed? = line.typed? := by
  unfold typed? insert index
  cases line.completion with
  | none => rfl
  | some c =>
      simp only [Option.map_some]
      by_cases h : line.passed.length ≤ c
      · rw [if_pos h, if_pos h, if_pos (Nat.le_add_right_of_le h), List.getD_eq_getElem?_getD,
          List.getD_eq_getElem?_getD, List.getElem?_append_right (by omega)]
        congr 3
        omega
      · rw [if_neg h, if_neg h, if_neg h]

-- =============================================================== removing

/-- Only the positions of the words at hand matter. -/
theorem keep_congr {a b : List Nat} :
    ∀ {first : Nat} {words : List String},
      (∀ p, first ≤ p → p < first + words.length → (p ∈ a ↔ p ∈ b)) →
      keep a first words = keep b first words := by
  intro first words
  induction words generalizing first with
  | nil => intro _; rfl
  | cons word rest ih =>
      intro h
      have hrest : keep a (first + 1) rest = keep b (first + 1) rest :=
        ih fun p hle hlt => h p (by omega) (by rw [List.length_cons]; omega)
      unfold keep
      rw [hrest]
      exact if_congr (h first (Nat.le_refl _) (by rw [List.length_cons]; omega)) rfl rfl

/-- Words are kept stretch by stretch. -/
theorem keep_append (positions : List Nat) (first : Nat) (a b : List String) :
    keep positions first (a ++ b)
      = keep positions first a ++ keep positions (first + a.length) b := by
  induction a generalizing first with
  | nil => rfl
  | cons word rest ih =>
      have hplace : first + 1 + rest.length = first + (word :: rest).length := by
        rw [List.length_cons]
        omega
      rw [List.cons_append, keep, keep, ih, hplace]
      split <;> rfl

theorem keep_nil (first : Nat) (words : List String) : keep [] first words = words := by
  induction words generalizing first with
  | nil => rfl
  | cons word rest ih => rw [keep, if_neg List.not_mem_nil, ih]

section Within

variable {line : Line} {positions : List Nat}
  (hwithin : ∀ p ∈ positions, line.index ≤ p ∧ p < line.index + line.size)

include hwithin

theorem filter_eq_of_within :
    positions.filter (fun p => line.index ≤ p && p < line.index + line.size) = positions := by
  apply List.filter_eq_self.2
  intro p hp
  simpa using hwithin p hp

/-- Taking out words ahead of the cursor takes them out of the whole line. -/
theorem allWords_remove : (line.remove positions).allWords = keep positions 0 line.allWords := by
  have hpassed : keep positions 0 line.passed = line.passed :=
    calc keep positions 0 line.passed
        = keep [] 0 line.passed := keep_congr fun p _ hlt =>
          iff_of_false (fun hp => by
            have hle : line.passed.length ≤ p := (hwithin p hp).1
            omega) List.not_mem_nil
      _ = line.passed := keep_nil 0 _
  unfold allWords
  rw [keep_append, hpassed, Nat.zero_add]
  show _ ++ keep (positions.filter _) _ _ = _
  rw [filter_eq_of_within hwithin]
  rfl

theorem completion_remove_of_within :
    (line.remove positions).completion = line.completion.bind fun c =>
      if c ∈ positions then none else some (c - positions.countP (· < c)) := by
  show line.completion.bind _ = _
  rw [filter_eq_of_within hwithin]

end Within

/-- How many of the positions lie between two bounds, the upper one left
out. -/
def between (positions : List Nat) (low high : Nat) : Nat :=
  positions.countP fun p => low ≤ p && p < high

/-- The lowest position counts as often as it is listed. -/
theorem between_eq (positions : List Nat) {low high : Nat} (h : low < high) :
    between positions low high = positions.count low + between positions (low + 1) high := by
  unfold between
  induction positions with
  | nil => rfl
  | cons p rest ih =>
      rw [List.countP_cons, List.countP_cons, List.count_cons, ih]
      simp only [Bool.and_eq_true, decide_eq_true_eq, beq_iff_eq]
      split_ifs <;> omega

/-- Of a stretch of words, those kept and those listed make up the whole. -/
theorem length_keep {positions : List Nat} (hnodup : positions.Nodup) (first : Nat)
    (words : List String) :
    (keep positions first words).length + between positions first (first + words.length)
      = words.length := by
  induction words generalizing first with
  | nil =>
      have hnone : between positions first first = 0 := by
        unfold between
        exact List.countP_eq_zero.2 fun p _ => by simp
      exact hnone ▸ rfl
  | cons word rest ih =>
      have hrest := ih (first + 1)
      rw [show first + 1 + rest.length = first + (rest.length + 1) by omega] at hrest
      rw [List.length_cons, between_eq positions (by omega), hnodup.count, keep]
      split
      · omega
      · rw [List.length_cons]
        omega

/-- Between two bounds there are no more positions than numbers. -/
theorem between_le {positions : List Nat} (hnodup : positions.Nodup) (low n : Nat) :
    between positions low (low + n) ≤ n := by
  have hcount := length_keep hnodup low (List.replicate n "")
  rw [List.length_replicate] at hcount
  omega

theorem countP_lt_eq_between (positions : List Nat) (p : Nat) :
    positions.countP (· < p) = between positions 0 p := by
  apply List.countP_congr
  intro q _
  simp

theorem between_add {positions : List Nat} (low n k : Nat) :
    between positions low (low + n + k)
      = between positions low (low + n) + between positions (low + n) (low + n + k) := by
  unfold between
  induction positions with
  | nil => rfl
  | cons p rest ih =>
      rw [List.countP_cons, List.countP_cons, List.countP_cons, ih]
      simp only [Bool.and_eq_true, decide_eq_true_eq]
      split_ifs <;> omega

/-- A word that is kept stands behind the words kept before it. -/
theorem getElem?_keep {positions : List Nat} (hnodup : positions.Nodup) {first n : Nat}
    (hkept : first + n ∉ positions) (words : List String) :
    (keep positions first words)[n - between positions first (first + n)]? = words[n]? := by
  rcases Nat.lt_or_ge n words.length with hlt | hge
  · -- split before the word: what is kept before it has just the right length
    have hsplit : words = words.take n ++ words[n] :: words.drop (n + 1) := by
      rw [← List.drop_eq_getElem_cons hlt, List.take_append_drop]
    have hlen : (words.take n).length = n := List.length_take_of_le (Nat.le_of_lt hlt)
    have hcount := length_keep hnodup first (words.take n)
    rw [hlen] at hcount
    have hkeep : keep positions first words
        = keep positions first (words.take n)
          ++ words[n] :: keep positions (first + n + 1) (words.drop (n + 1)) := by
      conv => lhs; rw [hsplit]
      rw [keep_append, hlen, keep, if_neg hkept]
    rw [hkeep, List.getElem?_append_right (by omega), List.getElem?_eq_getElem hlt,
      show n - between positions first (first + n)
        - (keep positions first (words.take n)).length = 0 by omega]
    rfl
  · -- pad the words up to the position: what is kept of them is not longer
    have hcount := length_keep hnodup first (words ++ List.replicate (n - words.length) "")
    rw [List.length_append, List.length_replicate, Nat.add_sub_cancel' hge, keep_append,
      List.length_append] at hcount
    rw [List.getElem?_eq_none (by omega), List.getElem?_eq_none hge]

/-- Words taken out leave the word being completed, unless it is one of
them. -/
theorem typed?_remove {line : Line} {positions : List Nat} (hnodup : positions.Nodup)
    {word : String} (h : (line.remove positions).typed? = some word) :
    line.typed? = some word := by
  obtain ⟨removed, hremoved⟩ : ∃ removed, removed
      = positions.filter (fun p => line.index ≤ p && p < line.index + line.size) := ⟨_, rfl⟩
  have hahead : (line.remove positions).ahead = keep removed line.index line.ahead := by
    rw [hremoved]
    rfl
  have hcompletion : (line.remove positions).completion = line.completion.bind fun c =>
      if c ∈ removed then none else some (c - removed.countP (· < c)) := by
    rw [hremoved]
    rfl
  have hindex : (line.remove positions).index = line.index := rfl
  have hnodup' : removed.Nodup := hremoved ▸ hnodup.filter _
  have hbefore : ∀ c, removed.countP (· < c) = between removed line.index c := by
    intro c
    refine List.countP_congr fun p hp => ?_
    have hrange : line.index ≤ p := by
      rw [hremoved, List.mem_filter, Bool.and_eq_true, decide_eq_true_eq] at hp
      exact hp.2.1
    simp [hrange]
  unfold typed? at h ⊢
  rw [hahead, hcompletion, hindex] at h
  cases hc : line.completion with
  | none => rw [hc] at h; cases h
  | some c =>
      rw [hc, Option.bind_some, hbefore] at h
      by_cases hkept : c ∈ removed
      · rw [if_pos hkept] at h
        cases h
      · rw [if_neg hkept] at h
        dsimp only at h ⊢
        rcases Nat.lt_or_ge c line.index with hlt | hge
        · rw [if_neg (by omega)] at h
          cases h
        · obtain ⟨n, rfl⟩ := Nat.exists_eq_add_of_le hge
          have hword := getElem?_keep hnodup' hkept line.ahead
          rw [if_pos hge, List.getD_eq_getElem?_getD, Nat.add_sub_cancel_left, ← hword]
          split at h
          case isFalse => cases h
          case isTrue =>
            rw [← h, List.getD_eq_getElem?_getD, Nat.sub_right_comm, Nat.add_sub_cancel_left]

end CommandGrammar.Line
