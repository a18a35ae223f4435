/-
The same listing in registers of 128 bits. Every operation on the ends of
spans is checked here: its result must fit into a register. No check ever
fails (`listed?_eq`). The loop over the counts of further digits stops at
the first span beyond 64 bits, which is one factor of ten behind a span
that still began within them, so what is formed stays below ten times
`2 ^ 64`; and digits for which there is no register write a number that no
number of 64 bits begins with.
-/
import CommandGrammar.Argument.Number
import CommandGrammar.Proofs.Argument.Listing

namespace CommandGrammar.Integer

open Text

-- powers of naturals are the core library's, whatever else is imported
attribute [local instance (2000)] instPowNat

namespace Register

/-- The largest number in a register. -/
def largest : Nat := 2 ^ (127 : Nat) - 1

/-- The result of an operation, if it fits into a register. -/
def fit? (i : Int) : Option Int :=
  if -largest - 1 ≤ i ∧ i ≤ largest then some i else none

theorem fit?_eq_some {i j : Int} :
    fit? i = some j ↔ i = j ∧ -largest - 1 ≤ i ∧ i ≤ largest := by
  unfold fit?
  split
  · next h => exact ⟨fun hij => ⟨Option.some.inj hij, h⟩, fun hij => congrArg some hij.1⟩
  · next h => exact ⟨nofun, fun hij => absurd hij.2 h⟩

theorem fit?_of_le {i : Int} (hlow : -largest - 1 ≤ i) (hhigh : i ≤ largest) : fit? i = some i :=
  fit?_eq_some.2 ⟨rfl, hlow, hhigh⟩

theorem ten_pow_gt {k : Nat} (hk : 39 ≤ k) : largest < 10 ^ k :=
  Nat.lt_of_lt_of_le (by decide : largest < 10 ^ 39) (Nat.pow_le_pow_right (by omega) hk)

/-- The magnitudes whose text begins with that of `n` and has `k` or more
further digits, as far as the first that begins beyond 64 bits. -/
def magnitudes? (n : Int) (k : Nat) : Option (List Span) :=
  match hscale : fit? ((10 ^ k : Nat) : Int) with
  | none => none
  | some scale => do
      let low ← fit? (n * scale)
      if low ≤ ((2 ^ (63 : Nat) : Nat) : Int) then
        let next ← fit? (n + 1)
        let above ← fit? (next * scale)
        let high ← fit? (above - 1)
        let further ← magnitudes? n (k + 1)
        return (low, high) :: further
      else return []
termination_by 39 - k
decreasing_by
  have hle := (fit?_eq_some.1 hscale).2.2
  have : ¬39 ≤ k := fun hk => absurd (ten_pow_gt hk) (by omega)
  omega

/-- The span of the opposite numbers. -/
def opposite? (span : Span) : Option Span := do
  let low ← fit? (-span.2)
  let high ← fit? (-span.1)
  return (low, high)

/-- The magnitudes whose text begins with some digits. Digits for which
there is no register begin none. -/
def magnitudesOf? (digits : List Char) : Option (List Span) :=
  match readDigits largest 0 digits with
  | .ok n => magnitudes? n 0
  | .error _ => some []

/-- The spans of the numbers that begin with what was typed, before they
are cut to the range. -/
def spans? (range : Span) (typed : List Char) : Option (List Span) :=
  match typed with
  | ['-'] => some [(range.1, min range.2 (-1))]
  | '-' :: '0' :: _ => some []
  | '-' :: digits => do
      let found ← magnitudesOf? digits
      let opposites ← found.mapM opposite?
      return opposites.reverse
  | [] => some [range]
  | ['0'] => some [(0, 0)]
  | '0' :: _ => some []
  | digits => magnitudesOf? digits

/-- A number of a register, if it is one of 64 bits. -/
def narrow? (i : Int) : Option Int64 :=
  if Int64.minValue.toInt ≤ i ∧ i ≤ Int64.maxValue.toInt then some (Int64.ofInt i) else none

/-- At most `limit` numbers between two bounds that begin with what was
typed, or nothing where an operation on the way overflows. -/
def listed? (min max : Int64) (typed : String) (limit : Nat) : Option (List Int64) := do
  let range : Span := (min.toInt, max.toInt)
  let found ← spans? range typed.toList
  let numbers := found.flatMap fun span => (range.meet span).numbers
  return (numbers.take limit).filterMap narrow?

-- ========================================================== the digits

theorem le_of_readDigits {limit : Nat} {digits : List Char} :
    ∀ {m n : Nat}, readDigits limit m digits = .ok n → m ≤ n := by
  induction digits with
  | nil =>
      intro m n h
      injection h with h
      exact Nat.le_of_eq h
  | cons c rest ih =>
      intro m n h
      rw [readDigits] at h
      split at h
      · cases h
      · split at h
        case isFalse => cases h
        case isTrue =>
          have := ih h
          omega

/-- What is read does not depend on the limit, as long as it is within. -/
theorem readDigits_of_le {limit other : Nat} {digits : List Char} :
    ∀ {m n : Nat}, readDigits limit m digits = .ok n → n ≤ other →
      readDigits other m digits = .ok n := by
  induction digits with
  | nil => intro m n h _; exact h
  | cons c rest ih =>
      intro m n h hle
      rw [readDigits] at h
      split at h
      · cases h
      · next d hd =>
        split at h
        case isFalse => cases h
        case isTrue =>
          have hwithin := le_of_readDigits h
          rw [readDigits, hd]
          dsimp only
          rw [if_pos (by omega)]
          exact ih h hle

theorem readDigits_le {limit : Nat} {digits : List Char} :
    ∀ {m n : Nat}, m ≤ limit → readDigits limit m digits = .ok n → n ≤ limit := by
  induction digits with
  | nil =>
      intro m n hm h
      injection h with h
      exact h ▸ hm
  | cons c rest ih =>
      intro m n _ h
      rw [readDigits] at h
      split at h
      · cases h
      · split at h
        case isFalse => cases h
        case isTrue hle => exact ih hle h

theorem eq_of_leading? {digits : List Char} {n : Nat}
    (hplus : ∀ rest, digits = '+' :: rest → False) (h : leading? digits = some n) :
    readDigits (2 ^ (63 : Nat)) 0 digits = .ok n := by
  rw [leading?_of_no_plus hplus] at h
  split at h
  case h_1 m hm =>
    split at h
    case isTrue => exact Option.some.inj h ▸ hm
    case isFalse => cases h
  case h_2 => cases h

-- =========================================================== the spans

/-- A span that begins within 64 bits. -/
def Near (span : Span) : Bool :=
  span.1 ≤ ((2 ^ (63 : Nat) : Nat) : Int)

/-- The magnitudes whose text begins with that of `n` and has `k` further
digits. -/
def magnitude (n k : Nat) : Span :=
  ((n * 10 ^ k : Nat), ((n + 1) * 10 ^ k : Nat) - 1)

theorem near_magnitude {n k : Nat} : Near (magnitude n k) = decide (n * 10 ^ k ≤ 2 ^ (63 : Nat)) :=
  decide_eq_decide.2 Int.ofNat_le

theorem magnitudes_eq (n : Nat) : magnitudes n = (List.range' 0 19).map (magnitude n) := by
  rw [← List.range_eq_range']
  rfl

/-- Behind a span that begins beyond 64 bits, all do. -/
theorem filter_near_of_lt {n k count : Nat} (h : 2 ^ (63 : Nat) < n * 10 ^ k) :
    ((List.range' k count).map (magnitude n)).filter Near = [] := by
  refine List.filter_eq_nil_iff.2 fun span hspan => ?_
  obtain ⟨j, hj, rfl⟩ := List.mem_map.1 hspan
  have hle : n * 10 ^ k ≤ n * 10 ^ j :=
    Nat.mul_le_mul_left _ (Nat.pow_le_pow_right (by omega) (List.mem_range'_1.1 hj).1)
  rw [near_magnitude, decide_eq_true_eq]
  omega

theorem fit?_natCast {n : Nat} (h : n ≤ largest) : fit? (n : Int) = some (n : Int) :=
  fit?_of_le (by omega) (by omega)

theorem scale_le {n k : Nat} (hn : 0 < n) : 10 ^ k ≤ n * 10 ^ k :=
  Nat.le_mul_of_pos_left _ hn

/-- The loop ends with the first span beyond 64 bits, if that one begins in
a register. -/
theorem magnitudes?_far {n k : Nat} (hn : 0 < n) (hfar : 2 ^ (63 : Nat) < n * 10 ^ k)
    (hfit : n * 10 ^ k ≤ largest) : magnitudes? n k = some [] := by
  have hscale := fit?_natCast (Nat.le_trans (scale_le (k := k) hn) hfit)
  rw [magnitudes?]
  split
  · next hnone => rw [hscale] at hnone; cases hnone
  · next scale hsome =>
    obtain rfl := Option.some.inj (hscale.symm.trans hsome)
    rw [← Int.natCast_mul, fit?_natCast hfit]
    exact if_neg (by omega)

/-- Within 64 bits no operation overflows, and neither does the next one
that the loop begins with. -/
theorem magnitudes?_near {n k : Nat} (hn : 0 < n) (hnear : n * 10 ^ k ≤ 2 ^ (63 : Nat)) :
    magnitudes? n k = (magnitudes? n (k + 1)).map (magnitude n k :: ·) := by
  have hlargest : 2 ^ (63 : Nat) * 20 ≤ largest := by decide
  have hscale_le := scale_le (k := k) hn
  have hn_le : n ≤ n * 10 ^ k := Nat.le_mul_of_pos_right _ (Nat.pow_pos (by omega))
  have habove : (n + 1) * 10 ^ k = n * 10 ^ k + 10 ^ k := Nat.succ_mul ..
  have hscale := fit?_natCast (n := 10 ^ k) (by omega)
  rw [magnitudes?]
  split
  · next hnone => rw [hscale] at hnone; cases hnone
  · next scale hsome =>
    obtain rfl := Option.some.inj (hscale.symm.trans hsome)
    have hlow : fit? (n * (10 ^ k : Nat)) = some ((n * 10 ^ k : Nat) : Int) := by
      rw [← Int.natCast_mul, fit?_natCast (by omega)]
    have hnext : fit? (n + 1) = some ((n + 1 : Nat) : Int) := fit?_natCast (n := n + 1) (by omega)
    have hproduct : fit? (((n + 1 : Nat) : Int) * (10 ^ k : Nat))
        = some (((n + 1) * 10 ^ k : Nat) : Int) := by
      rw [← Int.natCast_mul, fit?_natCast (by omega)]
    have hhigh : fit? ((((n + 1) * 10 ^ k : Nat) : Int) - 1)
        = some ((((n + 1) * 10 ^ k : Nat) : Int) - 1) := fit?_of_le (by omega) (by omega)
    simp only [Option.bind_eq_bind]
    rw [hlow, Option.bind_some, if_pos (by omega), hnext, Option.bind_some, hproduct,
      Option.bind_some, hhigh, Option.bind_some]
    cases magnitudes? n (k + 1) <;> rfl

/-- The loop finds the magnitudes that begin within 64 bits. -/
theorem magnitudes?_eq {n count : Nat} (hn : 0 < n) :
    ∀ {k : Nat}, k + count = 19 → n * 10 ^ k ≤ largest →
      magnitudes? n k = some (((List.range' k count).map (magnitude n)).filter Near) := by
  induction count with
  | zero =>
      intro k hk hfit
      obtain rfl : k = 19 := hk
      have hfar : 2 ^ (63 : Nat) < n * 10 ^ 19 :=
        Nat.lt_of_lt_of_le (by decide : 2 ^ (63 : Nat) < 10 ^ 19) (scale_le hn)
      rw [magnitudes?_far hn hfar hfit, filter_near_of_lt hfar]
  | succ count ih =>
      intro k hk hfit
      rcases Nat.lt_or_ge (2 ^ (63 : Nat)) (n * 10 ^ k) with hfar | hnear
      · rw [magnitudes?_far hn hfar hfit, filter_near_of_lt hfar]
      · have hfit : n * 10 ^ (k + 1) ≤ largest :=
          calc n * 10 ^ (k + 1)
              = n * 10 ^ k * 10 := by rw [Nat.pow_succ, Nat.mul_assoc]
            _ ≤ 2 ^ (63 : Nat) * 10 := Nat.mul_le_mul_right _ hnear
            _ ≤ largest := by decide
        rw [magnitudes?_near hn hnear, ih (by omega) hfit, List.range'_succ, List.map_cons,
          List.filter_cons_of_pos (by rw [near_magnitude]; exact decide_eq_true hnear)]
        rfl

/-- The magnitudes whose text begins with some digits, as the listing has
them. -/
def magnitudesOf (digits : List Char) : List Span :=
  match leading? digits with
  | some n => magnitudes n
  | none => []

theorem spans_of_minus (range : Span) {digits : List Char} (hne : digits = [] → False)
    (hzero : ∀ rest, digits = '0' :: rest → False) :
    spans range ('-' :: digits)
      = ((magnitudesOf digits).map Span.opposite).reverse.map range.meet := by
  unfold magnitudesOf
  rw [spans]
  · cases leading? digits <;> rfl
  all_goals assumption

theorem spans_of_digits (range : Span) {digits : List Char}
    (hminus : ∀ rest, digits = '-' :: rest → False) (hne : digits = [] → False)
    (hzero : ∀ rest, digits = '0' :: rest → False) :
    spans range digits = (magnitudesOf digits).map range.meet := by
  unfold magnitudesOf
  rw [spans]
  · cases leading? digits <;> rfl
  · exact hminus []
  · exact fun rest => hminus ('0' :: rest)
  · exact hminus
  · exact hne
  · exact hzero []
  · exact hzero

/-- Digits beyond 64 bits begin nothing that is near, whether or not there
is a register for them. -/
theorem magnitudesOf?_eq {digits : List Char} (hne : digits ≠ [])
    (hzero : ∀ rest, digits = '0' :: rest → False) (hplus : ∀ rest, digits = '+' :: rest → False) :
    magnitudesOf? digits = some ((magnitudesOf digits).filter Near) := by
  have hlargest : 2 ^ (63 : Nat) ≤ largest := by decide
  have hleading : ∀ {n : Nat}, leading? digits = some n →
      n ≤ 2 ^ (63 : Nat) ∧ readDigits largest 0 digits = .ok n := fun h => by
    have hread := eq_of_leading? hplus h
    have hle := readDigits_le (Nat.zero_le _) hread
    exact ⟨hle, readDigits_of_le hread (Nat.le_trans hle hlargest)⟩
  unfold magnitudesOf? magnitudesOf
  cases hread : readDigits largest 0 digits with
  | error fault =>
      cases h : leading? digits with
      | none => rfl
      | some n =>
          have := (hleading h).2
          rw [hread] at this
          cases this
  | ok n =>
      have hpos : 0 < n := by
        obtain ⟨c, rest, rfl⟩ := List.exists_cons_of_ne_nil hne
        have htext := toDigits_of_readDigits (fun hc => hzero rest (by rw [hc])) hread
        refine Nat.pos_of_ne_zero fun hn => hzero [] ?_
        rw [← htext, hn]
        rfl
      have hfit := readDigits_le (Nat.zero_le _) hread
      rcases Nat.lt_or_ge (2 ^ (63 : Nat)) n with hfar | hnear
      · have hnone : leading? digits = none := by
          cases h : leading? digits with
          | none => rfl
          | some m =>
              obtain ⟨hle, hm⟩ := hleading h
              rw [hread] at hm
              injection hm with hm
              omega
        rw [hnone]
        exact magnitudes?_far hpos (by omega) (by omega)
      · rw [leading?_of_no_plus hplus, readDigits_of_le hread hnear]
        dsimp only
        rw [if_pos hpos]
        show magnitudes? n 0 = some ((magnitudes n).filter Near)
        rw [magnitudes_eq]
        exact magnitudes?_eq hpos rfl (by omega)

/-- What is near can be negated. -/
theorem bounds_of_mem_magnitudesOf {digits : List Char} {span : Span}
    (h : span ∈ (magnitudesOf digits).filter Near) :
    0 ≤ span.1 ∧ span.1 ≤ largest ∧ -1 ≤ span.2 ∧ span.2 ≤ largest := by
  obtain ⟨hmem, hnear⟩ := List.mem_filter.1 h
  unfold magnitudesOf at hmem
  split at hmem
  case h_2 => cases hmem
  case h_1 n hleading =>
    have hn := pos_of_leading? hleading
    obtain ⟨k, -, rfl⟩ := List.mem_map.1 hmem
    have hlargest : 2 ^ (63 : Nat) * 2 ≤ largest := by decide
    have hscale := scale_le (k := k) hn
    have habove : (n + 1) * 10 ^ k = n * 10 ^ k + 10 ^ k := Nat.succ_mul ..
    have hle := of_decide_eq_true (near_magnitude.symm.trans hnear)
    dsimp only
    omega

theorem mapM_opposite? {found : List Span}
    (hfit : ∀ span ∈ found, 0 ≤ span.1 ∧ span.1 ≤ largest ∧ -1 ≤ span.2 ∧ span.2 ≤ largest) :
    found.mapM opposite? = some (found.map Span.opposite) := by
  induction found with
  | nil => rfl
  | cons span rest ih =>
      obtain ⟨hlow, hlow', hhigh, hhigh'⟩ := hfit span (List.mem_cons_self ..)
      have hopposite : opposite? span = some span.opposite := by
        have : 1 ≤ largest := by decide
        unfold opposite?
        rw [fit?_of_le (by omega) (by omega), fit?_of_le (by omega) (by omega)]
        rfl
      have hrest := ih fun other hother => hfit other (List.mem_cons_of_mem _ hother)
      rw [List.mapM_cons, hopposite, hrest]
      rfl

-- ========================================================== the listing

/-- Spans that have no number may be left out. -/
theorem flatMap_filter {spans : List Span} {p : Span → Bool} {numbers : Span → List Int}
    (h : ∀ span, p span = false → numbers span = []) :
    (spans.filter p).flatMap numbers = spans.flatMap numbers := by
  induction spans with
  | nil => rfl
  | cons span rest ih =>
      rw [List.flatMap_cons]
      cases hp : p span with
      | true => rw [List.filter_cons_of_pos hp, List.flatMap_cons, ih]
      | false =>
          rw [List.filter_cons_of_neg (by rw [hp]; exact Bool.false_ne_true), h span hp, ih]
          rfl

/-- A span that is not near has no number of a range of 64 bits, and
neither has its opposite. -/
theorem numbers_meet_of_not_near {min max : Int64} {span : Span} (h : Near span = false) :
    (Span.meet (min.toInt, max.toInt) span).numbers = []
      ∧ (Span.meet (min.toInt, max.toInt) span.opposite).numbers = [] := by
  have hfar : 2 ^ 63 < span.1 := by
    have := of_decide_eq_false h
    omega
  have hmin : -2 ^ 63 ≤ min.toInt := min.minValue_le_toInt
  have hmax : max.toInt < 2 ^ 63 := max.toInt_lt
  constructor <;> refine List.eq_nil_iff_forall_not_mem.2 fun i hi => ?_ <;>
    obtain ⟨⟨hlow, hhigh⟩, hlow', hhigh'⟩ := Span.holds_meet.1 (Span.mem_numbers.1 hi)
  · omega
  · unfold Span.opposite at hhigh'
    omega

/-- Cut to the range, the checked spans have the numbers of the spans. -/
theorem spans?_eq (min max : Int64) {typed : List Char}
    (hplus : ∀ rest, typed = '+' :: rest ∨ typed = '-' :: '+' :: rest → False) :
    ∃ found, spans? (min.toInt, max.toInt) typed = some found
      ∧ (found.flatMap fun span => (Span.meet (min.toInt, max.toInt) span).numbers)
        = (spans (min.toInt, max.toInt) typed).flatMap Span.numbers := by
  unfold spans?
  split
  · -- the end of the range is taken into account once or twice
    refine ⟨_, rfl, congrArg (fun span : Span => [span].flatMap Span.numbers) ?_⟩
    unfold Span.meet
    exact Prod.ext rfl (by dsimp only; omega)
  · exact ⟨_, rfl, rfl⟩
  · -- what is left out is the same on both sides of zero
    next digits hnone hzero =>
    have hne : digits = [] → False := fun h => hnone (h ▸ rfl)
    have hzero : ∀ rest, digits = '0' :: rest → False := fun rest h => hzero rest (h ▸ rfl)
    have hfound := magnitudesOf?_eq hne hzero fun rest h => hplus rest (Or.inr (h ▸ rfl))
    have hopposites : ((magnitudesOf digits).filter Near).mapM opposite?
        = some (((magnitudesOf digits).filter Near).map Span.opposite) :=
      mapM_opposite? fun span => bounds_of_mem_magnitudesOf
    refine ⟨(((magnitudesOf digits).filter Near).map Span.opposite).reverse, ?_, ?_⟩
    · rw [hfound, Option.bind_eq_bind, Option.bind_some, hopposites]
      rfl
    · rw [spans_of_minus _ hne hzero, ← List.map_reverse, ← List.filter_reverse, ← List.map_reverse,
        List.map_map, List.flatMap_map, List.flatMap_map]
      exact flatMap_filter fun span hspan => (numbers_meet_of_not_near hspan).2
  · refine ⟨_, rfl, congrArg (fun span : Span => [span].flatMap Span.numbers) ?_⟩
    unfold Span.meet
    exact Prod.ext (by dsimp only; omega) (by dsimp only; omega)
  · exact ⟨_, rfl, rfl⟩
  · next rest hrest =>
    rw [spans]
    · exact ⟨_, rfl, rfl⟩
    · exact hrest
  · next hminus hempty hnotZero hzero =>
    refine ⟨_, magnitudesOf?_eq hempty hzero fun rest h => hplus rest (Or.inl h), ?_⟩
    rw [spans_of_digits _ hminus hempty hzero, List.flatMap_map]
    exact flatMap_filter fun span hspan => (numbers_meet_of_not_near hspan).1

theorem no_plus_of_canBegin {typed : String} (h : canBegin typed = true) (rest : List Char) :
    typed.toList = '+' :: rest ∨ typed.toList = '-' :: '+' :: rest → False := by
  unfold canBegin at h
  rintro (htyped | htyped)
  · rw [htyped] at h
    cases h
  · rw [htyped] at h
    cases h

/-- No operation overflows, and the numbers are those of the listing. -/
theorem listed?_eq {min max : Int64} {typed : String} (htyped : canBegin typed = true)
    (limit : Nat) : listed? min max typed limit = some (listed min max typed limit) := by
  obtain ⟨found, hfound, hnumbers⟩ := spans?_eq min max (no_plus_of_canBegin htyped)
  have hnarrow : ∀ i ∈ ((spans (min.toInt, max.toInt) typed.toList).flatMap Span.numbers).take
      limit, narrow? i = some (Int64.ofInt i) := by
    intro i hi
    have hi := List.mem_of_mem_take hi
    rw [flatMap_numbers_spans htyped] at hi
    obtain ⟨hlow, hhigh⟩ := Span.mem_numbers.1 (List.mem_filter.1 hi).1
    exact if_pos ⟨Int.le_trans min.minValue_le_toInt hlow,
      Int.le_trans hhigh (Int.le_of_lt_add_one max.toInt_lt)⟩
  unfold listed? listed
  dsimp only
  rw [hfound, Option.bind_eq_bind, Option.bind_some, hnumbers,
    List.filterMap_eq_map_iff_forall_eq_some.2 hnarrow, firstOf_eq]
  rfl

end Register

-- ============================================================ the argument

theorem alone_map {β : Type} (l : List β) (f : β → Suggestion) :
    SuggestionGroup.alone (l.map f) = if l = [] then [] else [l.map f] := by
  cases l <;> rfl

/-- For every text that could begin a number, the listing and its form with
checked operations give the first numbers between the bounds whose text
begins with it, as many as the limit allows. An argument with both bounds
proposes the first twenty of them as one group, or no group. -/
theorem listed_exactly {min max : Int64} {typed : String} (htyped : canBegin typed = true) :
    (∀ limit, listed min max typed limit = (scan min max typed).take limit
      ∧ Register.listed? min max typed limit = some ((scan min max typed).take limit))
    ∧ (∀ n, n ∈ scan min max typed ↔
        min ≤ n ∧ n ≤ max ∧ begins (toString n.toInt) typed = true)
    ∧ (scan min max typed).Pairwise (· < ·)
    ∧ ∀ (hint : Hint) (line : Line), line.current = typed →
        (Number.Bounded.mk (some min) (some max) hint).suggest line
          = if scan min max typed = [] then []
            else [((scan min max typed).take 20).map fun n =>
              hint.accepted (toString n.toInt)] := by
  refine ⟨fun limit => ?_, fun n => mem_scan, pairwise_scan .., fun hint line hline => ?_⟩
  · have hlisted : listed min max typed limit = (scan min max typed).take limit :=
      listed_eq_take_scan htyped limit
    exact ⟨hlisted, (Register.listed?_eq htyped limit).trans (congrArg some hlisted)⟩
  · have hempty : (scan min max typed).take 20 = [] ↔ scan min max typed = [] :=
      List.take_eq_nil_iff.trans (or_iff_right (by omega))
    have hbegin : Number.canBegin Int64 typed = true := htyped
    have hlisted : Number.listed min max typed Number.suggestionLimit
        = (scan min max typed).take 20 := listed_eq_take_scan htyped 20
    unfold Number.Bounded.suggest
    rw [hline, if_pos hbegin]
    dsimp only
    rw [hlisted, alone_map]
    exact if_congr hempty rfl rfl

/-- One more digit begins every number of the last span of 64 bits, and
the smallest number is not left out. -/
theorem listed_exactly_of_smallest :
    canBegin "-922337203685477580" = true
      ∧ listed Int64.minValue Int64.maxValue "-922337203685477580" 3
        = (scan Int64.minValue Int64.maxValue "-922337203685477580").take 3
      ∧ listed Int64.minValue Int64.maxValue "-922337203685477580" 3
        = [Int64.minValue, Int64.minValue + 1, Int64.minValue + 2] := by
  refine ⟨by decide +kernel, ?_, by decide +kernel⟩
  exact ((listed_exactly (by decide +kernel)).1 3).1

end CommandGrammar.Integer
