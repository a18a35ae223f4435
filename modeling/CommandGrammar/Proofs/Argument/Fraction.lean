/-
Words for fractions. A word writes one if it is a minus sign or none, then
digits with a point between, before or behind them or no point at all, then
a letter of the format or none (`Writes`). Exactly these words are read; the
answer is the nearest number of the format, or a refusal for the size if the
decimal lies beyond its end (`Answers`).

Reading can be spread over three stages that know less of each other. A
search with a pattern lets the digits of any script pass; then the letters
at the end are taken off and a point without digits on one side gets a zero
there; and the rest is left to a reader of decimals that knows ASCII alone
(`staged`). What the first stage lets pass beyond the words above is refused
by the last, for a digit of another script is no ASCII character, and the
zeros do not change the number (`staged_eq_read`). The pattern and the
reader of decimals are any two that do what `Tools.Conform` says.
-/
import CommandGrammar.Argument.Fraction
import CommandGrammar.Proofs.Decimal.Overflow
import CommandGrammar.Proofs.Text

namespace CommandGrammar.Fraction

open Decimal Text

-- powers of naturals are the core library's, whatever else is imported
attribute [local instance (2000)] instPowNat

-- ============================================================ the decimals

/-- The text of a sign. -/
def sign (negative : Bool) : List Char :=
  if negative then ['-'] else []

/-- Digits and a point, if there is one: those before it, those behind it,
and the whole. -/
inductive Body (p : Char → Bool) : List Char → List Char → List Char → Prop where
  /-- The point stands between digits. -/
  | inner {whole decimals : List Char} (hwhole : Stretch p whole) (hdecimals : Stretch p decimals) :
      Body p whole decimals (whole ++ '.' :: decimals)
  /-- The point comes last. -/
  | last {whole : List Char} (hwhole : Stretch p whole) : Body p whole [] (whole ++ ['.'])
  /-- The point comes first. -/
  | first {decimals : List Char} (hdecimals : Stretch p decimals) :
      Body p [] decimals ('.' :: decimals)
  /-- There is no point. -/
  | bare {whole : List Char} (hwhole : Stretch p whole) : Body p whole [] whole

/-- A text writes a decimal: its sign, and its digits before the point and
behind. -/
inductive Writes (p : Char → Bool) (naming : Naming) :
    List Char → Bool → List Char → List Char → Prop where
  /-- Nothing follows the digits. -/
  | plain {whole decimals body : List Char} (negative : Bool) (h : Body p whole decimals body) :
      Writes p naming (sign negative ++ body) negative whole decimals
  /-- A letter of the format follows them. -/
  | lettered {whole decimals body : List Char} (negative : Bool) (h : Body p whole decimals body)
      {letter : Char} (hletter : letter ∈ naming.letters) :
      Writes p naming (sign negative ++ (body ++ [letter])) negative whole decimals

/-- A kind of characters that has, of the ASCII characters, the digits. -/
def Numeric (p : Char → Bool) : Prop :=
  ∀ c : Char, c.toNat < 128 → p c = c.isDigit

/-- The letters of a format are ASCII characters that are no part of a
decimal. -/
def Naming.Apart (naming : Naming) : Prop :=
  ∀ c ∈ naming.letters, c.toNat < 128 ∧ c.isDigit = false ∧ c ≠ '.'

theorem apart_float : float.Apart := by
  simp [Naming.Apart, float]

theorem apart_double : double.Apart := by
  simp [Naming.Apart, double]

theorem toNat_lt_of_isDigit {c : Char} (h : c.isDigit = true) : c.toNat < 128 := by
  simp only [Char.isDigit, Bool.and_eq_true, decide_eq_true_eq, UInt32.le_iff_toNat_le] at h
  exact Nat.lt_of_le_of_lt h.2 (by decide)

theorem numeric_isDigit : Numeric Char.isDigit :=
  fun _ _ => rfl

theorem numeric_isDecimalNumber : Numeric isDecimalNumber := by
  intro c hc
  rw [Bool.eq_iff_iff]
  refine ⟨fun h => ?_, isDecimalNumber_of_isDigit⟩
  obtain ⟨span, hspan, hmem⟩ := List.any_eq_true.1 h
  have hascii : ∀ span ∈ decimalNumbers, span.1 < 128 → span = (0x0030, 0x0039) := by decide
  simp only [Bool.and_eq_true, decide_eq_true_eq] at hmem
  rw [hascii span hspan (by omega)] at hmem
  simpa [Char.isDigit, UInt32.le_iff_toNat_le] using hmem

namespace Body

variable {p : Char → Bool} {whole decimals body : List Char}

theorem stretch (h : Body p whole decimals body) : Stretch p (whole ++ decimals) := by
  cases h with
  | inner hwhole hdecimals =>
      exact ⟨List.append_ne_nil_of_left_ne_nil hwhole.nonempty _,
        List.forall_mem_append.2 ⟨hwhole.all, hdecimals.all⟩⟩
  | last hwhole => rwa [List.append_nil]
  | first hdecimals => exact hdecimals
  | bare hwhole => rwa [List.append_nil]

/-- The digits are all there. -/
theorem sublist (h : Body p whole decimals body) : (whole ++ decimals).Sublist body := by
  cases h with
  | inner => exact (List.sublist_cons_self ..).append_left whole
  | last => exact (List.nil_sublist _).append_left whole
  | first => exact List.sublist_cons_self ..
  | bare => rw [List.append_nil]

/-- There is nothing but digits and the point. -/
theorem stretch_body (h : Body p whole decimals body) :
    Stretch (fun c => p c || c == '.') body := by
  have hdigit : ∀ {text}, Stretch p text → ∀ c ∈ text, (p c || c == '.') = true :=
    fun htext c hc => Bool.or_eq_true_iff.2 (.inl (htext.all c hc))
  have hpoint : (p '.' || '.' == '.') = true := Bool.or_eq_true_iff.2 (.inr (beq_self_eq_true _))
  refine ⟨fun hnil => h.stretch.nonempty (List.sublist_nil.1 (hnil ▸ h.sublist)), ?_⟩
  cases h with
  | inner hwhole hdecimals =>
      exact List.forall_mem_append.2
        ⟨hdigit hwhole, List.forall_mem_cons.2 ⟨hpoint, hdigit hdecimals⟩⟩
  | last hwhole =>
      exact List.forall_mem_append.2 ⟨hdigit hwhole, List.forall_mem_singleton.2 hpoint⟩
  | first hdecimals => exact List.forall_mem_cons.2 ⟨hpoint, hdigit hdecimals⟩
  | bare hwhole => exact hdigit hwhole

/-- Digits of one kind may be digits of another. -/
theorem of_stretch {q : Char → Bool} (h : Body p whole decimals body)
    (hq : ∀ c ∈ whole ++ decimals, q c = true) : Body q whole decimals body := by
  rw [List.forall_mem_append] at hq
  cases h with
  | inner hwhole hdecimals => exact .inner ⟨hwhole.nonempty, hq.1⟩ ⟨hdecimals.nonempty, hq.2⟩
  | last hwhole => exact .last ⟨hwhole.nonempty, hq.1⟩
  | first hdecimals => exact .first ⟨hdecimals.nonempty, hq.2⟩
  | bare hwhole => exact .bare ⟨hwhole.nonempty, hq.1⟩

/-- The parts are those around the first point. -/
theorem splitPoint_eq (hp : p '.' = false) (h : Body p whole decimals body) :
    splitPoint body = (whole, decimals) := by
  have hne : ∀ {c : Char}, p c = true → (c != '.') = true := fun {c} hc =>
    bne_iff_ne.2 fun heq => Bool.false_ne_true (hp.symm.trans (heq ▸ hc))
  have hpoint : ('.' != '.') = false := bne_self_eq_false ..
  unfold splitPoint
  cases h with
  | inner hwhole =>
      have hall := fun d hd => hne (hwhole.all d hd)
      rw [takeWhile_append_cons hall hpoint, dropWhile_append_cons hall hpoint]
      rfl
  | last hwhole =>
      have hall := fun d hd => hne (hwhole.all d hd)
      rw [takeWhile_append_cons hall hpoint, dropWhile_append_cons hall hpoint]
      rfl
  | first => rfl
  | bare hwhole =>
      have hall := fun d hd => hne (hwhole.all d hd)
      rw [List.takeWhile_eq_self_iff.2 hall, List.dropWhile_eq_nil_iff.2 hall]
      rfl

/-- Digits around the first point, or none, make the text up. -/
theorem of_splitPoint (h : Stretch p ((splitPoint body).1 ++ (splitPoint body).2)) :
    Body p (splitPoint body).1 (splitPoint body).2 body := by
  have hsplit := List.takeWhile_append_dropWhile (p := (· != '.')) (l := body)
  unfold splitPoint at h ⊢
  dsimp only at h ⊢
  generalize body.takeWhile (· != '.') = whole at h hsplit ⊢
  rcases hrest : body.dropWhile (· != '.') with - | ⟨c, decimals⟩
  · rw [hrest] at h hsplit
    rw [List.append_nil] at hsplit
    rw [List.drop_nil, List.append_nil] at h
    exact hsplit ▸ .bare h
  · have hc : c = '.' := by simpa using eq_false_of_dropWhile hrest
    rw [hrest] at h hsplit
    subst hc
    rw [List.drop_succ_cons, List.drop_zero] at h ⊢
    rw [← hsplit]
    have hall := List.forall_mem_append.1 h.all
    rcases whole with - | ⟨w, whole⟩
    · exact .first h
    · rcases decimals with - | ⟨d, decimals⟩
      · exact .last ⟨List.cons_ne_nil _ _, hall.1⟩
      · exact .inner ⟨List.cons_ne_nil _ _, hall.1⟩ ⟨List.cons_ne_nil _ _, hall.2⟩

end Body

-- ============================================== taking a word to pieces

variable {p : Char → Bool} {naming : Naming} {text whole decimals body : List Char}
variable {negative : Bool}

theorem mem_sign {c : Char} (h : c ∈ sign negative) : c = '-' := by
  cases negative with
  | true => exact List.mem_singleton.1 h
  | false => cases h

theorem sign_splitSign (text : List Char) :
    sign (splitSign text).1 ++ (splitSign text).2 = text := by
  unfold splitSign
  split <;> rfl

theorem splitSign_sign (h : text.head? ≠ some '-') :
    splitSign (sign negative ++ text) = (negative, text) := by
  cases negative with
  | true => rfl
  | false =>
      show splitSign text = _
      unfold splitSign
      split
      · exact absurd rfl h
      · rfl

theorem dropLetter_of_getLast? (h : ∀ c ∈ naming.letters, text.getLast? ≠ some c) :
    dropLetter naming text = text := by
  unfold dropLetter
  split
  · next c hc => exact if_neg fun hmem => h c hmem hc
  · rfl

theorem dropLetter_concat {letter : Char} (h : letter ∈ naming.letters) :
    dropLetter naming (text ++ [letter]) = text := by
  unfold dropLetter
  rw [List.getLast?_concat]
  dsimp only
  rw [if_pos h, List.dropLast_concat]

/-- At most a letter is dropped. -/
theorem dropLetter_cases (naming : Naming) (text : List Char) :
    dropLetter naming text = text
      ∨ ∃ letter ∈ naming.letters, text = dropLetter naming text ++ [letter] := by
  unfold dropLetter
  split
  · next c hc =>
      split
      · next hmem => exact .inr ⟨c, hmem, (List.dropLast_append_getLast? c hc).symm⟩
      · exact .inl rfl
  · exact .inl rfl

theorem rdropWhile_letters_eq (h : ∀ c ∈ naming.letters, text.getLast? ≠ some c) :
    text.rdropWhile (· ∈ naming.letters) = text :=
  List.rdropWhile_eq_self_iff.2 fun hne hlast =>
    h _ (of_decide_eq_true hlast) (List.getLast?_eq_getLast_of_ne_nil hne)

/-- What is left without sign and letter tells what a text writes. -/
theorem writes_of_body (h : Body p whole decimals (dropLetter naming (splitSign text).2)) :
    Writes p naming text (splitSign text).1 whole decimals := by
  have htext := sign_splitSign text
  generalize splitSign text = parts at h htext ⊢
  obtain ⟨negative, rest⟩ := parts
  subst htext
  dsimp only at h ⊢
  rcases dropLetter_cases naming rest with heq | ⟨letter, hletter, heq⟩
  · rw [heq] at h
    exact .plain negative h
  · generalize dropLetter naming rest = body at h heq
    subst heq
    exact .lettered negative h hletter

section Apart

variable (hp : Numeric p)
include hp

theorem Numeric.not_minus : (p '-' || '-' == '.') = false := by
  rw [hp '-' (by decide)]
  decide

theorem Numeric.not_point : p '.' = false :=
  hp '.' (by decide)

theorem Numeric.of_isDigit {c : Char} (h : c.isDigit = true) : p c = true :=
  (hp c (toNat_lt_of_isDigit h)).trans h

theorem Body.getLast?_ne (hnaming : naming.Apart) (h : Body p whole decimals body)
    (front : List Char) : ∀ c ∈ naming.letters, (front ++ body).getLast? ≠ some c := by
  intro c hc
  obtain ⟨hascii, hdigit, hpoint⟩ := hnaming c hc
  refine h.stretch_body.getLast?_append_ne ?_ front
  rw [hp c hascii, hdigit, beq_eq_false_iff_ne.2 hpoint]
  rfl

/-- What a text writes is found by taking off the sign and a letter. Taking
off any letters before the sign comes to the same. -/
theorem Writes.pieces (hnaming : naming.Apart) (h : Writes p naming text negative whole decimals) :
    (splitSign text).1 = negative
      ∧ Body p whole decimals (dropLetter naming (splitSign text).2)
      ∧ splitSign (text.rdropWhile (· ∈ naming.letters))
        = (negative, dropLetter naming (splitSign text).2) := by
  cases h with
  | @plain _ _ body negative h =>
      have hend := h.getLast?_ne hp hnaming
      have hdrop : dropLetter naming body = body := dropLetter_of_getLast? (hend [])
      have hsign := h.stretch_body.head?_append_ne hp.not_minus []
      rw [List.append_nil] at hsign
      rw [rdropWhile_letters_eq (hend (sign negative)), splitSign_sign hsign]
      dsimp only
      rw [hdrop]
      exact ⟨rfl, h, rfl⟩
  | @lettered _ _ body negative h letter hletter =>
      have hend := h.getLast?_ne hp hnaming
      have hsign := h.stretch_body.head?_append_ne hp.not_minus
      have hbare := hsign []
      rw [List.append_nil] at hbare
      rw [← List.append_assoc, List.rdropWhile_concat, if_pos (decide_eq_true hletter),
        rdropWhile_letters_eq (hend (sign negative)), List.append_assoc,
        splitSign_sign (hsign [letter]), splitSign_sign hbare]
      dsimp only
      rw [dropLetter_concat hletter]
      exact ⟨rfl, h, rfl⟩

end Apart

-- =============================================================== reading

/-- What a reader of decimals finds: a number of the format, or one beyond its
end. -/
inductive Parsed (f : Format) where
  /-- The nearest number. -/
  | finite (x : Binary f)
  /-- There is none on this side of the bound. -/
  | infinite (negative : Bool)

namespace Parsed

variable {f : Format}

/-- A decimal, rounded. -/
def ofRatio (f : Format) (negative : Bool) (num den : Nat) : Parsed f :=
  match Binary.ofRatio? f negative num den with
  | some x => .finite x
  | none => .infinite negative

theorem ofRatio_mul_mul {c : Nat} (hc : 0 < c) (f : Format) (negative : Bool) (num den : Nat) :
    ofRatio f negative (c * num) (c * den) = ofRatio f negative num den := by
  unfold ofRatio
  rw [Binary.ofRatio?_mul_mul hc]

/-- A number is bound; one beyond the end is refused with the last one before
it. -/
def answer : Parsed f → Except Refusal (Binary f)
  | .finite x => .ok x
  | .infinite negative =>
      .error <|
        if negative then .numberTooSmall (Binary.largest f negative).text
        else .numberTooBig (Binary.largest f negative).text

theorem answer_ne (kind : String) : ∀ parsed : Parsed f,
    parsed.answer ≠ .error (.invalidFormat kind)
  | .finite x => fun h => by cases h
  | .infinite true => fun h => by cases h
  | .infinite false => fun h => by cases h

end Parsed

/-- What the written parts of a decimal are read as. -/
def parsed (f : Format) (negative : Bool) (whole decimals : List Char) : Parsed f :=
  .ofRatio f negative (digitsValue (whole ++ decimals)) (10 ^ decimals.length)

variable {f : Format} {word : String}

theorem read_of_writes (hnaming : naming.Apart)
    (h : Writes Char.isDigit naming word.toList negative whole decimals) :
    read f naming word = (parsed f negative whole decimals).answer := by
  obtain ⟨rfl, hbody, -⟩ := h.pieces numeric_isDigit hnaming
  have hempty : (whole ++ decimals).isEmpty = false :=
    List.isEmpty_eq_false_iff.2 hbody.stretch.nonempty
  have hall : (whole ++ decimals).all Char.isDigit = true := List.all_eq_true.2 hbody.stretch.all
  unfold read parsed Parsed.ofRatio
  dsimp only
  rw [hbody.splitPoint_eq (by decide)]
  dsimp only
  rw [hempty, hall, Bool.not_true, Bool.or_false, if_neg Bool.false_ne_true]
  cases Binary.ofRatio? f (splitSign word.toList).1 (digitsValue (whole ++ decimals))
      (10 ^ decimals.length) with
  | some x => rfl
  | none => cases (splitSign word.toList).1 <;> rfl

theorem read_of_not_writes
    (h : ∀ negative whole decimals,
      ¬Writes Char.isDigit naming word.toList negative whole decimals) :
    read f naming word = .error (.invalidFormat naming.kind) := by
  unfold read
  dsimp only
  split
  · rfl
  · next hdigits =>
      rw [Bool.or_eq_true, not_or, Bool.not_eq_true, List.isEmpty_eq_false_iff,
        Bool.not_eq_true, Bool.not_eq_false', List.all_eq_true] at hdigits
      exact absurd (writes_of_body (Body.of_splitPoint ⟨hdigits.1, hdigits.2⟩)) (h _ _ _)

-- ================================================================ stages

/-- A point without digits on one side gets a zero there. -/
def complete (digits : List Char) : List Char :=
  (if digits.head? = some '.' then ['0'] else [])
    ++ (digits ++ if digits.getLast? = some '.' then ['0'] else [])

/-- What the stages leave to others. -/
structure Tools (f : Format) where
  /-- Whether a text as a whole is an instance of the pattern: a minus sign or
  none, then digits with a point between, behind or before them or without
  one, then a letter of the format or none. -/
  isMatch : List Char → Bool
  /-- The number of a decimal, unless it is none. -/
  parse : List Char → Option (Parsed f)

/-- Reads a word in stages. -/
def staged (tools : Tools f) (naming : Naming) (word : String) : Except Refusal (Binary f) :=
  if tools.isMatch word.toList then
    let (negative, digits) := splitSign (word.toList.rdropWhile (· ∈ naming.letters))
    match tools.parse (sign negative ++ complete digits) with
    | some found => found.answer
    | none => .error (.invalidFormat naming.kind)
  else .error (.invalidFormat naming.kind)

/-- What is relied on: the pattern takes digits of some kind, ASCII digits
among them, and the reader of decimals rounds those that have a digit on
either side of a point, and knows no character beyond ASCII. -/
structure Tools.Conform (tools : Tools f) (p : Char → Bool) (naming : Naming) : Prop where
  /-- Of the ASCII characters the pattern's digits are the ASCII digits. -/
  numeric : Numeric p
  /-- The pattern. -/
  isMatch_iff : ∀ text, tools.isMatch text = true
    ↔ ∃ negative whole decimals, Writes p naming text negative whole decimals
  /-- A whole number is read. -/
  parse_bare : ∀ negative {whole}, Stretch Char.isDigit whole →
    tools.parse (sign negative ++ whole) = some (parsed f negative whole [])
  /-- A number with a point inside is read. -/
  parse_inner : ∀ negative {whole decimals}, Stretch Char.isDigit whole →
    Stretch Char.isDigit decimals →
    tools.parse (sign negative ++ (whole ++ '.' :: decimals))
      = some (parsed f negative whole decimals)
  /-- Other characters are not. -/
  parse_foreign : ∀ {text : List Char} {c : Char}, c ∈ text → 128 ≤ c.toNat →
    tools.parse text = none

theorem stretch_zero : Stretch Char.isDigit ['0'] :=
  ⟨List.cons_ne_nil _ _, List.forall_mem_singleton.2 rfl⟩

theorem digitsValue_append_zero (digits : List Char) :
    digitsValue (digits ++ ['0']) = 10 * digitsValue digits := by
  unfold digitsValue
  rw [List.foldl_append]
  rfl

section Conform

variable {tools : Tools f} (htools : tools.Conform p naming)
include htools

/-- A decimal that is completed is read as what was written. -/
theorem Tools.Conform.parse_complete (negative : Bool) (h : Body Char.isDigit whole decimals body) :
    tools.parse (sign negative ++ complete body) = some (parsed f negative whole decimals) := by
  have hpoint : Char.isDigit '.' = false := rfl
  unfold complete
  cases h with
  | inner hwhole hdecimals =>
      rw [if_neg (hwhole.head?_append_ne hpoint _),
        if_neg (List.append_cons .. ▸ hdecimals.getLast?_append_ne hpoint _), List.append_nil]
      exact htools.parse_inner negative hwhole hdecimals
  | last hwhole =>
      -- one digit more, which is a zero
      have hten : parsed f negative whole ['0'] = parsed f negative whole [] := by
        unfold parsed
        rw [digitsValue_append_zero, List.append_nil]
        exact Parsed.ofRatio_mul_mul (by decide) f negative _ 1
      rw [if_neg (hwhole.head?_append_ne hpoint _), List.getLast?_concat, if_pos rfl,
        List.append_assoc, ← hten]
      exact htools.parse_inner negative hwhole stretch_zero
  | first hdecimals =>
      have hlast : ('.' :: decimals).getLast? ≠ some '.' :=
        hdecimals.getLast?_append_ne hpoint ['.']
      rw [List.head?_cons, if_pos rfl, if_neg hlast, List.append_nil]
      exact htools.parse_inner negative stretch_zero hdecimals
  | bare hwhole =>
      have hhead := hwhole.head?_append_ne hpoint []
      have hlast : whole.getLast? ≠ some '.' := hwhole.getLast?_append_ne hpoint []
      rw [List.append_nil] at hhead
      rw [if_neg hhead, if_neg hlast, List.append_nil]
      exact htools.parse_bare negative hwhole

/-- The stages read what is read at once. -/
theorem staged_eq_read (hnaming : naming.Apart) (word : String) :
    staged tools naming word = read f naming word := by
  unfold staged
  by_cases hmatch : tools.isMatch word.toList = true
  · obtain ⟨negative, whole, decimals, hwrites⟩ := (htools.isMatch_iff _).1 hmatch
    obtain ⟨rfl, hbody, hpieces⟩ := hwrites.pieces htools.numeric hnaming
    rw [if_pos hmatch, hpieces]
    dsimp only
    by_cases hascii : ∀ c ∈ whole ++ decimals, c.isDigit = true
    · have hdigits := hbody.of_stretch hascii
      rw [htools.parse_complete _ hdigits, read_of_writes hnaming (writes_of_body hdigits)]
    · -- a digit of another script, which the reader of decimals does not know
      obtain ⟨c, hc, hforeign⟩ : ∃ c ∈ whole ++ decimals, ¬c.isDigit = true := by
        simpa only [not_forall, exists_prop] using hascii
      have hbeyond : 128 ≤ c.toNat := by
        by_contra hlt
        exact hforeign ((htools.numeric c (by omega)).symm.trans (hbody.stretch.all c hc))
      have hmem : c ∈ sign (splitSign word.toList).1
          ++ complete (dropLetter naming (splitSign word.toList).2) := by
        refine List.mem_append_right _ (List.mem_append_right _ (List.mem_append_left _ ?_))
        exact hbody.sublist.mem hc
      rw [htools.parse_foreign hmem hbeyond, read_of_not_writes]
      rintro negative others more hothers
      obtain ⟨-, hother, -⟩ := hothers.pieces numeric_isDigit hnaming
      have hsame := (hbody.splitPoint_eq htools.numeric.not_point).symm.trans
        (hother.splitPoint_eq rfl)
      injection hsame with hwhole hdecimals
      exact hforeign (hother.stretch.all c (hwhole ▸ hdecimals ▸ hc))
  · rw [if_neg hmatch, read_of_not_writes]
    intro negative whole decimals hwrites
    obtain ⟨-, hbody, -⟩ := hwrites.pieces numeric_isDigit hnaming
    refine hmatch ((htools.isMatch_iff _).2 ⟨_, _, _, writes_of_body (hbody.of_stretch ?_)⟩)
    exact fun c hc => htools.numeric.of_isDigit (hbody.stretch.all c hc)

end Conform

-- ============================================================ the answers

/-- What a word is answered. -/
structure Answers (f : Format) (naming : Naming) (word : String)
    (answer : Except Refusal (Binary f)) : Prop where
  /-- It is refused for its form exactly if it writes no decimal. -/
  invalidFormat_iff : answer = .error (.invalidFormat naming.kind)
    ↔ ¬∃ negative whole decimals, Writes Char.isDigit naming word.toList negative whole decimals
  /-- A decimal within the format is read as the nearest number. -/
  finite : ∀ {negative whole decimals},
    Writes Char.isDigit naming word.toList negative whole decimals →
    ¬f.Overflows (digitsValue (whole ++ decimals)) (10 ^ decimals.length) →
    ∃ x, Binary.ofRatio? f negative (digitsValue (whole ++ decimals)) (10 ^ decimals.length)
        = some x
      ∧ answer = .ok x
  /-- A positive one beyond its end is too big. -/
  tooBig : ∀ {whole decimals}, Writes Char.isDigit naming word.toList false whole decimals →
    f.Overflows (digitsValue (whole ++ decimals)) (10 ^ decimals.length) →
    answer = .error (.numberTooBig (Binary.largest f false).text)
  /-- A negative one is too small. -/
  tooSmall : ∀ {whole decimals}, Writes Char.isDigit naming word.toList true whole decimals →
    f.Overflows (digitsValue (whole ++ decimals)) (10 ^ decimals.length) →
    answer = .error (.numberTooSmall (Binary.largest f true).text)

theorem parsed_of_overflows {negative : Bool}
    (h : f.Overflows (digitsValue (whole ++ decimals)) (10 ^ decimals.length)) :
    parsed f negative whole decimals = .infinite negative := by
  unfold parsed Parsed.ofRatio
  rw [(Binary.ofRatio?_eq_none_iff f negative (Nat.pow_pos (by decide))).2 h]

theorem answers_read (f : Format) (hnaming : naming.Apart) (word : String) :
    Answers f naming word (read f naming word) where
  invalidFormat_iff := by
    constructor
    · rintro h ⟨negative, whole, decimals, hwrites⟩
      exact Parsed.answer_ne naming.kind _ ((read_of_writes hnaming hwrites).symm.trans h)
    · exact fun h => read_of_not_writes fun negative whole decimals hwrites =>
        h ⟨negative, whole, decimals, hwrites⟩
  finite {negative whole decimals} hwrites h := by
    rw [← Binary.ofRatio?_eq_none_iff f negative (Nat.pow_pos (by decide)), ← Ne,
      Option.ne_none_iff_exists'] at h
    obtain ⟨x, hx⟩ := h
    rw [read_of_writes hnaming hwrites, parsed, Parsed.ofRatio, hx]
    exact ⟨x, rfl, rfl⟩
  tooBig hwrites h := by
    rw [read_of_writes hnaming hwrites, parsed_of_overflows h]
    rfl
  tooSmall hwrites h := by
    rw [read_of_writes hnaming hwrites, parsed_of_overflows h]
    rfl

/-- A word for a fraction is refused for its form exactly if it is no decimal
with ASCII digits; a decimal is read as the nearest number or, beyond the end
of the format, refused for its size. In stages it is read alike. -/
theorem read_answers {p : Char → Bool} {single : Tools .single} {double : Tools .double}
    (hsingle : single.Conform p float) (hdouble : double.Conform p Fraction.double)
    (word : String) :
    (Answers .single float word (Number.read word)
        ∧ staged single float word = Number.read word)
      ∧ Answers .double Fraction.double word (Number.read word)
        ∧ staged double Fraction.double word = Number.read word :=
  ⟨⟨answers_read .single apart_float word, staged_eq_read hsingle apart_float word⟩,
    answers_read .double apart_double word, staged_eq_read hdouble apart_double word⟩

/-- Tools that look at the pieces of a text. The reader of decimals knows plain
ones alone, without an exponent. -/
def plainTools (f : Format) (p : Char → Bool) (naming : Naming) : Tools f where
  isMatch text :=
    let (whole, decimals) := splitPoint (dropLetter naming (splitSign text).2)
    !(whole ++ decimals).isEmpty && (whole ++ decimals).all p
  parse text :=
    let (negative, rest) := splitSign text
    let (whole, decimals) := splitPoint rest
    if !(whole ++ decimals).isEmpty && (whole ++ decimals).all Char.isDigit then
      some (parsed f negative whole decimals)
    else none

theorem conform_plainTools (f : Format) (hp : Numeric p) (hnaming : naming.Apart) :
    (plainTools f p naming).Conform p naming := by
  have hstretch : ∀ {q : Char → Bool} {text : List Char},
      (!text.isEmpty && text.all q) = true ↔ Stretch q text := by
    intro q text
    rw [Bool.and_eq_true, Bool.not_eq_true', List.isEmpty_eq_false_iff, List.all_eq_true]
    exact ⟨fun h => ⟨h.1, h.2⟩, fun h => ⟨h.nonempty, h.all⟩⟩
  have hparse : ∀ negative {whole decimals body}, Body Char.isDigit whole decimals body →
      (plainTools f p naming).parse (sign negative ++ body)
        = some (parsed f negative whole decimals) := by
    intro negative whole decimals body h
    have hsign := h.stretch_body.head?_append_ne numeric_isDigit.not_minus []
    rw [List.append_nil] at hsign
    unfold plainTools
    dsimp only
    rw [splitSign_sign hsign]
    dsimp only
    rw [h.splitPoint_eq rfl]
    exact if_pos (hstretch.2 h.stretch)
  refine ⟨hp, fun text => hstretch.trans ⟨fun h => ?_, ?_⟩, fun negative whole h => ?_,
    fun negative whole decimals hwhole hdecimals => ?_, fun {text c} hc hbeyond => ?_⟩
  · exact ⟨_, _, _, writes_of_body (Body.of_splitPoint h)⟩
  · rintro ⟨negative, whole, decimals, h⟩
    obtain ⟨-, hbody, -⟩ := h.pieces hp hnaming
    show Stretch p ((splitPoint _).1 ++ (splitPoint _).2)
    rw [hbody.splitPoint_eq hp.not_point]
    exact hbody.stretch
  · exact hparse negative (.bare h)
  · exact hparse negative (.inner hwhole hdecimals)
  · unfold plainTools
    dsimp only
    refine if_neg fun hdigits => ?_
    have hall := (Body.of_splitPoint (hstretch.1 hdigits)).stretch_body.all
    rw [← sign_splitSign text] at hc
    rcases List.mem_append.1 hc with hc | hc
    · rw [mem_sign hc] at hbeyond
      exact absurd hbeyond (by decide)
    · rcases Bool.or_eq_true_iff.1 (hall c hc) with hdigit | hpoint
      · exact Nat.not_le.2 (toNat_lt_of_isDigit hdigit) hbeyond
      · rw [eq_of_beq hpoint] at hbeyond
        exact absurd hbeyond (by decide)

/-- A point may come first or last, a digit of another script is let pass by the
pattern alone, and forty digits are too many for the smaller format. -/
theorem hanging_read_answers :
    staged (plainTools .single isDecimalNumber float) float "-.5f" = Number.read "-.5f"
      ∧ (∃ x : Binary .single, Binary.ofRatio? .single true 5 10 = some x
        ∧ Number.read "-.5f" = .ok x)
      ∧ (∃ x : Binary .double, Binary.ofRatio? .double false 12 1 = some x
        ∧ Number.read "12." = .ok x)
      ∧ (plainTools .single isDecimalNumber float).isMatch ['\u0665'] = true
      ∧ (Number.read "\u0665" : Except Refusal (Binary .single))
        = .error (.invalidFormat "float")
      ∧ (Number.read "-9999999999999999999999999999999999999999" : Except Refusal (Binary .single))
        = .error (.numberTooSmall (Binary.largest .single true).text) := by
  have answers := read_answers
    (conform_plainTools .single numeric_isDecimalNumber apart_float)
    (conform_plainTools .double numeric_isDecimalNumber apart_double)
  have digits : ∀ text : List Char, text ≠ [] → text.all Char.isDigit = true →
      Stretch Char.isDigit text := fun text hne hall => ⟨hne, List.all_eq_true.1 hall⟩
  have half : Writes Char.isDigit float "-.5f".toList true [] ['5'] :=
    .lettered true (.first (digits ['5'] (by decide) (by decide))) (by decide)
  have dozen : Writes Char.isDigit double "12.".toList false ['1', '2'] [] :=
    .plain false (.last (digits ['1', '2'] (by decide) (by decide)))
  have long : Writes Char.isDigit float "-9999999999999999999999999999999999999999".toList true
      "9999999999999999999999999999999999999999".toList [] :=
    .plain true (.bare (digits _ (by decide +kernel) (by decide +kernel)))
  refine ⟨(answers "-.5f").1.2, ?_, ?_, by decide, ?_, ?_⟩
  · have hvalue : digitsValue ([] ++ ['5']) = 5 := rfl
    have hread := (answers "-.5f").1.1.finite half
    rw [hvalue] at hread
    exact hread (by decide +kernel)
  · have hvalue : digitsValue (['1', '2'] ++ []) = 12 := rfl
    have hread := (answers "12.").2.1.finite dozen
    rw [hvalue] at hread
    exact hread (by decide +kernel)
  · refine (answers "\u0665").1.1.invalidFormat_iff.2 ?_
    rintro ⟨negative, whole, decimals, h⟩
    obtain ⟨-, hbody, -⟩ := h.pieces numeric_isDigit apart_float
    have hforeign := hbody.stretch_body.all '\u0665' (by decide)
    exact absurd hforeign (by decide)
  · exact (answers _).1.1.tooSmall long (by decide +kernel)

end CommandGrammar.Fraction
