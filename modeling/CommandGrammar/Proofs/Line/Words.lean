/-
The words of a typed text. `word` reads a stretch at a time: plain
characters are taken as they stand (`word_of_plain`), what is written
between quotes is taken with its backslashes undone (`word_of_quoted`),
and a separator or the end of the text ends the word (`word_of_ends`).
So at every boundary of a word the rest of the text is all that is left
to know, and `words` is followed from one word to the next: separators
in front are skipped (`words_of_separators`), and then comes the first
word (`words_of_word`).

From this every list of words can be typed (`ofText_typed`): between
quotes of either kind a word may be empty, or made of blanks, of
backslashes or of quotes.
-/
import CommandGrammar.Line
import CommandGrammar.Proofs.Text

namespace CommandGrammar.Line

open Text

-- =============================================================== one word

section Word

variable {text rest : List Char}

/-- Where a word ends: at the end of a text or before a separator. -/
def Ends (rest : List Char) : Prop :=
  ∀ c ∈ rest.head?, isSeparator c = true

theorem ends_nil : Ends [] := nofun

theorem ends_cons {c : Char} (h : isSeparator c = true) (rest : List Char) : Ends (c :: rest) := by
  rintro d ⟨⟩
  exact h

theorem word_of_ends (h : Ends rest) : word none rest = ([], rest) := by
  cases rest with
  | nil => rw [word]
  | cons c rest =>
      have hc : isSeparator c = true := h c rfl
      have hslash : c ≠ '\\' := by
        rintro rfl
        cases hc
      rw [word.eq_def]
      dsimp only
      rw [if_neg hslash, if_neg (Option.some_ne_none c).symm, if_pos ⟨rfl, hc⟩]

/-- Characters that are neither separators nor quotes nor backslashes stand
for themselves. -/
theorem word_of_plain (h : ∀ c ∈ text, isSeparator c = false ∧ isQuote c = false ∧ c ≠ '\\') :
    word none (text ++ rest) = (word none rest).map (text ++ ·) id := by
  induction text with
  | nil => rfl
  | cons c text ih =>
      obtain ⟨⟨hseparator, hquote, hslash⟩, htext⟩ := List.forall_mem_cons.1 h
      rw [List.cons_append, word.eq_def]
      dsimp only
      rw [if_neg hslash, if_neg (Option.some_ne_none c).symm, hseparator, hquote, ih htext]
      rfl

/-- In quotes, what is escaped for them is read back up to the closing one. -/
theorem word_of_escaped {q : Char} (hq : q ≠ '\\') :
    word (some q) (escape q text ++ q :: rest) = (word none rest).map (text ++ ·) id := by
  induction text with
  | nil =>
      show word (some q) (q :: rest) = word none rest
      rw [word.eq_def]
      dsimp only
      rw [if_neg hq, if_pos rfl]
  | cons c text ih =>
      by_cases hspecial : c = q ∨ c = '\\'
      · rw [escape_cons_of_special hspecial, List.cons_append, List.cons_append, word.eq_def]
        dsimp only
        rw [if_pos rfl, ih]
        rfl
      · rw [escape_cons_of_plain hspecial, List.cons_append, word.eq_def]
        obtain ⟨hclosing, hslash⟩ := not_or.1 hspecial
        dsimp only
        rw [if_neg hslash, if_neg fun hsome => hclosing (Option.some.inj hsome).symm,
          if_neg fun hnone => Option.some_ne_none q hnone.1,
          if_neg fun hnone => Option.some_ne_none q hnone.1, ih]
        rfl

end Word

-- ============================================================== all words

section Words

variable {gap text first rest : List Char}

theorem words_eq (text : List Char) :
    words text = match text.dropWhile isSeparator with
      | [] => ([], !text.isEmpty)
      | c :: rest =>
          (words (word none (c :: rest)).2).map ((word none (c :: rest)).1 :: ·) id := by
  rw [words]
  split
  case h_1 hnil => simp only [hnil]
  case h_2 c rest hcons => simp only [hcons]

/-- A text of separators has no word, and ends with a space if there are
any. -/
theorem words_of_only_separators (h : ∀ c ∈ gap, isSeparator c = true) :
    words gap = ([], !gap.isEmpty) := by
  rw [words_eq, List.dropWhile_eq_nil_iff.2 h]

/-- Separators in front of a text are skipped. -/
theorem words_of_separators (h : ∀ c ∈ gap, isSeparator c = true) (hne : text ≠ []) :
    words (gap ++ text) = words text := by
  have hboth : (gap ++ text).isEmpty = text.isEmpty := by
    cases text with
    | nil => exact absurd rfl hne
    | cons c text => cases gap <;> rfl
  rw [words_eq, words_eq text, List.dropWhile_append_of_pos h, hboth]

/-- A text that does not begin with a separator begins with a word. -/
theorem words_of_word (hstart : ¬Ends (text ++ rest)) (hends : Ends rest)
    (hword : word none (text ++ rest) = (word none rest).map (first ++ ·) id) :
    words (text ++ rest) = (words rest).map (first :: ·) id := by
  rw [word_of_ends hends] at hword
  cases hboth : text ++ rest with
  | nil => exact absurd (hboth ▸ ends_nil) hstart
  | cons c others =>
      rw [hboth] at hstart hword
      rw [words_eq, List.dropWhile_cons_of_neg fun hc => hstart (ends_cons hc others)]
      dsimp only
      rw [hword]
      show (words rest).map ((first ++ []) :: ·) id = _
      rw [List.append_nil]

end Words

-- ============================================================ plain texts

/-- A text that is a single word as it stands. -/
def Plain (text : String) : Prop :=
  text ≠ "" ∧ ∀ c ∈ text.toList, isSeparator c = false ∧ isQuote c = false ∧ c ≠ '\\'

/-- A plain text before the end of a word is the word. -/
theorem words_of_plain {text : String} (h : Plain text) {rest : List Char} (hends : Ends rest) :
    words (text.toList ++ rest) = (words rest).map (text.toList :: ·) id := by
  refine words_of_word (fun hstart => ?_) hends (word_of_plain h.2)
  obtain ⟨c, others, hcons⟩ := List.exists_cons_of_ne_nil
    fun hnil => h.1 (String.toList_eq_nil_iff.1 hnil)
  have hplain := (h.2 c (hcons ▸ List.mem_cons_self ..)).1
  rw [hstart c (by rw [hcons]; rfl)] at hplain
  cases hplain

/-- A plain text is split into itself. -/
theorem ahead_ofText_of_plain {text : String} (h : Plain text) : (ofText text).ahead = [text] := by
  have hwords := words_of_plain h ends_nil
  rw [List.append_nil, words_of_only_separators (List.forall_mem_nil _)] at hwords
  show (words text.toList).1.map String.ofList = [text]
  rw [hwords]
  exact congrArg (· :: []) String.ofList_toList

-- ============================================================ typed texts

/-- The quotes that a word can be written in. -/
inductive Quote where
  | single
  | double

/-- The character of a quote. -/
def Quote.char : Quote → Char
  | single => '\''
  | double => '"'

theorem Quote.isQuote_char (quote : Quote) : isQuote quote.char = true := by
  cases quote <;> rfl

/-- A run of separators, at least one. -/
structure Run where
  /-- The separators. -/
  chars : List Char
  nonempty : chars ≠ []
  separators : ∀ c ∈ chars, isSeparator c = true

/-- The separators of a run that may be left out. -/
def Run.optional : Option Run → List Char
  | some run => run.chars
  | none => []

/-- A word with the quotes it is written in, and the run that parts it from
the word behind it. -/
structure Typed where
  /-- The word. -/
  word : String
  /-- The quotes around it. -/
  quote : Quote
  /-- The run behind it, where a word follows. -/
  gap : Run

/-- The word between its quotes. -/
def Typed.quoted (typed : Typed) : List Char :=
  typed.quote.char :: (escape typed.quote.char typed.word.toList ++ [typed.quote.char])

/-- Words between their quotes with the runs between them. -/
def joined : List Typed → List Char
  | [] => []
  | [typed] => typed.quoted
  | typed :: next :: rest => typed.quoted ++ (typed.gap.chars ++ joined (next :: rest))

/-- Words as they are typed, with a run in front and one behind, each of
which may be left out. -/
def typedText (lead : Option Run) (words : List Typed) (trail : Option Run) : String :=
  String.ofList (Run.optional lead ++ (joined words ++ Run.optional trail))

theorem Run.ends (run : Run) (rest : List Char) : Ends (run.chars ++ rest) := by
  obtain ⟨c, others, hcons⟩ := List.exists_cons_of_ne_nil run.nonempty
  rw [hcons]
  exact ends_cons (run.separators c (hcons ▸ List.mem_cons_self ..)) _

theorem Run.separators_optional (run : Option Run) :
    ∀ c ∈ Run.optional run, isSeparator c = true := by
  cases run with
  | none => nofun
  | some run => exact run.separators

theorem Run.optional_eq_nil_iff {run : Option Run} : Run.optional run = [] ↔ run = none := by
  cases run with
  | none => exact iff_of_true rfl rfl
  | some run => exact iff_of_false run.nonempty (Option.some_ne_none run)

/-- A word begins at its opening quote and goes on behind the closing one. -/
theorem word_of_quoted (typed : Typed) (rest : List Char) :
    ¬Ends (typed.quoted ++ rest)
      ∧ word none (typed.quoted ++ rest) = (word none rest).map (typed.word.toList ++ ·) id := by
  have hquote := typed.quote.isQuote_char
  have hseparator : isSeparator typed.quote.char = false := by cases typed.quote <;> rfl
  have hslash : typed.quote.char ≠ '\\' := by cases typed.quote <;> decide
  refine ⟨fun hends => ?_, ?_⟩
  · rw [hends _ rfl] at hseparator
    cases hseparator
  · unfold Typed.quoted
    rw [List.cons_append, List.append_assoc, List.singleton_append, word.eq_def]
    dsimp only
    rw [if_neg hslash, if_neg (Option.some_ne_none _).symm, hseparator,
      if_neg (fun h => Bool.false_ne_true h.2), if_pos ⟨rfl, hquote⟩, word_of_escaped hslash]

/-- Each word is read back from between its quotes. -/
theorem words_joined {typed : List Typed} (hne : typed ≠ []) {rest : List Char} (h : Ends rest) :
    joined typed ≠ [] ∧ words (joined typed ++ rest)
      = (words rest).map (typed.map (·.word.toList) ++ ·) id := by
  induction typed using joined.induct with
  | case1 => exact absurd rfl hne
  | case2 typed =>
      obtain ⟨hstart, hword⟩ := word_of_quoted typed rest
      exact ⟨List.cons_ne_nil _ _, words_of_word hstart h hword⟩
  | case3 typed next others ih =>
      obtain ⟨hothers, hrest⟩ := ih (List.cons_ne_nil _ _)
      have hends := typed.gap.ends (joined (next :: others) ++ rest)
      obtain ⟨hstart, hword⟩ := word_of_quoted typed _
      refine ⟨List.cons_ne_nil _ _, ?_⟩
      rw [joined, List.append_assoc, List.append_assoc, words_of_word hstart hends hword,
        words_of_separators typed.gap.separators (by simp [hothers]), hrest]
      rfl

/-- Every list of words can be typed. Written between quotes, with runs of
separators between them, the words of a text are exactly those, whatever
characters they are made of; and the text ends with a space exactly if a run
ends it, which is the one in front where there are no words. -/
theorem ofText_typed (lead : Option Run) (typed : List Typed) (trail : Option Run) :
    let line := ofText (typedText lead typed trail)
    line.ahead = typed.map Typed.word ∧ line.index = 0
      ∧ (line.trailingSpace = true ↔ trail.isSome ∨ typed = [] ∧ lead.isSome) := by
  have hends : Ends (Run.optional trail) := by
    cases trail with
    | none => exact ends_nil
    | some run =>
        have hrun := run.ends []
        rwa [List.append_nil] at hrun
  have hwords : words (typedText lead typed trail).toList
      = (typed.map (·.word.toList), trail.isSome || typed.isEmpty && lead.isSome) := by
    unfold typedText
    rw [String.toList_ofList]
    by_cases hnil : typed = []
    · subst hnil
      rw [joined, List.nil_append, words_of_only_separators fun c hc => (List.mem_append.1 hc).elim
        (Run.separators_optional lead c) (Run.separators_optional trail c)]
      cases lead <;> cases trail <;> simp [Run.optional_eq_nil_iff]
    · have htyped : typed.isEmpty = false := List.isEmpty_eq_false_iff.2 hnil
      obtain ⟨hne, hjoined⟩ := words_joined hnil hends
      rw [words_of_separators (Run.separators_optional lead) (by simp [hne]), hjoined,
        words_of_only_separators (Run.separators_optional trail), htyped]
      cases trail <;> simp [Run.optional_eq_nil_iff]
  refine ⟨?_, rfl, ?_⟩
  · show (words _).1.map String.ofList = _
    rw [hwords, List.map_map]
    exact List.map_congr_left fun typed _ => String.ofList_toList
  · show (words _).2 = true ↔ _
    rw [hwords]
    simp

/-- An empty word, and one of a quote, a backslash and a space; the text does
not end with a space, because that one is quoted. -/
example :
    let gap : Run := ⟨['\t', ' '], by decide, List.all_eq_true.1 (by decide)⟩
    let text := typedText none [⟨"", .double, gap⟩, ⟨"'\\ ", .single, gap⟩] none
    text = "\"\"\t '\\'\\\\ '" ∧ (ofText text).ahead = ["", "'\\ "]
      ∧ (ofText text).trailingSpace = false := by
  decide +kernel

end CommandGrammar.Line
