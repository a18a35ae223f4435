/-
Reading back what was written, for the pieces that a spec is made of: a
stretch of characters up to one that ends it, a trimmed text, and a text
between quotes (`unquote_escape`).
-/
import CommandGrammar.Text.Blank
import CommandGrammar.Text.Quoted
import Mathlib.Data.List.DropRight
import Mathlib.Data.List.TakeWhile

namespace CommandGrammar.Text

-- ============================================================= stretches

/-- Characters of one kind, at least one. -/
structure Stretch (p : Char → Bool) (text : List Char) : Prop where
  /-- There is one. -/
  nonempty : text ≠ []
  /-- There is no other kind. -/
  all : ∀ c ∈ text, p c = true

section Stretch

variable {p : Char → Bool} {text rest : List Char} {c : Char}

/-- A stretch ends at the first character that does not continue it, or with
the text. -/
theorem takeWhile_append_of_head? (htext : ∀ d ∈ text, p d = true)
    (hrest : ∀ c ∈ rest.head?, p c = false) : (text ++ rest).takeWhile p = text := by
  rw [List.takeWhile_append_of_pos htext]
  cases rest with
  | nil => exact List.append_nil text
  | cons c rest => rw [List.takeWhile_cons_of_neg (by simp [hrest c rfl]), List.append_nil]

theorem dropWhile_append_of_head? (htext : ∀ d ∈ text, p d = true)
    (hrest : ∀ c ∈ rest.head?, p c = false) : (text ++ rest).dropWhile p = rest := by
  rw [List.dropWhile_append_of_pos htext]
  cases rest with
  | nil => rfl
  | cons c rest => exact List.dropWhile_cons_of_neg (by simp [hrest c rfl])

theorem takeWhile_append_cons (htext : ∀ d ∈ text, p d = true) (hc : p c = false) :
    (text ++ c :: rest).takeWhile p = text :=
  takeWhile_append_of_head? htext fun _ hd => Option.some.inj hd ▸ hc

theorem dropWhile_append_cons (htext : ∀ d ∈ text, p d = true) (hc : p c = false) :
    (text ++ c :: rest).dropWhile p = c :: rest :=
  dropWhile_append_of_head? htext fun _ hd => Option.some.inj hd ▸ hc

/-- It begins with its own kind. -/
theorem Stretch.head?_append_ne (h : Stretch p text) (hc : p c = false) (rest : List Char) :
    (text ++ rest).head? ≠ some c := by
  obtain ⟨d, others, rfl⟩ := List.exists_cons_of_ne_nil h.nonempty
  rintro ⟨⟩
  exact Bool.false_ne_true (hc.symm.trans (h.all c (List.mem_cons_self ..)))

/-- It ends with its own kind. -/
theorem Stretch.getLast?_append_ne (h : Stretch p text) (hc : p c = false) (front : List Char) :
    (front ++ text).getLast? ≠ some c := by
  rw [List.getLast?_append_of_ne_nil front h.nonempty]
  exact fun hlast =>
    Bool.false_ne_true (hc.symm.trans (h.all c (List.mem_of_getLast? hlast)))

/-- A stretch goes on as far as it can. -/
theorem eq_false_of_dropWhile (h : text.dropWhile p = c :: rest) : p c = false := by
  have hhead := List.head?_dropWhile_not p text
  rw [h] at hhead
  simpa using hhead

end Stretch

-- ============================================================== trimming

theorem trim_sublist (text : List Char) : (trim text).Sublist text :=
  (List.rdropWhile_prefix isBlank _).sublist.trans (List.dropWhile_sublist isBlank)

/-- Of blanks alone nothing is left. -/
theorem trim_eq_nil_iff {text : List Char} : trim text = [] ↔ ∀ c ∈ text, isBlank c = true := by
  rw [← List.dropWhile_eq_nil_iff]
  show List.rdropWhile isBlank (text.dropWhile isBlank) = [] ↔ _
  refine ⟨fun h => ?_, fun h => by rw [h]; rfl⟩
  rcases hrest : text.dropWhile isBlank with - | ⟨c, rest⟩
  · rfl
  · -- what is left begins with a character that is no blank
    have hc : isBlank c = false := eq_false_of_dropWhile hrest
    rw [hrest] at h
    rw [List.rdropWhile_eq_nil_iff.1 h c (List.mem_cons_self ..)] at hc
    cases hc

/-- A trimmed text does not begin with a blank. -/
theorem isBlank_of_trim_eq {c : Char} {rest : List Char} (h : trim (c :: rest) = c :: rest) :
    isBlank c = false := by
  by_contra hblank
  rw [Bool.not_eq_false] at hblank
  have hlength := congrArg List.length h
  rw [trim, List.dropWhile_cons_of_pos hblank] at hlength
  have hprefix := (List.rdropWhile_prefix isBlank (rest.dropWhile isBlank)).length_le
  have hdrop := (List.dropWhile_sublist isBlank (l := rest)).length_le
  change (List.rdropWhile isBlank (rest.dropWhile isBlank)).length = rest.length + 1 at hlength
  omega

theorem trim_trim (text : List Char) : trim (trim text) = trim text := by
  have hstart : (trim text).dropWhile isBlank = trim text := by
    show (List.rdropWhile isBlank (text.dropWhile isBlank)).dropWhile isBlank
      = List.rdropWhile isBlank (text.dropWhile isBlank)
    obtain ⟨rest, hrest⟩ := List.rdropWhile_prefix isBlank (text.dropWhile isBlank)
    rcases hkept : List.rdropWhile isBlank (text.dropWhile isBlank) with - | ⟨c, kept⟩
    · rfl
    · -- what is left begins with the first character that is no blank
      have hc : isBlank c = false := by
        rw [hkept] at hrest
        exact eq_false_of_dropWhile hrest.symm
      rw [List.dropWhile_cons_of_neg (by simp [hc])]
  rw [trim, hstart]
  show List.rdropWhile isBlank (List.rdropWhile isBlank (text.dropWhile isBlank))
    = List.rdropWhile isBlank (text.dropWhile isBlank)
  rw [List.rdropWhile_idempotent]

-- =============================================================== quoting

section Escape

variable {q c : Char}

theorem escape_cons_of_special (h : c = q ∨ c = '\\') (text : List Char) :
    escape q (c :: text) = '\\' :: c :: escape q text := by
  show (if c = q ∨ c = '\\' then ['\\', c] else [c]) ++ escape q text = _
  rw [if_pos h]
  rfl

theorem escape_cons_of_plain (h : ¬(c = q ∨ c = '\\')) (text : List Char) :
    escape q (c :: text) = c :: escape q text := by
  show (if c = q ∨ c = '\\' then ['\\', c] else [c]) ++ escape q text = _
  rw [if_neg h]
  rfl

end Escape

/-- A text that is written between quotes is read back up to the closing
one, and what stands behind it is left. -/
theorem unquote_escape {q : Char} (hq : q ≠ '\\') (text rest : List Char) :
    unquote q (escape q text ++ q :: rest) = (text, rest) := by
  induction text with
  | nil =>
      show unquote q (q :: rest) = ([], rest)
      rw [unquote]
      · rw [if_neg hq, if_pos rfl]
      · rintro d others rfl
        exact absurd rfl hq
  | cons c text ih =>
      by_cases hspecial : c = q ∨ c = '\\'
      · rw [escape_cons_of_special hspecial, List.cons_append, List.cons_append, unquote, ih]
        rfl
      · rw [escape_cons_of_plain hspecial, List.cons_append]
        rw [not_or] at hspecial
        rw [unquote, if_neg hspecial.2, if_neg hspecial.1, ih]
        · rfl
        · rintro d others rfl
          exact absurd rfl hspecial.2

end CommandGrammar.Text
