/-
Specs put behind one another. A spec that ends within a list of parameters
takes what is put behind it into the list. Any other spec is read as before,
and what stands behind it is read on its own (`nodes_join`), because a space
or a tab ends the last name and nothing else is open there.

Each reader stops at a character that it does not take. If there is such a
character, then with more text at the end it stops at the same one, and
leaves the same text with more at its end (`value_append`, `entry_append`,
`entries_append`). `closes` and `endsOutside` follow the readers down a text
and say that there is one wherever a list is open.
-/
import CommandGrammar.Proofs.Spec.RoundTrip

namespace CommandGrammar.Spec

open Text

-- ============================================================== stretches

section Stretch

variable {p : Char → Bool} {text : List Char}

/-- A stretch that ends within a text ends there whatever is put behind it. -/
theorem dropWhile_append_of_ne_nil (h : text.dropWhile p ≠ []) (more : List Char) :
    (text ++ more).dropWhile p = text.dropWhile p ++ more := by
  rw [List.dropWhile_append, if_neg (by simpa using h)]

theorem takeWhile_append_of_ne_nil (h : text.dropWhile p ≠ []) (more : List Char) :
    (text ++ more).takeWhile p = text.takeWhile p := by
  have hlength := congrArg List.length (List.takeWhile_append_dropWhile (p := p) (l := text))
  have hpos := List.length_pos_iff.2 h
  rw [List.length_append] at hlength
  rw [List.takeWhile_append, if_neg (by omega)]

theorem dropWhile_append_of_eq_cons {rest : List Char} {c : Char}
    (h : text.dropWhile p = c :: rest) (more : List Char) :
    (text ++ more).dropWhile p = c :: (rest ++ more) := by
  rw [dropWhile_append_of_ne_nil (by simp [h]), h, List.cons_append]

end Stretch

-- ================================================================= values

theorem unquote_cons {q c : Char} (hc : c ≠ '\\') (text : List Char) :
    unquote q (c :: text) = if c = q then ([], text) else (unquote q text).map (c :: ·) id := by
  rw [unquote]
  · rw [if_neg hc]
  · rintro d others rfl
    exact absurd rfl hc

/-- A quoted text with something behind it is closed. -/
theorem unquote_append {q : Char} (hq : q ≠ '\\') {text : List Char} (more : List Char) :
    (unquote q text).2 ≠ [] →
      unquote q (text ++ more) = ((unquote q text).1, (unquote q text).2 ++ more) := by
  fun_induction unquote q text with
  | case1 => exact fun h => absurd rfl h
  | case2 c text ih =>
      intro h
      rw [List.cons_append, List.cons_append, unquote, ih h]
      rfl
  | case3 text _ => exact fun h => absurd rfl h
  | case4 text _ _ => exact fun _ => by rw [List.cons_append, unquote_cons hq, if_pos rfl]
  | case5 c text _ hslash hquote ih =>
      intro h
      rw [List.cons_append, unquote_cons hslash, if_neg hquote, ih h]
      rfl

section Value

variable {text inner : List Char} {q : Char}

theorem value_of_quote (h : text.dropWhile isBlank = q :: inner) (hq : isQuote q = true) :
    value text = ((unquote q inner).1, (unquote q inner).2.dropWhile isValueChar) := by
  unfold value
  rw [h]
  dsimp only
  rw [if_pos hq]
  rfl

theorem value_of_no_quote (h : text.dropWhile isBlank = q :: inner) (hq : isQuote q = false) :
    value text = (trim (text.takeWhile isValueChar), text.dropWhile isValueChar) := by
  unfold value
  rw [h]
  dsimp only
  rw [if_neg (by simp [hq])]

/-- A value with something behind it ends there. -/
theorem value_append (h : (value text).2 ≠ []) (more : List Char) :
    value (text ++ more) = ((value text).1, (value text).2 ++ more) := by
  cases hstart : text.dropWhile isBlank with
  | nil =>
      rw [value, hstart] at h
      exact absurd rfl h
  | cons q inner =>
      have hmore := dropWhile_append_of_eq_cons hstart more
      cases hq : isQuote q with
      | true =>
          have hslash : q ≠ '\\' := by
            rintro rfl
            cases hq
          rw [value_of_quote hstart hq] at h ⊢
          have hclosed : (unquote q inner).2 ≠ [] := fun hnil => h (by rw [hnil]; rfl)
          rw [value_of_quote hmore hq, unquote_append hslash more hclosed,
            dropWhile_append_of_ne_nil h]
      | false =>
          rw [value_of_no_quote hstart hq] at h ⊢
          rw [value_of_no_quote hmore hq, takeWhile_append_of_ne_nil h,
            dropWhile_append_of_ne_nil h]

end Value

-- ================================================================ entries

section Entry

variable {text inner : List Char} {c : Char}

theorem entry_of_equals (h : text.dropWhile isKeyChar = '=' :: inner) :
    entry text = ((trim (text.takeWhile isKeyChar), (value inner).1), (value inner).2) := by
  rw [entry, h]
  rfl

theorem entry_of_no_equals (h : text.dropWhile isKeyChar = c :: inner) (hc : c ≠ '=') :
    entry text = ((trim (text.takeWhile isKeyChar), []), c :: inner) := by
  rw [entry, h]
  split
  · next hsame =>
    injection hsame with hsame
    exact absurd hsame hc
  · rfl

/-- An entry with something behind it ends there. -/
theorem entry_append (h : (entry text).2 ≠ []) (more : List Char) :
    entry (text ++ more) = ((entry text).1, (entry text).2 ++ more) := by
  cases hstop : text.dropWhile isKeyChar with
  | nil =>
      rw [entry, hstop] at h
      exact absurd rfl h
  | cons c inner =>
      have hne : text.dropWhile isKeyChar ≠ [] := by simp [hstop]
      have hmore := dropWhile_append_of_eq_cons hstop more
      by_cases hequals : c = '='
      · subst hequals
        rw [entry_of_equals hstop] at h ⊢
        rw [entry_of_equals hmore, takeWhile_append_of_ne_nil hne, value_append h]
      · rw [entry_of_no_equals hstop hequals, entry_of_no_equals hmore hequals,
          takeWhile_append_of_ne_nil hne]
        rfl

end Entry

-- ================================================================== lists

theorem length_lt_of_entry {text rest : List Char} {c : Char} (h : (entry text).2 = c :: rest) :
    rest.length < text.length := by
  have hle := entry_snd_length_le text
  rw [h, List.length_cons] at hle
  exact hle

/-- Whether a list of entries is closed in a text. -/
def closes (text : List Char) : Bool :=
  match h : (entry text).2 with
  | [] => false
  | c :: rest =>
      have : rest.length < text.length := length_lt_of_entry h
      if c = ',' then closes rest else true
termination_by text.length

/-- A list that is closed is closed whatever is put behind it. -/
theorem entries_append {text : List Char} (h : closes text = true) (more : List Char) :
    entries (text ++ more) = ((entries text).1, (entries text).2 ++ more) := by
  -- the first entry ends where it ended before
  have hentry : ∀ {text rest : List Char} {c : Char}, (entry text).2 = c :: rest →
      entry text = ((entry text).1, c :: rest)
        ∧ entry (text ++ more) = ((entry text).1, c :: (rest ++ more)) := by
    intro text rest c hrest
    refine ⟨Prod.ext rfl hrest, ?_⟩
    rw [entry_append (by simp [hrest]), hrest]
    rfl
  fun_induction closes text with
  | case1 => cases h
  | case2 text rest hrest _ ih =>
      obtain ⟨hhere, hmore⟩ := hentry hrest
      rw [entries_of_entry hhere, entries_of_entry hmore, if_pos rfl, if_pos rfl, ih h]
      rfl
  | case3 text c rest hrest _ hcomma =>
      obtain ⟨hhere, hmore⟩ := hentry hrest
      rw [entries_of_entry hhere, entries_of_entry hmore, if_neg hcomma, if_neg hcomma]

-- ================================================================== specs

theorem length_lt_of_dropWhile {p : Char → Bool} {text rest : List Char} {c : Char}
    (h : text.dropWhile p = c :: rest) : rest.length < text.length := by
  have hle := (List.dropWhile_suffix p (l := text)).length_le
  rw [h, List.length_cons] at hle
  exact hle

/-- Whether a spec ends outside its lists of parameters: all lists that it
opens are closed in it. -/
def endsOutside (text : List Char) : Bool :=
  match h : text.dropWhile isNameChar with
  | [] => true
  | c :: rest =>
      have shorter : rest.length < text.length := length_lt_of_dropWhile h
      if c = '(' then
        have : (entries rest).2.length < text.length :=
          Nat.lt_of_le_of_lt (entries_snd_length_le rest) shorter
        closes rest && endsOutside (entries rest).2
      else endsOutside rest
termination_by text.length

/-- Behind a spec that ends outside its lists, a separator begins another one. -/
theorem nodesOf_append {text : List Char} (h : endsOutside text = true) {c : Char}
    (hc : isSeparator c = true) (more : List Char) :
    nodesOf (text ++ c :: more) = nodesOf text ++ nodesOf more := by
  have hname : isNameChar c = false := by simp [isNameChar, hc]
  have hparenthesis : c ≠ '(' := by
    rintro rfl
    cases hc
  fun_induction endsOutside text with
  | case1 text hall =>
      have hchars := List.dropWhile_eq_nil_iff.1 hall
      rw [nodesOf_of_nil hall, nodesOf_of_name (dropWhile_append_cons hchars hname),
        if_neg hparenthesis, takeWhile_append_cons hchars hname,
        List.takeWhile_eq_self_iff.2 hchars]
  | case2 text rest hstop _ _ ih =>
      obtain ⟨hcloses, hbehind⟩ := Bool.and_eq_true_iff.1 h
      have hne : text.dropWhile isNameChar ≠ [] := by simp [hstop]
      have hmore := dropWhile_append_of_eq_cons hstop (c :: more)
      rw [nodesOf_of_name hstop, nodesOf_of_name hmore, if_pos rfl, if_pos rfl,
        takeWhile_append_of_ne_nil hne, entries_append hcloses, ih hbehind, List.append_assoc]
  | case3 text d rest hstop _ hd ih =>
      have hne : text.dropWhile isNameChar ≠ [] := by simp [hstop]
      have hmore := dropWhile_append_of_eq_cons hstop (c :: more)
      rw [nodesOf_of_name hstop, nodesOf_of_name hmore, if_neg hd, if_neg hd,
        takeWhile_append_of_ne_nil hne, ih h, List.append_assoc]

/-- The nodes of two specs with a space between them are those of both. -/
theorem nodes_join {p : String} (h : endsOutside p.toList = true) (q : String) :
    nodes (p ++ " " ++ q) = nodes p ++ nodes q := by
  have htext : (p ++ " " ++ q).toList = p.toList ++ ' ' :: q.toList := by
    rw [String.toList_append, String.toList_append, List.append_assoc]
    rfl
  unfold nodes
  rw [htext]
  exact nodesOf_append h (by decide) _

/-- Nodes that are written one by one are read back as they are. -/
theorem flatMap_nodes_text {list : List Node} (h : ∀ node ∈ list, node.WellFormed) :
    (list.map Node.text).flatMap nodes = list := by
  induction list with
  | nil => rfl
  | cons node rest ih =>
      obtain ⟨hnode, hrest⟩ := List.forall_mem_cons.1 h
      have halone : nodes node.text = [node] := by
        rw [nodes, Node.text, String.toList_ofList]
        exact hnode.nodesOf_write.1
      rw [List.map_cons, List.flatMap_cons, halone, ih hrest]
      rfl

/-- A list that is still open takes what is put behind it. -/
example : endsOutside "a(b=1".toList = false
    ∧ nodes ("a(b=1" ++ " " ++ "c)") ≠ nodes "a(b=1" ++ nodes "c)" := by
  decide +kernel

end CommandGrammar.Spec
