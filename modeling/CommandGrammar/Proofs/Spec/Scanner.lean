/-
Reading a spec one character at a time. A `Scanner` is fed the characters of
a spec in order; it knows at which stage of a node it is and holds what it
has read of it. It never looks ahead and never goes back, and still it reads
what the grammar reads: all nodes of a spec (`nodes_eq_scan`), and of a bare
list the parameters up to the parenthesis that closes it
(`parameters_eq_readList`). So a list is read alike wherever it stands.

The proof goes through the stages of one entry from the last to the first:
behind a closing quote, in quotes, in a value, in a key. Each of them shows
that the entry ends where the grammar ends it, with the same key and value
(`EndsAs`), and that the scanner is clean then: what it still holds of the
entry is in its parameters, but for the last quote, which the next one
replaces. Entries make up lists (`readList_entries`), lists and names nodes.
-/
import CommandGrammar.Proofs.Spec.Joining

namespace CommandGrammar.Spec

open Text

-- ============================================================ the scanner

/-- Where in a node the next character stands. -/
inductive Stage where
  /-- In a name, or before one. -/
  | name
  /-- In a key. -/
  | key
  /-- In a value that is not quoted, or before the quote of one that is. -/
  | value
  /-- Between the quotes of a value. -/
  | quoted
  /-- Behind the closing quote of a value. -/
  | behindQuote
  /-- Just behind the parenthesis that closes a list. -/
  | closed
  deriving DecidableEq

/-- What has been read. -/
structure Scanner where
  /-- The stage. -/
  stage : Stage
  /-- The name of the node, so far. -/
  name : List Char := []
  /-- The key of the entry, so far. -/
  key : List Char := []
  /-- The value of the entry, so far. -/
  value : List Char := []
  /-- The quote that the last quoted value opened with. -/
  quote : Char := '\x00'
  /-- Whether the next character is taken as it is. -/
  escaped : Bool := false
  /-- The parameters of the node, so far. -/
  parameters : Parameters := ∅
  /-- The nodes that are complete. -/
  nodes : List Node := []

/-- Parameters with one more entry; without a key it is dropped. -/
def enterPair (parameters : Parameters) (pair : List Char × List Char) : Parameters :=
  if pair.1.isEmpty then parameters
  else parameters.insert (String.ofList pair.1) (String.ofList pair.2)

theorem parametersOf_eq_foldl (list : List (List Char × List Char)) :
    parametersOf list = list.foldl enterPair ∅ := by
  unfold parametersOf Dictionary.ofList
  rw [List.foldl_map, List.foldl_filter]
  show list.foldl _ ∅ = _
  congr 1
  funext parameters pair
  rw [enterPair]
  cases pair.1.isEmpty <;> rfl

namespace Scanner

/-- The entry goes to the parameters, a quoted value as it is and any other
one trimmed. -/
def push (s : Scanner) (quoted : Bool) : Scanner :=
  { s with
    parameters := enterPair s.parameters (trim s.key, if quoted then s.value else trim s.value)
    key := []
    value := []
    escaped := false }

/-- The node goes to the complete ones. -/
def emit (s : Scanner) : Scanner :=
  { s with nodes := s.nodes ++ (node? s.name s.parameters).toList, name := [], parameters := ∅ }

/-- A list ends, and its node with it. -/
def close (s : Scanner) : Scanner :=
  { s.emit with stage := .closed }

/-- An entry ends at a comma or a parenthesis. -/
def endEntry (s : Scanner) (quoted : Bool) (c : Char) : Scanner :=
  if c = ',' then { s.push quoted with stage := .key } else (s.push quoted).close

/-- A character in a name. -/
def inName (s : Scanner) (c : Char) : Scanner :=
  if isSeparator c then s.emit
  else if c = '(' then { s with stage := .key }
  else { s with name := s.name ++ [c] }

/-- A character in a key. -/
def inKey (s : Scanner) (c : Char) : Scanner :=
  if c = '=' then { s with stage := .value }
  else if isValueChar c then { s with key := s.key ++ [c] }
  else s.endEntry false c

/-- A character in a value that is not quoted. With nothing but blanks before
it a quote opens a quoted one. -/
def inValue (s : Scanner) (c : Char) : Scanner :=
  if isQuote c ∧ trim s.value = [] then { s with stage := .quoted, value := [], quote := c }
  else if isValueChar c then { s with value := s.value ++ [c] }
  else s.endEntry false c

/-- A character between quotes. -/
def inQuotes (s : Scanner) (c : Char) : Scanner :=
  if s.escaped then { s with value := s.value ++ [c], escaped := false }
  else if c = '\\' then { s with escaped := true }
  else if c = s.quote then { s with stage := .behindQuote }
  else { s with value := s.value ++ [c] }

/-- The scanner after one more character. -/
def feed (s : Scanner) (c : Char) : Scanner :=
  match s.stage with
  | .name => s.inName c
  | .key => s.inKey c
  | .value => s.inValue c
  | .quoted => s.inQuotes c
  | .behindQuote => if isValueChar c then s else s.endEntry true c
  | .closed =>
      if isSeparator c then { s with stage := .name } else { s with stage := .name }.inName c

/-- The scanner at the end of the text: what is open is closed. -/
def finish (s : Scanner) : Scanner :=
  match s.stage with
  | .name | .closed => s.emit
  | .key | .value => (s.push false).close
  | .quoted | .behindQuote => (s.push true).close

/-- The scanner after a text. -/
def scan (s : Scanner) (text : List Char) : Scanner :=
  text.foldl feed s

/-- The scanner after a text up to the first closed list, and what it has not
read then. -/
def readList (s : Scanner) : List Char → Scanner × List Char
  | [] => (s, [])
  | c :: rest => if s.stage = .closed then (s, c :: rest) else (s.feed c).readList rest

theorem readList_of_closed {s : Scanner} (h : s.stage = .closed) (text : List Char) :
    s.readList text = (s, text) := by
  cases text with
  | nil => rfl
  | cons c rest => exact if_pos h

theorem readList_cons {s : Scanner} (h : s.stage ≠ .closed) (c : Char) (text : List Char) :
    s.readList (c :: text) = (s.feed c).readList text :=
  if_neg h

/-- What is not read up to a closed list is read from there. -/
theorem scan_readList (s : Scanner) (text : List Char) :
    (s.readList text).1.scan (s.readList text).2 = s.scan text := by
  induction text generalizing s with
  | nil => rfl
  | cons c rest ih =>
      by_cases h : s.stage = .closed
      · rw [readList_of_closed h]
      · rw [readList_cons h, ih]
        rfl

-- =========================================================== one entry

theorem isQuote_of_isBlank {c : Char} (h : isBlank c = true) : isQuote c = false := by
  by_contra hquote
  rw [Bool.not_eq_false, isQuote, Bool.or_eq_true, beq_iff_eq, beq_iff_eq] at hquote
  rcases hquote with rfl | rfl <;> revert h <;> decide

/-- A blank ends no entry. -/
theorem isValueChar_of_isBlank {c : Char} (h : isBlank c = true) : isValueChar c = true := by
  rw [isValueChar, Bool.and_eq_true, bne_iff_ne, bne_iff_ne]
  constructor <;> rintro rfl <;> revert h <;> decide

/-- The scanner before the next entry of the list. -/
def between (s : Scanner) (quote : Char) (pair : List Char × List Char) : Scanner :=
  { stage := .key, name := s.name, quote, parameters := enterPair s.parameters pair,
    nodes := s.nodes }

/-- The scanner behind the list. -/
def behind (s : Scanner) (quote : Char) (parameters : Parameters) : Scanner :=
  { stage := .closed, quote, nodes := s.nodes ++ (node? s.name parameters).toList }

/-- Nothing is left of an entry. -/
structure Clean (s : Scanner) : Prop where
  key : s.key = []
  value : s.value = []
  escaped : s.escaped = false

/-- A run from within an entry ends it as a pair, and leaves a text with the
character that ends it in front. -/
def EndsAs (s : Scanner) (run : Scanner × List Char) (pair : List Char × List Char)
    (rest : List Char) : Prop :=
  ∃ quote, match rest with
    | [] => run.2 = [] ∧ run.1.finish = s.behind quote (enterPair s.parameters pair)
    | c :: more =>
        run = if c = ',' then (s.between quote pair).readList more
          else (s.behind quote (enterPair s.parameters pair), more)

section Entry

variable {s : Scanner}

/-- An entry ends with the character that ends it. -/
theorem endsAs_endEntry (s : Scanner) (quoted : Bool) (c : Char) (more : List Char) :
    s.EndsAs ((s.endEntry quoted c).readList more)
      (trim s.key, if quoted then s.value else trim s.value) (c :: more) := by
  refine ⟨s.quote, ?_⟩
  dsimp only
  unfold endEntry
  split
  · rfl
  · rw [readList_of_closed rfl]
    rfl

/-- Or it ends with the text. -/
theorem endsAs_finish (s : Scanner) (quoted : Bool) (h : s.finish = (s.push quoted).close) :
    s.EndsAs (s, []) (trim s.key, if quoted then s.value else trim s.value) [] :=
  ⟨s.quote, rfl, h⟩

/-- Behind the closing quote everything up to the end of the entry is dropped. -/
theorem endsAs_behindQuote (h : s.stage = .behindQuote) (text : List Char) :
    s.EndsAs (s.readList text) (trim s.key, s.value) (text.dropWhile isValueChar) := by
  induction text with
  | nil =>
      have hfinish : s.finish = (s.push true).close := by simp only [finish, h]
      exact endsAs_finish s true hfinish
  | cons c rest ih =>
      have hfeed : s.feed c = if isValueChar c then s else s.endEntry true c := by
        simp only [feed, h]
      rw [readList_cons (by simp [h]), hfeed]
      cases hc : isValueChar c with
      | true =>
          rw [List.dropWhile_cons_of_pos hc]
          exact ih
      | false =>
          rw [List.dropWhile_cons_of_neg (by simp [hc])]
          exact endsAs_endEntry s true c rest

section Quoted

theorem readList_quoted (h : s.stage = .quoted) (c : Char) (rest : List Char) :
    s.readList (c :: rest) = (s.inQuotes c).readList rest := by
  rw [readList_cons (by simp [h])]
  simp only [feed, h]

/-- A quote that is not closed is closed by the end of the text. -/
theorem endsAs_unclosed (h : s.stage = .quoted) :
    s.EndsAs (s.readList []) (trim s.key, s.value ++ []) [] := by
  have hfinish : s.finish = (s.push true).close := by simp only [finish, h]
  rw [List.append_nil]
  exact endsAs_finish s true hfinish

/-- In quotes the value goes on up to the closing one. -/
theorem endsAs_quoted (h : s.stage = .quoted) (hescaped : s.escaped = false) {quote : Char}
    (hquote : s.quote = quote) (text : List Char) :
    s.EndsAs (s.readList text) (trim s.key, s.value ++ (unquote quote text).1)
      ((unquote quote text).2.dropWhile isValueChar) := by
  have hslash : ∀ {s : Scanner}, s.escaped = false →
      s.inQuotes '\\' = { s with escaped := true } := fun h => by simp [inQuotes, h]
  fun_induction unquote quote text generalizing s with
  | case1 => exact endsAs_unclosed h
  | case2 c rest ih =>
      have htaken : ({ s with escaped := true } : Scanner).readList (c :: rest)
          = ({ s with value := s.value ++ [c], escaped := false } : Scanner).readList rest :=
        readList_quoted (s := { s with escaped := true }) h c rest
      rw [readList_quoted h, hslash hescaped, htaken, Prod.map_fst,
        List.append_cons s.value c (unquote quote rest).1]
      exact ih (s := { s with value := s.value ++ [c], escaped := false }) h rfl hquote
  | case3 rest hnone =>
      cases rest with
      | nil =>
          rw [readList_quoted h, hslash hescaped]
          exact endsAs_unclosed (s := { s with escaped := true }) h
      | cons d others => exact (hnone d others rfl rfl).elim
  | case4 rest _ hplain =>
      have hfirst : s.inQuotes quote = { s with stage := .behindQuote } := by
        simp [inQuotes, hescaped, hplain, hquote]
      rw [readList_quoted h, hfirst, List.append_nil]
      exact endsAs_behindQuote (s := { s with stage := .behindQuote }) rfl rest
  | case5 c rest _ hplain hinner ih =>
      have hfirst : s.inQuotes c = { s with value := s.value ++ [c] } := by
        simp [inQuotes, hescaped, hplain, hquote, hinner]
      rw [readList_quoted h, hfirst, Prod.map_fst,
        List.append_cons s.value c (unquote quote rest).1]
      exact ih (s := { s with value := s.value ++ [c] }) h hescaped hquote

end Quoted

section Value

/-- In a value that is not quoted one more character goes on or ends the entry. -/
theorem endsAs_bare_cons {c : Char} {rest : List Char}
    (hopens : ¬(isQuote c = true ∧ trim s.value = []))
    (hmore : isValueChar c = true →
      s.EndsAs (({ s with value := s.value ++ [c] } : Scanner).readList rest)
        (trim s.key, trim (s.value ++ [c] ++ rest.takeWhile isValueChar))
        (rest.dropWhile isValueChar)) :
    s.EndsAs ((s.inValue c).readList rest)
      (trim s.key, trim (s.value ++ (c :: rest).takeWhile isValueChar))
      ((c :: rest).dropWhile isValueChar) := by
  rw [inValue, if_neg hopens]
  cases hc : isValueChar c with
  | true =>
      rw [List.dropWhile_cons_of_pos hc, List.takeWhile_cons_of_pos hc, if_pos rfl,
        List.append_cons s.value c (rest.takeWhile isValueChar)]
      exact hmore hc
  | false =>
      have hstop : ¬isValueChar c = true := by simp [hc]
      rw [List.dropWhile_cons_of_neg hstop, List.takeWhile_cons_of_neg hstop, List.append_nil,
        if_neg Bool.false_ne_true]
      exact endsAs_endEntry s false c rest

variable (h : s.stage = .value)

include h

theorem readList_value (c : Char) (rest : List Char) :
    s.readList (c :: rest) = (s.inValue c).readList rest := by
  rw [readList_cons (by simp [h])]
  simp only [feed, h]

/-- Once it has begun, a value that is not quoted goes on up to the end of the
entry. -/
theorem endsAs_bare (hbegun : trim s.value ≠ []) (text : List Char) :
    s.EndsAs (s.readList text) (trim s.key, trim (s.value ++ text.takeWhile isValueChar))
      (text.dropWhile isValueChar) := by
  induction text generalizing s with
  | nil =>
      have hfinish : s.finish = (s.push false).close := by simp only [finish, h]
      rw [List.takeWhile_nil, List.append_nil]
      exact endsAs_finish s false hfinish
  | cons c rest ih =>
      have hmore : trim (s.value ++ [c]) ≠ [] := fun hnil => hbegun <|
        trim_eq_nil_iff.2 fun d hd => trim_eq_nil_iff.1 hnil d (List.mem_append_left _ hd)
      rw [readList_value h]
      exact endsAs_bare_cons (fun hopens => hbegun hopens.2) fun _ =>
        ih (s := { s with value := s.value ++ [c] }) h hmore

/-- The first character that is no blank decides between a quoted value and
one that is not. -/
theorem endsAs_started {c : Char} (hescaped : s.escaped = false)
    (hblanks : ∀ d ∈ s.value, isBlank d = true) (hc : isBlank c = false) (rest : List Char) :
    s.EndsAs ((s.inValue c).readList rest) (trim s.key, (Spec.value (s.value ++ c :: rest)).1)
      (Spec.value (s.value ++ c :: rest)).2 := by
  have hstart : (s.value ++ c :: rest).dropWhile isBlank = c :: rest :=
    dropWhile_append_cons hblanks hc
  have hchars : ∀ d ∈ s.value, isValueChar d = true := fun d hd =>
    isValueChar_of_isBlank (hblanks d hd)
  cases hquote : isQuote c with
  | true =>
      rw [value_of_quote hstart hquote, inValue, if_pos ⟨hquote, trim_eq_nil_iff.2 hblanks⟩]
      exact endsAs_quoted (s := { s with stage := .quoted, value := [], quote := c }) rfl hescaped
        rfl rest
  | false =>
      have hbegun : trim (s.value ++ [c]) ≠ [] := fun hnil => by
        have hblank := trim_eq_nil_iff.1 hnil c (by simp)
        rw [hc] at hblank
        cases hblank
      rw [value_of_no_quote hstart hquote, List.takeWhile_append_of_pos hchars,
        List.dropWhile_append_of_pos hchars]
      exact endsAs_bare_cons (by simp [hquote]) fun _ =>
        endsAs_bare (s := { s with value := s.value ++ [c] }) h hbegun rest

/-- Behind an equals sign the value is read that the grammar reads, whatever
blanks stand before it. -/
theorem endsAs_value (hescaped : s.escaped = false) {blanks : List Char}
    (hheld : s.value = blanks) (hblanks : ∀ c ∈ blanks, isBlank c = true) (text : List Char) :
    s.EndsAs (s.readList text) (trim s.key, (Spec.value (blanks ++ text)).1)
      (Spec.value (blanks ++ text)).2 := by
  subst hheld
  induction text generalizing s with
  | nil =>
      have hfinish : s.finish = (s.push false).close := by simp only [finish, h]
      have hnone : Spec.value (s.value ++ []) = (trim s.value, []) := by
        rw [List.append_nil, Spec.value, List.dropWhile_eq_nil_iff.2 hblanks,
          trim_eq_nil_iff.2 hblanks]
      rw [hnone]
      exact endsAs_finish s false hfinish
  | cons c rest ih =>
      rw [readList_value h]
      cases hblank : isBlank c with
      | true =>
          have hfeed : s.inValue c = { s with value := s.value ++ [c] } := by
            rw [inValue, if_neg fun hopens => Bool.false_ne_true <|
              (isQuote_of_isBlank hblank).symm.trans hopens.1,
              if_pos (isValueChar_of_isBlank hblank)]
          rw [hfeed, List.append_cons s.value c rest]
          exact ih (s := { s with value := s.value ++ [c] }) h hescaped
            (List.forall_mem_append.2 ⟨hblanks, List.forall_mem_singleton.2 hblank⟩)
      | false => exact endsAs_started h hescaped hblanks hblank rest

end Value

/-- An entry is read as the grammar reads it. -/
theorem endsAs_key (h : s.stage = .key) (hvalue : s.value = []) (hescaped : s.escaped = false)
    {key : List Char} (hheld : s.key = key) (hkey : ∀ c ∈ key, isKeyChar c = true)
    (text : List Char) :
    s.EndsAs (s.readList text) (entry (key ++ text)).1 (entry (key ++ text)).2 := by
  subst hheld
  have hnone : (trim s.key, trim s.value) = (trim s.key, []) := by
    rw [hvalue]
    rfl
  induction text generalizing s with
  | nil =>
      have hfinish : s.finish = (s.push false).close := by simp only [finish, h]
      have hentry : entry (s.key ++ []) = ((trim s.key, []), []) := by
        rw [List.append_nil, entry, List.dropWhile_eq_nil_iff.2 hkey,
          List.takeWhile_eq_self_iff.2 hkey]
      rw [hentry, ← hnone]
      exact endsAs_finish s false hfinish
  | cons c rest ih =>
      have hfeed : s.feed c = s.inKey c := by simp only [feed, h]
      rw [readList_cons (by simp [h]), hfeed, inKey]
      cases hc : isKeyChar c with
      | true =>
          obtain ⟨hequals, hends⟩ := Bool.and_eq_true_iff.1 hc
          rw [if_neg (by simpa using hequals), if_pos hends, List.append_cons s.key c rest]
          exact ih (s := { s with key := s.key ++ [c] }) h hvalue hescaped
            (List.forall_mem_append.2 ⟨hkey, List.forall_mem_singleton.2 hc⟩)
            (congrArg (fun held => (trim (s.key ++ [c]), trim held)) hvalue)
      | false =>
          have hstop : (s.key ++ c :: rest).dropWhile isKeyChar = c :: rest :=
            dropWhile_append_cons hkey hc
          have htake : (s.key ++ c :: rest).takeWhile isKeyChar = s.key :=
            takeWhile_append_cons hkey hc
          by_cases hequals : c = '='
          · subst hequals
            rw [if_pos rfl, entry_of_equals hstop, htake]
            exact endsAs_value (s := { s with stage := .value }) rfl hescaped hvalue
              (List.forall_mem_nil _) rest
          · have hends : isValueChar c = false := by simpa [isKeyChar, hequals] using hc
            rw [if_neg hequals, if_neg (by simp [hends]), entry_of_no_equals hstop hequals, htake,
              ← hnone]
            exact endsAs_endEntry s false c rest

end Entry

-- ============================================================== one list

/-- Without a name and parameters there is no node. -/
theorem emit_of_nothing {s : Scanner} (hname : s.name = []) (hparameters : s.parameters = ∅) :
    s.emit = s := by
  cases s
  subst hname hparameters
  exact congrArg (Scanner.mk _ _ _ _ _ _ _) (List.append_nil _)

theorem finish_behind (s : Scanner) (quote : Char) (parameters : Parameters) :
    (s.behind quote parameters).finish = s.behind quote parameters :=
  emit_of_nothing rfl rfl

/-- A list is read up to its end as the grammar reads it. If the text ends
first, finishing closes the list. -/
theorem readList_entries {s : Scanner} (h : s.stage = .key) (hclean : s.Clean)
    (text : List Char) :
    ∃ quote,
      let behind := s.behind quote ((entries text).1.foldl enterPair s.parameters)
      (s.readList text).2 = (entries text).2 ∧ (s.readList text).1.finish = behind
        ∧ ((s.readList text).1 = behind ∨ (entries text).2 = []) := by
  -- the first entry of the list
  have hfirst : ∀ {s : Scanner} {text rest : List Char} {first : List Char × List Char},
      s.stage = .key → s.Clean → entry text = (first, rest) →
        s.EndsAs (s.readList text) first rest := by
    intro s text rest first h hclean hentry
    have hends := endsAs_key h hclean.value hclean.escaped hclean.key (List.forall_mem_nil _) text
    rw [List.nil_append, hentry] at hends
    exact hends
  fun_induction entries text generalizing s with
  | case1 text first rest hentry _ ih =>
      obtain ⟨quote, hrun⟩ := hfirst h hclean hentry
      dsimp only at hrun
      rw [if_pos rfl] at hrun
      rw [hrun]
      exact ih (s := s.between quote first) rfl ⟨rfl, rfl, rfl⟩
  | case2 text first c rest hcomma hentry =>
      obtain ⟨quote, hrun⟩ := hfirst h hclean hentry
      dsimp only at hrun
      rw [if_neg hcomma] at hrun
      rw [hrun]
      exact ⟨quote, rfl, finish_behind .., Or.inl rfl⟩
  | case3 text first hentry =>
      obtain ⟨quote, hnil, hfinish⟩ := hfirst h hclean hentry
      exact ⟨quote, hnil, hfinish, Or.inr rfl⟩

-- ============================================================= all nodes

/-- A list and the text behind it are read one after the other. -/
theorem scan_entries {s : Scanner} (h : s.stage = .key) (hclean : s.Clean)
    (hparameters : s.parameters = ∅) (text : List Char) :
    ∃ quote, (s.scan text).finish
      = ((s.behind quote (parametersOf (entries text).1)).scan (entries text).2).finish := by
  obtain ⟨quote, hleft, hfinish, hrun⟩ := readList_entries h hclean text
  refine ⟨quote, ?_⟩
  rw [← scan_readList, hleft, parametersOf_eq_foldl, ← hparameters]
  rcases hrun with hrun | hnil
  · rw [hrun]
  · rw [hnil]
    exact hfinish.trans (finish_behind ..).symm

/-- Behind a closed list a text is read as before a name. -/
theorem scan_behind (s : Scanner) (quote : Char) (parameters : Parameters) (text : List Char) :
    ((s.behind quote parameters).scan text).finish.nodes
      = (({ s.behind quote parameters with stage := .name } : Scanner).scan text).finish.nodes := by
  cases text with
  | nil => rfl
  | cons c rest =>
      have hfeed : (s.behind quote parameters).feed c
          = ({ s.behind quote parameters with stage := .name } : Scanner).feed c := by
        show (if isSeparator c then _ else _) = _
        split
        · next hc =>
          show _ = inName _ c
          rw [inName, if_pos hc]
          exact (emit_of_nothing rfl rfl).symm
        · rfl
      show ((Scanner.feed _ c).scan rest).finish.nodes = ((Scanner.feed _ c).scan rest).finish.nodes
      rw [hfeed]

/-- From before a name, or within one, the nodes of a text are read. -/
theorem nodes_scan {s : Scanner} (h : s.stage = .name) (hclean : s.Clean)
    (hparameters : s.parameters = ∅) {name : List Char} (hheld : s.name = name)
    (hname : ∀ c ∈ name, isNameChar c = true) (text : List Char) :
    (s.scan text).finish.nodes = s.nodes ++ nodesOf (name ++ text) := by
  subst hheld
  induction hlength : text.length using Nat.strong_induction_on generalizing s text with
  | h length ih =>
    cases text with
    | nil =>
        have hfinish : (s.scan []).finish = s.emit := by simp only [scan, List.foldl_nil, finish, h]
        rw [hfinish, List.append_nil, nodesOf_of_nil (List.dropWhile_eq_nil_iff.2 hname),
          List.takeWhile_eq_self_iff.2 hname, ← hparameters]
        rfl
    | cons c rest =>
        have hshorter : rest.length < length := by
          rw [← hlength]
          exact Nat.lt_succ_self _
        have hfeed : s.scan (c :: rest) = (s.inName c).scan rest := by
          simp only [scan, List.foldl_cons, feed, h]
        rw [hfeed, inName]
        cases hc : isNameChar c with
        | true =>
            obtain ⟨hseparator, hparenthesis⟩ := Bool.and_eq_true_iff.1 hc
            rw [if_neg (by simpa using hseparator), if_neg (by simpa using hparenthesis),
              List.append_cons s.name c rest]
            exact ih _ hshorter (s := { s with name := s.name ++ [c] }) h
              ⟨hclean.key, hclean.value, hclean.escaped⟩ hparameters rest
              (List.forall_mem_append.2 ⟨hname, List.forall_mem_singleton.2 hc⟩) rfl
        | false =>
            have hstop : (s.name ++ c :: rest).dropWhile isNameChar = c :: rest :=
              dropWhile_append_cons hname hc
            rw [nodesOf_of_name hstop, takeWhile_append_cons hname hc]
            by_cases hparenthesis : c = '('
            · subst hparenthesis
              rw [if_neg (by decide), if_pos rfl, if_pos rfl]
              obtain ⟨quote, hlist⟩ := scan_entries (s := { s with stage := .key }) rfl
                ⟨hclean.key, hclean.value, hclean.escaped⟩ hparameters rest
              rw [hlist, scan_behind]
              refine (ih _ (Nat.lt_of_le_of_lt (entries_snd_length_le rest) hshorter) rfl
                ⟨rfl, rfl, rfl⟩ rfl (entries rest).2 (List.forall_mem_nil _) rfl).trans ?_
              exact List.append_assoc ..
            · have hseparator : isSeparator c = true := by
                simpa [isNameChar, hparenthesis] using hc
              rw [if_pos hseparator, if_neg hparenthesis]
              refine (ih _ hshorter (s := s.emit) h ⟨hclean.key, hclean.value, hclean.escaped⟩ rfl
                rest (List.forall_mem_nil _) rfl).trans ?_
              rw [← hparameters]
              exact List.append_assoc ..

end Scanner

/-- Whether or not there is a node, its parameters are those it is made of. -/
theorem parameters_node? (name : List Char) (parameters : Parameters) :
    ((node? name parameters).map Node.parameters).getD ∅ = parameters := by
  unfold node?
  split
  · next hnothing =>
    have hempty := (Bool.and_eq_true_iff.1 hnothing).2
    exact (Dictionary.ext (List.isEmpty_iff.1 hempty)).symm
  · rfl

/-- The nodes of a spec, by one pass over its characters. -/
def Scanner.nodesIn (spec : String) : List Node :=
  (({ stage := .name } : Scanner).scan spec.toList).finish.nodes

/-- The parameters of a bare list, by one pass up to its end. Without a node
there are none. -/
def Scanner.parametersIn (text : String) : Parameters :=
  ((({ stage := .key } : Scanner).readList text.toList).1.finish.nodes.head?.map
    Node.parameters).getD ∅

theorem nodes_eq_scan (spec : String) : nodes spec = Scanner.nodesIn spec :=
  (Scanner.nodes_scan (s := { stage := .name }) rfl ⟨rfl, rfl, rfl⟩ rfl rfl
    (List.forall_mem_nil _) spec.toList).symm

theorem parameters_eq_readList (text : String) : parameters text = Scanner.parametersIn text := by
  obtain ⟨quote, -, hfinish, -⟩ :=
    Scanner.readList_entries (s := { stage := .key }) rfl ⟨rfl, rfl, rfl⟩ text.toList
  unfold Scanner.parametersIn
  rw [hfinish]
  show _ = ((node? [] _).toList.head?.map Node.parameters).getD ∅
  rw [Option.head?_toList, parameters_node?]
  exact parametersOf_eq_foldl _

end CommandGrammar.Spec
