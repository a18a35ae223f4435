/-
Which nodes a spec can hold. A node is *well-formed* if its name is
trimmed and has no character that ends a name, it is not empty
altogether, and its keys are trimmed, not empty and without the
characters that end a key; its values may be any text. These are just
the nodes that reading can give (`wellFormed_of_mem_nodes`), and they are
just the ones that can be read back from their written form: `nodes_text`
reads back what `Spec.text` writes, piece by piece, and hands on the text
behind each piece.

Each piece is read as far as the character that ends it, so every lemma
here is about a written piece with more text behind it. For a value that
is where quoting decides: what is written bare has no character that ends
or quotes a value and no blank at an end.
-/
import CommandGrammar.Proofs.Dictionary
import CommandGrammar.Proofs.Text
import CommandGrammar.Spec.Reader

namespace CommandGrammar.Spec

open Text

-- ====================================================== well-formed nodes

/-- What can be said of every key of a node that was read. -/
structure KeyWellFormed (key : List Char) : Prop where
  ne_nil : key ≠ []
  trimmed : trim key = key
  chars : ∀ c ∈ key, c ≠ '=' ∧ c ≠ ',' ∧ c ≠ ')'

/-- What can be said of every node that was read. -/
structure Node.WellFormed (node : Node) : Prop where
  trimmed : trim node.name.toList = node.name.toList
  chars : ∀ c ∈ node.name.toList, c ≠ ' ' ∧ c ≠ '\t' ∧ c ≠ '('
  nonempty : node.name ≠ "" ∨ node.parameters.entries ≠ []
  keys : ∀ entry ∈ node.parameters.entries, KeyWellFormed entry.1.toList

instance (key : List Char) : Decidable (KeyWellFormed key) :=
  decidable_of_iff (key ≠ [] ∧ trim key = key
      ∧ key.all (fun c => decide (c ≠ '=' ∧ c ≠ ',' ∧ c ≠ ')')) = true)
    ⟨fun h => ⟨h.1, h.2.1, by simpa using h.2.2⟩, fun h => ⟨h.1, h.2, by simpa using h.3⟩⟩

instance (node : Node) : Decidable node.WellFormed :=
  decidable_of_iff (trim node.name.toList = node.name.toList
      ∧ node.name.toList.all (fun c => decide (c ≠ ' ' ∧ c ≠ '\t' ∧ c ≠ '(')) = true
      ∧ (node.name ≠ "" ∨ node.parameters.entries ≠ [])
      ∧ ∀ entry ∈ node.parameters.entries, KeyWellFormed entry.1.toList)
    ⟨fun h => ⟨h.1, by simpa using h.2.1, h.2.2.1, h.2.2.2⟩,
      fun h => ⟨h.1, by simpa using h.2, h.3, h.4⟩⟩

-- ================================================================ values

/-- A value is read back, quoted or bare, up to the character that ends it or
to the end of the text. -/
theorem value_writeValue (text : List Char) {rest : List Char}
    (hrest : ∀ c ∈ rest.head?, isValueChar c = false) :
    value (Node.writeValue text ++ rest) = (text, rest) := by
  unfold Node.writeValue
  by_cases hquotes : Node.needsQuotes text = true
  · have hdropped : ([] ++ rest).dropWhile isValueChar = rest :=
      dropWhile_append_of_head? (List.forall_mem_nil _) hrest
    rw [if_pos hquotes, List.append_assoc]
    show value ('\'' :: (escape '\'' text ++ '\'' :: rest)) = _
    unfold value
    rw [List.dropWhile_cons_of_neg (by decide)]
    show (unquote '\'' (escape '\'' text ++ '\'' :: rest)).map id
      (·.dropWhile isValueChar) = _
    rw [unquote_escape (by decide)]
    exact congrArg (text, ·) hdropped
  · rw [if_neg hquotes]
    unfold Node.needsQuotes at hquotes
    simp only [Bool.or_eq_true, not_or, bne_iff_ne, ne_eq, not_not, List.any_eq_true, not_exists,
      not_and] at hquotes
    obtain ⟨⟨hempty, htrim⟩, hreserved⟩ := hquotes
    have hchars : ∀ d ∈ text, isValueChar d = true := by
      intro d hd
      have := hreserved d hd
      simp only [Node.isReserved, Bool.or_eq_true, beq_iff_eq, not_or] at this
      simp [isValueChar, this]
    rcases text with - | ⟨first, others⟩
    · simp at hempty
    · have hblank : isBlank first = false := isBlank_of_trim_eq htrim
      have hquote : isQuote first = false := by
        have := hreserved first (List.mem_cons_self ..)
        simp only [Node.isReserved, Bool.or_eq_true, not_or, Bool.not_eq_true] at this
        exact this.1.2
      unfold value
      rw [List.cons_append, List.dropWhile_cons_of_neg (by simp [hblank])]
      dsimp only
      rw [if_neg (by simp [hquote]), ← List.cons_append, takeWhile_append_of_head? hchars hrest,
        dropWhile_append_of_head? hchars hrest, htrim]

-- =============================================================== entries

theorem isKeyChar_of_mem {key : List Char} (h : KeyWellFormed key) :
    ∀ c ∈ key, isKeyChar c = true := by
  intro c hc
  simp [isKeyChar, isValueChar, h.chars c hc]

/-- An entry is read back up to the character that ends it or to the end of
the text. -/
theorem entry_writeEntry {pair : String × String} (hkey : KeyWellFormed pair.1.toList)
    {rest : List Char} (hrest : ∀ c ∈ rest.head?, isValueChar c = false) :
    entry (Node.writeEntry pair ++ rest) = ((pair.1.toList, pair.2.toList), rest) := by
  unfold Node.writeEntry entry
  rw [List.append_assoc, List.cons_append,
    takeWhile_append_cons (isKeyChar_of_mem hkey) (by decide),
    dropWhile_append_cons (isKeyChar_of_mem hkey) (by decide), hkey.trimmed]
  show (value (Node.writeValue pair.2.toList ++ rest)).map (pair.1.toList, ·) id = _
  rw [value_writeValue _ hrest]
  rfl

/-- A comma behind an entry is followed by more, and any other character
that ends the entry ends the list. -/
theorem entries_of_entry {text rest : List Char} {first : List Char × List Char} {c : Char}
    (h : entry text = (first, c :: rest)) :
    entries text = if c = ',' then (entries rest).map (first :: ·) id else ([first], rest) := by
  rw [entries]
  split
  · next found others hfound =>
    rw [h] at hfound
    injection hfound with hfirst hrest
    injection hrest with hc hrest
    rw [if_pos hc, hfirst, hrest]
  · next found d others hother hfound =>
    rw [h] at hfound
    injection hfound with hfirst hrest
    injection hrest with hd hrest
    rw [if_neg (hd ▸ hother), hfirst, hrest]
  · next hfound =>
    rw [h] at hfound
    cases hfound

/-- A list ends with the text too. -/
theorem entries_of_last {text rest : List Char} {first : List Char × List Char}
    (h : entry text = (first, rest)) (hrest : ∀ c ∈ rest.head?, c = ')') :
    entries text = ([first], rest.tail) := by
  cases rest with
  | nil =>
      rw [entries]
      split
      · next hfound => cases h.symm.trans hfound
      · next hfound => cases h.symm.trans hfound
      · next hfound =>
        cases h.symm.trans hfound
        rfl
  | cons c rest =>
      obtain rfl := hrest c rfl
      exact entries_of_entry h

/-- A list of entries is read back up to the parenthesis behind it, or to the
end of the text. -/
theorem entries_writeEntries {pairs : List (String × String)} (hne : pairs ≠ [])
    (hkeys : ∀ pair ∈ pairs, KeyWellFormed pair.1.toList) {rest : List Char}
    (hrest : ∀ c ∈ rest.head?, c = ')') :
    entries (Node.writeEntries pairs ++ rest)
      = (pairs.map fun pair => (pair.1.toList, pair.2.toList), rest.tail) := by
  unfold Node.writeEntries
  induction pairs with
  | nil => exact absurd rfl hne
  | cons pair others ih =>
      have hkey := hkeys pair (List.mem_cons_self ..)
      rcases others with - | ⟨second, others⟩
      · rw [List.map_singleton, List.intercalate_singleton]
        refine entries_of_last (entry_writeEntry hkey fun c hc => ?_) hrest
        rw [hrest c hc]
        decide
      · have hmore := ih (by simp) fun other hother => hkeys other (List.mem_cons_of_mem _ hother)
        have hcomma : ∀ c ∈ (',' :: ([','].intercalate ((second :: others).map Node.writeEntry)
            ++ rest)).head?, isValueChar c = false := by
          intro c hc
          obtain rfl := Option.some.inj hc
          decide
        rw [List.map_cons] at hmore hcomma
        rw [List.map_cons, List.map_cons, List.intercalate_cons_cons, List.append_assoc,
          List.append_assoc, List.singleton_append,
          entries_of_entry (entry_writeEntry hkey hcomma), if_pos rfl, hmore]
        rfl

/-- What is read back of the parameters of a node sets these parameters. -/
theorem parametersOf_entries {parameters : Parameters}
    (hkeys : ∀ entry ∈ parameters.entries, KeyWellFormed entry.1.toList) :
    parametersOf (parameters.entries.map fun entry => (entry.1.toList, entry.2.toList))
      = parameters := by
  have hkept : (parameters.entries.map fun entry => (entry.1.toList, entry.2.toList)).filter
      (fun entry => !entry.1.isEmpty)
      = parameters.entries.map fun entry => (entry.1.toList, entry.2.toList) := by
    refine List.filter_eq_self.2 fun entry hentry => ?_
    obtain ⟨pair, hpair, rfl⟩ := List.mem_map.1 hentry
    simpa using (hkeys pair hpair).ne_nil
  unfold parametersOf
  rw [hkept, List.map_map]
  have hsame : (parameters.entries.map ((fun e : List Char × List Char =>
      (String.ofList e.1, String.ofList e.2)) ∘ fun entry => (entry.1.toList, entry.2.toList)))
      = parameters.entries := by
    refine (List.map_congr_left fun entry _ => ?_).trans (List.map_id _)
    simp
  rw [hsame, Dictionary.ofList_entries]

-- ================================================================= nodes

theorem nodesOf_of_nil {text : List Char} (h : text.dropWhile isNameChar = []) :
    nodesOf text = (node? (text.takeWhile isNameChar) ∅).toList := by
  rw [nodesOf]
  split
  · rfl
  · next c rest hrest =>
    rw [h] at hrest
    cases hrest

/-- A parenthesis behind a name opens a list, and any other character that
ends the name ends the node. -/
theorem nodesOf_of_name {text rest : List Char} {c : Char}
    (h : text.dropWhile isNameChar = c :: rest) :
    nodesOf text
      = if c = '(' then
          (node? (text.takeWhile isNameChar) (parametersOf (entries rest).1)).toList
            ++ nodesOf (entries rest).2
        else (node? (text.takeWhile isNameChar) ∅).toList ++ nodesOf rest := by
  rw [nodesOf]
  split
  · next hrest =>
    rw [h] at hrest
    cases hrest
  · next d others hrest =>
    rw [h] at hrest
    injection hrest with hd hrest'
    subst hd hrest'
    rfl

theorem nodesOf_space (rest : List Char) : nodesOf (' ' :: rest) = nodesOf rest := by
  rw [nodesOf_of_name (List.dropWhile_cons_of_neg (by decide)), if_neg (by decide),
    List.takeWhile_cons_of_neg (by decide)]
  rfl

namespace Node.WellFormed

variable {node : Node}

theorem isNameChar_of_mem (h : node.WellFormed) : ∀ c ∈ node.name.toList, isNameChar c = true := by
  intro c hc
  simp [isNameChar, isSeparator, h.chars c hc]

/-- The parts of a well-formed node make it up again. -/
theorem node?_eq (h : node.WellFormed) :
    node? node.name.toList node.parameters = some node := by
  have hparts : ((trim node.name.toList).isEmpty && node.parameters.isEmpty) = false := by
    rw [h.trimmed, Bool.and_eq_false_iff]
    rcases h.nonempty with hname | hparameters
    · left
      simpa using hname
    · right
      simpa [Dictionary.isEmpty] using hparameters
  unfold node?
  rw [hparts, h.trimmed, String.ofList_toList]
  rfl

/-- A node is read back, up to the end of the text or the space behind
it. -/
theorem nodesOf_write (h : node.WellFormed) :
    nodesOf node.write = [node]
      ∧ ∀ rest, nodesOf (node.write ++ ' ' :: rest) = node :: nodesOf rest := by
  unfold Node.write
  by_cases hempty : node.parameters.isEmpty = true
  · have hparameters : node.parameters = ∅ := Dictionary.ext (List.isEmpty_iff.1 hempty)
    have hnode := h.node?_eq
    rw [hparameters] at hnode
    rw [if_pos hempty]
    constructor
    · have hall := List.takeWhile_eq_self_iff.2 h.isNameChar_of_mem
      rw [nodesOf_of_nil (List.dropWhile_eq_nil_iff.2 h.isNameChar_of_mem), hall, hnode]
      rfl
    · intro rest
      rw [nodesOf_of_name (dropWhile_append_cons h.isNameChar_of_mem (by decide)),
        if_neg (by decide), takeWhile_append_cons h.isNameChar_of_mem (by decide), hnode]
      rfl
  · have hne : node.parameters.entries ≠ [] := by simpa [Dictionary.isEmpty] using hempty
    -- the node with anything behind its closing parenthesis
    have hread : ∀ rest, nodesOf (node.name.toList
          ++ '(' :: (writeEntries node.parameters.entries ++ ')' :: rest))
        = node :: nodesOf rest := by
      intro rest
      have hclosing : ∀ c ∈ (')' :: rest).head?, c = ')' := fun _ hc => (Option.some.inj hc).symm
      rw [nodesOf_of_name (dropWhile_append_cons h.isNameChar_of_mem (by decide)), if_pos rfl,
        takeWhile_append_cons h.isNameChar_of_mem (by decide),
        entries_writeEntries hne h.keys hclosing, parametersOf_entries h.keys, h.node?_eq]
      rfl
    rw [if_neg hempty]
    constructor
    · rw [List.append_assoc, List.cons_append, hread, nodesOf_of_nil rfl]
      rfl
    · intro rest
      rw [List.append_assoc, List.append_assoc, List.cons_append, List.singleton_append, hread,
        nodesOf_space]

end Node.WellFormed

/-- Well-formed nodes are read back from what is written of them. -/
theorem nodes_text {nodes : List Node} (h : ∀ node ∈ nodes, node.WellFormed) :
    Spec.nodes (Spec.text nodes) = nodes := by
  have htext : (Spec.text nodes).toList = [' '].intercalate (nodes.map Node.write) := by
    unfold Spec.text
    rw [String.toList_intercalate, List.map_map]
    show [' '].intercalate _ = _
    congr 1
    refine List.map_congr_left fun node _ => ?_
    exact String.toList_ofList
  unfold Spec.nodes
  rw [htext]
  clear htext
  induction nodes with
  | nil =>
      show nodesOf [] = []
      rw [nodesOf_of_nil rfl]
      rfl
  | cons node rest ih =>
      obtain ⟨halone, hbefore⟩ := (h node (List.mem_cons_self ..)).nodesOf_write
      rcases rest with - | ⟨second, rest⟩
      · rw [List.map_singleton, List.intercalate_singleton, halone]
      · have hmore := ih fun other hother => h other (List.mem_cons_of_mem _ hother)
        rw [List.map_cons] at hmore
        rw [List.map_cons, List.map_cons, List.intercalate_cons_cons, List.append_assoc,
          List.singleton_append, hbefore, hmore]

-- ========================================================== what is read

/-- A key that is read, if it is not empty, is well-formed. -/
theorem keyWellFormed_of_takeWhile {text : List Char} (h : trim (text.takeWhile isKeyChar) ≠ []) :
    KeyWellFormed (trim (text.takeWhile isKeyChar)) where
  ne_nil := h
  trimmed := trim_trim _
  chars := by
    intro c hc
    have hkey := List.mem_takeWhile_imp ((trim_sublist _).subset hc)
    simp only [isKeyChar, isValueChar, Bool.and_eq_true, bne_iff_ne] at hkey
    exact ⟨hkey.1, hkey.2.1, hkey.2.2⟩

theorem entry_key (text : List Char) : (entry text).1.1 = trim (text.takeWhile isKeyChar) := by
  unfold entry
  split <;> rfl

/-- So are the keys of a list that is read. -/
theorem keyWellFormed_of_mem_entries (text : List Char) :
    ∀ pair ∈ (entries text).1, pair.1 ≠ [] → KeyWellFormed pair.1 := by
  have hfirst : ∀ {text : List Char} {first : List Char × List Char} {rest : List Char},
      entry text = (first, rest) → first.1 ≠ [] → KeyWellFormed first.1 := by
    intro text first rest h hne
    have hkey := entry_key text
    rw [h] at hkey
    dsimp only at hkey
    rw [hkey] at hne ⊢
    exact keyWellFormed_of_takeWhile hne
  fun_induction entries text with
  | case1 text first rest h shorter ih =>
      intro pair hpair
      rcases List.mem_cons.1 hpair with rfl | hpair
      · exact hfirst h
      · exact ih pair hpair
  | case2 text first c rest hc h =>
      intro pair hpair
      rw [List.mem_singleton.1 hpair]
      exact hfirst h
  | case3 text first h =>
      intro pair hpair
      rw [List.mem_singleton.1 hpair]
      exact hfirst h

theorem keyWellFormed_of_mem_parametersOf (text : List Char) :
    ∀ pair ∈ (parametersOf (entries text).1).entries, KeyWellFormed pair.1.toList := by
  intro pair hpair
  obtain ⟨found, hfound, rfl⟩ := List.mem_map.1 (Dictionary.mem_of_mem_ofList hpair)
  obtain ⟨hmem, hne⟩ := List.mem_filter.1 hfound
  rw [String.toList_ofList]
  refine keyWellFormed_of_mem_entries text found hmem ?_
  simpa using hne

/-- A name and parameters that are read make up a well-formed node. -/
theorem wellFormed_of_node? {text : List Char} {parameters : Parameters}
    (hkeys : ∀ pair ∈ parameters.entries, KeyWellFormed pair.1.toList) :
    ∀ node ∈ (node? (text.takeWhile isNameChar) parameters).toList, node.WellFormed := by
  intro node hnode
  rw [Option.mem_toList] at hnode
  unfold node? at hnode
  split at hnode
  case isTrue => cases hnode
  case isFalse hparts =>
    injection hnode with hnode
    subst hnode
    refine ⟨?_, ?_, ?_, hkeys⟩
    · rw [String.toList_ofList, trim_trim]
    · intro c hc
      rw [String.toList_ofList] at hc
      have hname := List.mem_takeWhile_imp ((trim_sublist _).subset hc)
      simp only [isNameChar, isSeparator, Bool.and_eq_true, Bool.not_eq_true', Bool.or_eq_false_iff,
        beq_eq_false_iff_ne, bne_iff_ne] at hname
      exact ⟨hname.1.1, hname.1.2, hname.2⟩
    · rw [Bool.and_eq_true, not_and_or] at hparts
      rcases hparts with hname | hparameters
      · left
        simpa using hname
      · right
        exact fun hempty => hparameters (List.isEmpty_iff.2 hempty)

/-- Every node that is read is well-formed. -/
theorem wellFormed_of_mem_nodes (spec : String) : ∀ node ∈ Spec.nodes spec, node.WellFormed := by
  have hnone : ∀ pair ∈ (∅ : Parameters).entries, KeyWellFormed pair.1.toList := by
    intro pair hpair
    cases hpair
  unfold Spec.nodes
  generalize spec.toList = text
  fun_induction nodesOf text with
  | case1 text h => exact wellFormed_of_node? hnone
  | case2 text rest h shorter shorter' list ih =>
      intro node hnode
      rcases List.mem_append.1 hnode with hnode | hnode
      · exact wellFormed_of_node? (keyWellFormed_of_mem_parametersOf rest) node hnode
      · exact ih node hnode
  | case3 text c rest h shorter hc ih =>
      intro node hnode
      rcases List.mem_append.1 hnode with hnode | hnode
      · exact wellFormed_of_node? hnone node hnode
      · exact ih node hnode

/-- Writing nodes and reading them back gives the same nodes exactly if
all of them are well-formed. Reading gives no other nodes, so writing
what was read and reading it again changes nothing. -/
theorem nodes_text_iff :
    (∀ nodes : List Node,
        Spec.nodes (Spec.text nodes) = nodes ↔ ∀ node ∈ nodes, node.WellFormed)
      ∧ (∀ spec : String, ∀ node ∈ Spec.nodes spec, node.WellFormed)
      ∧ ∀ spec : String, Spec.nodes (Spec.text (Spec.nodes spec)) = Spec.nodes spec := by
  refine ⟨fun nodes => ⟨fun h => ?_, nodes_text⟩, wellFormed_of_mem_nodes, fun spec => ?_⟩
  · rw [← h]
    exact wellFormed_of_mem_nodes _
  · exact nodes_text (wellFormed_of_mem_nodes spec)

/-- Two nodes with a value of many sorts of characters, an empty value and
a key of two words, and a name of two words that is no node. -/
theorem nodes_text_of_awkward :
    let awkward : List Node :=
      [⟨"say", .ofList [("to whom", " it's \\ (a), b "), ("loud", "")]⟩,
        ⟨"", .ofList [("key", "value")]⟩]
    (∀ node ∈ awkward, node.WellFormed) ∧ Spec.nodes (Spec.text awkward) = awkward
      ∧ Spec.nodes (Spec.text [⟨"a b", ∅⟩]) ≠ [⟨"a b", ∅⟩] := by
  intro awkward
  have hgood : ∀ node ∈ awkward, node.WellFormed := by decide +kernel
  have hbad : ¬∀ node ∈ [(⟨"a b", ∅⟩ : Node)], node.WellFormed := by decide +kernel
  exact ⟨hgood, (nodes_text_iff.1 awkward).2 hgood,
    fun h => hbad ((nodes_text_iff.1 [⟨"a b", ∅⟩]).1 h)⟩

end CommandGrammar.Spec
