/-
Reading a spec. A spec is a row of nodes parted by spaces and tabs; a
node is a name that may be followed at once by a list of parameters in
parentheses. Reading never fails: whatever cannot be a node is dropped,
and an open list closes where the text ends.

The grammar is followed downwards: `nodes` reads a name and, behind a
parenthesis, `entries`; `entries` reads an `entry` at a time; an entry
is a key and perhaps a `value`, bare or quoted. Each reader answers what
it read and the text left, and the text left is never longer than what
it was given; that is what ends the recursion.
-/
import CommandGrammar.Spec.Node

namespace CommandGrammar.Spec

open Text

-- ================================================== one parameter entry

/-- Whether a character continues a name. -/
def isNameChar (c : Char) : Bool :=
  !isSeparator c && c != '('

/-- Whether a character continues a bare value: neither comma nor
closing parenthesis. -/
def isValueChar (c : Char) : Bool :=
  c != ',' && c != ')'

/-- Whether a character continues a key. -/
def isKeyChar (c : Char) : Bool :=
  c != '=' && isValueChar c

/-- Reads a value up to the comma or parenthesis that ends it. Behind
leading blanks a quote opens a quoted value, and whatever stands between
its closing quote and the end of the value is dropped; any other value
is bare, and trimmed. -/
def value (text : List Char) : List Char × List Char :=
  match text.dropWhile isBlank with
  | q :: rest =>
      if isQuote q then
        (unquote q rest).map id (·.dropWhile isValueChar)
      else (trim (text.takeWhile isValueChar), text.dropWhile isValueChar)
  | [] => ([], [])

/-- Reads a key and, behind an equals sign, its value; without the sign
the value is empty. What is left is empty or begins with a comma or a
closing parenthesis. -/
def entry (text : List Char) : (List Char × List Char) × List Char :=
  match text.dropWhile isKeyChar with
  | '=' :: rest =>
      (value rest).map (trim (text.takeWhile isKeyChar), ·) id
  | rest => ((trim (text.takeWhile isKeyChar), []), rest)

/-- Leaving out leading characters does not lengthen a text. -/
private theorem length_dropWhile_le (p : Char → Bool) (text : List Char) :
    (text.dropWhile p).length ≤ text.length :=
  (List.dropWhile_sublist p).length_le

/-- A value leaves no more text than there was. -/
theorem value_snd_length_le (text : List Char) :
    (value text).2.length ≤ text.length := by
  have blanks := length_dropWhile_le isBlank text
  simp only [value]
  split
  · next q rest h =>
    have quoted := unquote_snd_length_le q rest
    have after := length_dropWhile_le isValueChar (unquote q rest).2
    have bare := length_dropWhile_le isValueChar text
    simp only [h, List.length_cons] at blanks
    split <;> simp only [Prod.map_snd] <;> omega
  · simp

/-- An entry leaves no more text than there was. -/
theorem entry_snd_length_le (text : List Char) :
    (entry text).2.length ≤ text.length := by
  have key := length_dropWhile_le isKeyChar text
  simp only [entry]
  split
  · next rest h =>
    have after := value_snd_length_le rest
    simp only [h, List.length_cons] at key
    simp only [Prod.map_snd, id_eq]
    omega
  · exact key

-- ======================================================== whole lists

/-- Reads entries up to the closing parenthesis, which is read as well,
or to the end of the text. -/
def entries (text : List Char) : List (List Char × List Char) × List Char :=
  match h : entry text with
  | (first, ',' :: rest) =>
      have : rest.length < text.length := by
        have := entry_snd_length_le text
        simp only [h, List.length_cons] at this
        omega
      (entries rest).map (first :: ·) id
  | (first, _ :: rest) => ([first], rest)
  | (first, []) => ([first], [])
termination_by text.length

/-- The parameters that a list of entries sets: entries without a key
are dropped, and of equal keys the last one counts. -/
def parametersOf (entries : List (List Char × List Char)) : Parameters :=
  .ofList <| (entries.filter fun e => !e.1.isEmpty).map fun e =>
    (String.ofList e.1, String.ofList e.2)

/-- A list of entries leaves no more text than there was. -/
theorem entries_snd_length_le (text : List Char) :
    (entries text).2.length ≤ text.length := by
  fun_induction entries text with
  | case1 text first rest h shorter ih =>
      simp only [Prod.map_snd, id_eq]
      omega
  | case2 text first c rest _ h =>
      have := entry_snd_length_le text
      simp only [h, List.length_cons] at this
      simp only
      omega
  | case3 => simp

-- ============================================================== nodes

/-- The node of a name and parameters as they were read; nothing if
there is neither. -/
def node? (name : List Char) (parameters : Parameters) : Option Node :=
  if (trim name).isEmpty && parameters.isEmpty then none
  else some ⟨String.ofList (trim name), parameters⟩

/-- Reads the nodes of a text. -/
def nodesOf (text : List Char) : List Node :=
  match h : text.dropWhile isNameChar with
  | [] => (node? (text.takeWhile isNameChar) ∅).toList
  | c :: rest =>
      have shorter : rest.length < text.length := by
        have := length_dropWhile_le isNameChar text
        simp only [h, List.length_cons] at this
        omega
      if c = '(' then
        have : (entries rest).2.length < text.length :=
          Nat.lt_of_le_of_lt (entries_snd_length_le rest) shorter
        let list := entries rest
        (node? (text.takeWhile isNameChar) (parametersOf list.1)).toList
          ++ nodesOf list.2
      else (node? (text.takeWhile isNameChar) ∅).toList ++ nodesOf rest
termination_by text.length

/-- The nodes of a spec. -/
def nodes (spec : String) : List Node :=
  nodesOf spec.toList

/-- The parameters of a bare list such as `x=1,label='a b'`. Whatever
follows a closing parenthesis is left unread. -/
def parameters (text : String) : Parameters :=
  parametersOf (entries text.toList).1

/-- Several nodes in written form, parted by single spaces. -/
def text (nodes : List Node) : String :=
  " ".intercalate (nodes.map Node.text)

end CommandGrammar.Spec
