/-
What an argument binds when it has no word. The text that stands in for
missing words is split as a typed line is, and its first word is read
(`preset_bound`). So an argument binds what it reads for the text itself
if the text is a single plain word; behind a space the rest of the text is
lost, and so are quotes and backslashes (`preset_cut`).

An argument has no word if it is a switch that is not given, or not with a
value, or if the arguments before it take all words there are. The
accounts of a match say which word is whose (`Bound`), so it is enough to
look up the argument's own word there (`Bound.getElem?_bindings`).
-/
import CommandGrammar.Proofs.Chain.Account
import CommandGrammar.Proofs.Chain.Building
import CommandGrammar.Proofs.Line.Words

namespace CommandGrammar

open Text

variable {α : Type}

-- ============================================================= own words

/-- The text for missing words is split into words, and the first of them
is read. -/
theorem Argument.readText_eq_ok {reader : Reader α} (hstandard : reader.Standard) {text : String}
    {value : Value α} (h : readText reader text = .ok value) :
    ∃ first, (Line.ofText text).ahead.head? = some first
      ∧ reader.readWord first = .ok value := by
  obtain ⟨⟨found, rest⟩, hread, rfl⟩ := eq_ok_of_map_eq_ok h
  obtain ⟨word, hnext, hword⟩ := hstandard.read_eq_ok hread
  refine ⟨word, ?_, hword⟩
  unfold Line.next at hnext
  split at hnext
  case h_2 => cases hnext
  case h_1 first others hahead =>
    injection hnext with hnext
    injection hnext with hfirst _
    rw [hahead, ← hfirst]
    rfl

/-- The word of an argument: of a switch its value, and of any other
argument the one in its place among those taken. -/
def ownWord (given : List (Given α)) (taken : List String) (place before : Nat)
    (argument : Argument α) : Option String :=
  if argument.switch.isSome then (given.find? (·.place == place)).bind Given.value
  else taken[before]?

/-- How many of some arguments are bound by their place. -/
def placed (arguments : List (Argument α)) : Nat :=
  arguments.countP (·.switch.isNone)

theorem placed_cons_of_switch {argument : Argument α} (h : argument.switch.isSome)
    (rest : List (Argument α)) : placed (argument :: rest) = placed rest :=
  List.countP_cons_of_neg (by simpa [Option.isSome_iff_ne_none] using h)

theorem placed_cons {argument : Argument α} (h : argument.switch = none)
    (rest : List (Argument α)) : placed (argument :: rest) = placed rest + 1 :=
  List.countP_cons_of_pos (by rw [h]; rfl)

/-- Every argument binds by its own word. -/
theorem Bound.getElem?_bindings {given : List (Given α)} {left : List String} {place : Nat}
    {arguments : List (Argument α)} {taken : List String} {bindings : List (Binding α)}
    (h : Bound given left place arguments taken bindings) :
    ∀ {i : Nat} {argument : Argument α}, arguments[i]? = some argument →
      ∃ value, bindings[i]? = some ⟨value, argument.suppressed⟩
        ∧ argument.Binds (ownWord given taken (place + i) (placed (arguments.take i)) argument)
          value := by
  induction h with
  | nil => intro i argument hi; cases hi
  | switch hswitch hbinds _ ih =>
      intro i argument hi
      cases i with
      | zero =>
          obtain rfl := Option.some.inj hi
          exact ⟨_, rfl, by rw [ownWord, if_pos hswitch]; exact hbinds⟩
      | succ i =>
          rw [List.take_succ_cons, placed_cons_of_switch hswitch, ← Nat.add_assoc,
            Nat.add_right_comm]
          exact ih hi
  | word hnone hbinds _ ih =>
      intro i argument hi
      cases i with
      | zero =>
          obtain rfl := Option.some.inj hi
          exact ⟨_, rfl, by rw [ownWord, hnone]; exact hbinds⟩
      | succ i =>
          rw [List.take_succ_cons, placed_cons hnone, ← Nat.add_assoc,
            Nat.add_right_comm]
          exact ih hi
  | missing hnone hbinds _ _ ih =>
      intro i argument hi
      cases i with
      | zero =>
          obtain rfl := Option.some.inj hi
          exact ⟨_, rfl, by rw [ownWord, hnone]; exact hbinds⟩
      | succ i =>
          rw [List.take_succ_cons, placed_cons hnone, ← Nat.add_assoc,
            Nat.add_right_comm]
          exact ih hi

namespace Chain

/-- Nothing is left for the argument at a place. It is a switch that is not
given, or given without a value; or those before it take all the words that
are not taken by switches. -/
def Exhausted (chain : Chain α) (line : Line) (place : Nat) (argument : Argument α) : Prop :=
  if argument.switch.isSome then
    ∀ given ∈ chain.given none line, given.place = place → given.value = none
  else (chain.leave none [] line.index line.ahead).length ≤ placed (chain.arguments.take place)

instance (chain : Chain α) (line : Line) (place : Nat) (argument : Argument α) :
    Decidable (chain.Exhausted line place argument) :=
  inferInstanceAs (Decidable (if argument.switch.isSome then
      ∀ given ∈ chain.given none line, given.place = place → given.value = none
    else (chain.leave none [] line.index line.ahead).length ≤ placed (chain.arguments.take place)))

/-- An argument for which nothing is left has no word of its own. -/
theorem Exhausted.ownWord_eq_none {chain : Chain α} {line : Line} {place : Nat}
    {argument : Argument α} (h : chain.Exhausted line place argument) {matched : Match α}
    {taken : List String} (haccounts : matched.Accounts chain line taken) :
    ownWord (chain.given none line) taken place (placed (chain.arguments.take place)) argument
      = none := by
  unfold Exhausted at h
  unfold ownWord
  split at h
  case isTrue hswitch =>
    rw [if_pos hswitch]
    cases hfind : (chain.given none line).find? (·.place == place) with
    | none => rfl
    | some given =>
        exact h given (List.mem_of_find?_eq_some hfind) (by simpa using List.find?_some hfind)
  case isFalse hswitch =>
    -- the words taken are some of those left by the switches
    have hleft := haccounts.words.length_eq.symm.trans
      (chain.mixed_scan none [] line.index line.ahead).length_eq
    rw [List.length_append] at hleft
    unfold given at hleft
    rw [if_neg hswitch]
    exact List.getElem?_eq_none (by omega)

/-- Where nothing is left for an optional argument with a text for missing
words, it binds what it reads for the first word of that text. So it does
for the text itself if that is plain; and a text argument without options
binds the first word. -/
theorem preset_bound {nodes : List Spec.Node} {chain : Chain α}
    (hchain : ofNodes .standard nodes = .ok chain) {place : Nat} {node : Spec.Node}
    (hnode : nodes[place]? = some node) (hoptional : node.parameters.flag "required" true = false)
    {text : String} (htext : node.parameters.get? "default" = some text) :
    ∃ argument first value, chain.arguments[place]? = some argument
      ∧ Argument.ofNode .standard node = .ok argument
      ∧ (Line.ofText text).ahead.head? = some first
      ∧ argument.reader.readWord first = .ok value
      ∧ argument.missing = .ok (some value)
      ∧ (Line.Plain text → first = text)
      ∧ (Registry.kindOf node = "string" → node.parameters.get? "options" = none →
          value = .text first)
      ∧ ∀ line matched, chain.Exhausted line place argument → chain.parse line = .ok matched →
          matched.bindings[place]? = some ⟨some value, argument.suppressed⟩ := by
  have hstandard := standard_of_ofNodes hchain
  obtain ⟨argument, hargument, hbuilt⟩ := exists_of_getElem?_node hchain hnode
  have hreader := hstandard argument (List.mem_of_getElem? hargument)
  obtain ⟨reader, hcreate, hfields, hpreset⟩ := Argument.exists_reader_of_ofNode hbuilt
  have hsome : argument.preset = some text := by rw [hfields]; exact htext
  obtain ⟨value, hvalue⟩ := hpreset text hsome
  obtain ⟨first, hfirst, hword⟩ := Argument.readText_eq_ok hreader hvalue
  have hmissing : argument.missing = .ok (some value) := by
    have hrequired : argument.required = false := by rw [hfields]; exact hoptional
    unfold Argument.missing
    rw [hrequired, hsome]
    dsimp only
    rw [hvalue]
    rfl
  refine ⟨argument, first, value, hargument, hbuilt, hfirst, hword, hmissing, fun hplain => ?_,
    fun hkind hoptions => ?_, fun line matched hexhausted hmatched => ?_⟩
  · rw [Line.ahead_ofText_of_plain hplain] at hfirst
    exact (Option.some.inj hfirst).symm
  · have hreader : argument.reader = (Choice.string node).reader := by
      have hstring := Registry.create_string (α := α) hkind
      rw [Argument.create_of_ofNode hbuilt] at hstring
      injection hstring
    rw [hreader] at hword
    unfold Choice.string at hword
    rw [hoptions] at hword
    injection hword with hword
    exact hword.symm
  · obtain ⟨taken, haccounts⟩ := accounts_of_parse hstandard hmatched
    obtain ⟨bound, hbound, hbinds⟩ := haccounts.bound.getElem?_bindings hargument
    rw [Nat.zero_add, hexhausted.ownWord_eq_none haccounts] at hbinds
    cases hbinds with
    | preset _ htext' hread =>
        obtain rfl := Option.some.inj (hsome.symm.trans htext')
        rw [hvalue] at hread
        injection hread with hread
        rw [hbound, hread]
    | unset _ hnone => cases hsome.symm.trans hnone

/-- A name, and a number that is seven where it is missing. -/
def nameAndCount : String := "@string @int(default=7,required=false)"

theorem nameAndCount_preset_bound :
    let chain : Chain Unit := (ofSpec .standard nameAndCount).toOption.getD ⟨[]⟩
    ∃ argument value matched, chain.arguments[1]? = some argument
      ∧ chain.Exhausted (.ofText "x") 1 argument
      ∧ argument.reader.readWord "7" = .ok value
      ∧ chain.parse (.ofText "x") = .ok matched
      ∧ matched.bindings[1]? = some ⟨some value, argument.suppressed⟩ := by
  intro chain
  have hchain : ofNodes .standard (Spec.nodes nameAndCount) = .ok chain :=
    ofNodes_of_isOk (by decide +kernel)
  obtain ⟨node, hnode⟩ : ∃ node, (Spec.nodes nameAndCount)[1]? = some node :=
    Option.isSome_iff_exists.1 (by decide +kernel)
  have hparameters : ∀ node ∈ (Spec.nodes nameAndCount)[1]?,
      node.parameters.flag "required" true = false
        ∧ node.parameters.get? "default" = some "7" := by decide +kernel
  obtain ⟨hoptional, htext⟩ := hparameters node hnode
  obtain ⟨argument, first, value, hargument, -, -, hword, -, hplain, -, hbound⟩ :=
    preset_bound hchain hnode hoptional htext
  have hexhausted : ∀ argument ∈ chain.arguments[1]?, chain.Exhausted (.ofText "x") 1 argument := by
    decide +kernel
  obtain ⟨matched, hmatched⟩ := exists_of_isOk
    (by decide +kernel : (chain.parse (.ofText "x")).isOk = true)
  have hseven : Line.Plain "7" := by
    have hchars : "7".toList = ['7'] := by decide
    refine ⟨by decide, ?_⟩
    rw [hchars]
    exact List.forall_mem_singleton.2 (by decide)
  exact ⟨argument, value, matched, hargument, hexhausted argument hargument, hplain hseven ▸ hword,
    hmatched, hbound _ matched (hexhausted argument hargument) hmatched⟩

/-- A text of two words that stands in for missing words. Only the first
one is bound, although the argument would read both as one word. -/
theorem preset_cut :
    let chain : Chain Unit :=
      (ofSpec .standard "@string(default='a b',required=false)").toOption.getD ⟨[]⟩
    (∀ argument ∈ chain.arguments, chain.Exhausted (.ofText "") 0 argument
        ∧ argument.preset = some "a b"
        ∧ (argument.reader.readWord "a b").toOption.bind Value.text? = some "a b")
      ∧ (chain.parse (.ofText "")).toOption.map
          (fun matched => matched.bindings.map fun binding => binding.value.bind Value.text?)
        = some [some "a"] := by
  decide +kernel

end Chain

end CommandGrammar
