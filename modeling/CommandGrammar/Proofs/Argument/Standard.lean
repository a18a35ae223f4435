/-
What the built-in kinds of arguments have in common. Whatever a node
asks for, a reader of the standard registry takes exactly one word, and
every text that it proposes begins with the word under the cursor
(`Reader.Standard`). Numbers come to that by different ways: whole
numbers by the spans of what was typed, fractions by looking at each
text; `Number.ListsBegun` is what both come to.

A registry is a series of registrations, so a property of all readers
that it builds is one of each factory (`Builds.register`), and it
reaches every argument of a chain that is built from the registry
(`Chain.reader_of_ofNodes`).
-/
import CommandGrammar.Chain
import CommandGrammar.Proofs.Argument.Integer
import CommandGrammar.Proofs.Dictionary

namespace CommandGrammar

open Decimal Text

variable {α : Type}

/-- Two steps answer if the first one does, and the second one behind it. -/
theorem eq_ok_of_bind_eq_ok {ε β γ : Type} {x : Except ε β} {f : β → Except ε γ} {c : γ}
    (h : x >>= f = .ok c) : ∃ b, x = .ok b ∧ f b = .ok c := by
  cases x with
  | error fault => cases h
  | ok b => exact ⟨b, rfl, h⟩

theorem eq_ok_of_map_eq_ok {ε β γ : Type} {x : Except ε β} {f : β → γ} {c : γ}
    (h : x.map f = .ok c) : ∃ b, x = .ok b ∧ f b = c := by
  cases x with
  | error fault => cases h
  | ok b =>
      injection h with h
      exact ⟨b, rfl, h⟩

theorem eq_error_of_bind_eq_error {ε β γ : Type} {x : Except ε β} {f : β → Except ε γ}
    {e : ε} (h : x >>= f = .error e) : x = .error e ∨ ∃ b, x = .ok b ∧ f b = .error e := by
  cases x with
  | error fault =>
      injection h with h
      exact Or.inl (congrArg _ h)
  | ok b => exact Or.inr ⟨b, rfl, h⟩

theorem eq_error_of_map_eq_error {ε β γ : Type} {x : Except ε β} {f : β → γ} {e : ε}
    (h : x.map f = .error e) : x = .error e := by
  cases x with
  | error fault =>
      injection h with h
      exact congrArg _ h
  | ok b => cases h

theorem exists_of_isOk {ε β : Type} {x : Except ε β} (h : x.isOk = true) : ∃ b, x = .ok b := by
  cases x with
  | error fault => cases h
  | ok b => exact ⟨b, rfl⟩

-- =========================================================== one reader

/-- What every built-in reader does. -/
structure Reader.Standard (reader : Reader α) : Prop where
  /-- It takes exactly one word. -/
  read_eq : ∀ line, reader.read line = (do
    let (word, rest) ← line.next
    let value ← reader.readWord word
    return (value, rest))
  /-- It proposes only what begins with the current word. -/
  suggest_begins : ∀ line, ∀ group ∈ reader.suggest line, ∀ suggestion ∈ group,
    begins suggestion.value line.current = true

theorem Reader.standard_ofWord {readWord : String → Except Refusal (Value α)}
    {suggest : Line → List SuggestionGroup}
    (h : ∀ line, ∀ group ∈ suggest line, ∀ suggestion ∈ group,
      begins suggestion.value line.current = true) :
    (Reader.ofWord readWord suggest).Standard :=
  ⟨fun _ => rfl, h⟩

/-- A standard reader takes the first word ahead, if there is one and it
reads it. -/
theorem Reader.Standard.read_eq_ok {reader : Reader α} (h : reader.Standard) {line behind : Line}
    {value : Value α} (hread : reader.read line = .ok (value, behind)) :
    ∃ word, line.next = .ok (word, behind) ∧ reader.readWord word = .ok value := by
  rw [h.read_eq] at hread
  obtain ⟨⟨word, rest⟩, hnext, hread⟩ := eq_ok_of_bind_eq_ok hread
  obtain ⟨found, hword, hread⟩ := eq_ok_of_bind_eq_ok hread
  injection hread with hread
  injection hread with hvalue hrest
  exact ⟨word, hrest ▸ hnext, hvalue ▸ hword⟩

theorem begins_self (text : String) : begins text text = true :=
  List.isPrefixOf_iff_prefix.2 List.prefix_rfl

theorem mem_alone {group other : SuggestionGroup} (h : other ∈ group.alone) : other = group := by
  unfold SuggestionGroup.alone at h
  split at h
  · cases h
  · exact List.mem_singleton.1 h

-- ============================================================== choices

/-- A choice proposes the listed words that begin with what was typed, or
what was typed itself. -/
theorem Choice.standard_reader (choice : Choice) : (choice.reader : Reader α).Standard := by
  refine Reader.standard_ofWord fun line group hgroup suggestion hsuggestion => ?_
  unfold Choice.suggest at hgroup
  split at hgroup
  · rw [mem_alone hgroup] at hsuggestion
    obtain ⟨word, hword, rfl⟩ := List.mem_map.1 hsuggestion
    exact (List.mem_filter.1 hword).2
  · rw [List.mem_singleton.1 hgroup] at hsuggestion
    rw [List.mem_singleton.1 hsuggestion]
    exact begins_self _

-- ============================================================== numbers

namespace Number

/-- The numbers listed for what was typed have texts that begin with it,
wherever it could begin a number. -/
def ListsBegun (N : Type) [LT N] [Number N] : Prop :=
  ∀ {min max n : N} {typed : String} {limit : Nat}, canBegin N typed = true →
    n ∈ listed min max typed limit → begins (text n) typed = true

theorem listsBegun_int64 : ListsBegun Int64 :=
  fun htyped h => Integer.begins_of_mem_listed htyped h

/-- Numbers that are stepped through are looked at one by one. -/
theorem begins_of_mem_stepped {N : Type} [LE N] [DecidableLE N] {next? : N → Option N}
    {text : N → String} {min max n : N} {typed : String} {limit : Nat}
    (h : n ∈ stepped next? text min max typed limit) : begins (text n) typed = true :=
  (List.mem_filter.1 (List.mem_of_mem_take h)).2

theorem listsBegun_single : ListsBegun (Binary .single) :=
  fun _ h => begins_of_mem_stepped h

theorem listsBegun_double : ListsBegun (Binary .double) :=
  fun _ h => begins_of_mem_stepped h

/-- A numeric argument proposes listed numbers, or what was typed itself. -/
theorem Bounded.standard_reader {N : Type} [LT N] [DecidableLT N] [Number N]
    (hlists : ListsBegun N) (bounded : Bounded N) : (bounded.reader : Reader α).Standard := by
  refine Reader.standard_ofWord fun line group hgroup suggestion hsuggestion => ?_
  unfold Bounded.suggest at hgroup
  split at hgroup
  case isFalse => cases hgroup
  case isTrue htyped =>
    split at hgroup
    · rw [mem_alone hgroup] at hsuggestion
      obtain ⟨n, hn, rfl⟩ := List.mem_map.1 hsuggestion
      exact hlists htyped hn
    · rw [List.mem_singleton.1 hgroup] at hsuggestion
      rw [List.mem_singleton.1 hsuggestion]
      exact begins_self _

end Number

-- ============================================================= registries

namespace Registry

variable {P : Reader α → Prop}

/-- Every reader that a registry builds has a property. -/
def Builds (P : Reader α → Prop) (registry : Registry α) : Prop :=
  ∀ kind factory, registry.kinds.get? kind = some factory →
    ∀ node reader, factory node = .ok reader → P reader

theorem builds_empty : (empty : Registry α).Builds P := by
  intro kind factory h
  cases h

/-- One more kind keeps the property if its readers have it. -/
theorem Builds.register {registry : Registry α} (h : registry.Builds P) (kind : String)
    {factory : Factory α} (hfactory : ∀ node reader, factory node = .ok reader → P reader) :
    (registry.register kind factory).Builds P := by
  intro asked found hfound
  rw [Registry.register, Dictionary.get?_insert] at hfound
  split at hfound
  · injection hfound with hfound
    exact hfound ▸ hfactory
  · exact h asked found hfound

/-- The reader of a node has the property. -/
theorem Builds.create {registry : Registry α} (h : registry.Builds P) {node : Spec.Node}
    {reader : Reader α} (hcreate : registry.create node = .ok reader) : P reader := by
  unfold Registry.create at hcreate
  split at hcreate
  · next factory hfactory => exact h _ factory hfactory node reader hcreate
  · cases hcreate

theorem reader_of_number {N : Type} [LT N] [DecidableLT N] [Number N]
    (hnumber : ∀ bounded : Number.Bounded N, P bounded.reader) (node : Spec.Node)
    (reader : Reader α) (h : number N node = .ok reader) : P reader := by
  obtain ⟨bounded, -, h⟩ := eq_ok_of_bind_eq_ok h
  injection h with h
  exact h ▸ hnumber bounded

/-- What the standard registry builds are choices and bounded numbers. -/
theorem builds_of_readers (hchoice : ∀ choice : Choice, P choice.reader)
    (hint : ∀ bounded : Number.Bounded Int64, P bounded.reader)
    (hsingle : ∀ bounded : Number.Bounded (Binary .single), P bounded.reader)
    (hdouble : ∀ bounded : Number.Bounded (Binary .double), P bounded.reader) :
    (standard : Registry α).Builds P := by
  have choice : ∀ (choice : Choice) (reader : Reader α),
      Except.ok (ε := Spec.Defect) choice.reader = .ok reader → P reader := by
    intro choice reader h
    injection h with h
    exact h ▸ hchoice choice
  exact builds_empty
    |>.register "literal" (fun node reader h => choice _ reader h)
    |>.register "string" (fun node reader h => choice _ reader h)
    |>.register "int" (reader_of_number hint)
    |>.register "integer" (reader_of_number hint)
    |>.register "long" (reader_of_number hint)
    |>.register "float" (reader_of_number hsingle)
    |>.register "double" (reader_of_number hdouble)

theorem get?_register (registry : Registry α) (kind asked : String) (factory : Factory α) :
    (registry.register kind factory).kinds.get? asked
      = if asked = kind then some factory else registry.kinds.get? asked :=
  Dictionary.get?_insert ..

/-- The reader of a literal. -/
theorem create_literal {node : Spec.Node} (h : kindOf node = "literal") :
    (standard : Registry α).create node = .ok (Choice.literal node).reader := by
  have hkind : (standard : Registry α).kinds.get? (kindOf node)
      = some fun node => .ok (Choice.literal node).reader := by
    simp [standard, get?_register, h]
  unfold create
  rw [hkind]

/-- The reader of a text. -/
theorem create_string {node : Spec.Node} (h : kindOf node = "string") :
    (standard : Registry α).create node = .ok (Choice.string node).reader := by
  have hkind : (standard : Registry α).kinds.get? (kindOf node)
      = some fun node => .ok (Choice.string node).reader := by
    simp [standard, get?_register, h]
  unfold create
  rw [hkind]

/-- The reader of a whole number, under each of its names. -/
theorem create_integer {node : Spec.Node}
    (h : kindOf node = "int" ∨ kindOf node = "integer" ∨ kindOf node = "long") :
    (standard : Registry α).create node = number Int64 node := by
  have hkind : (standard : Registry α).kinds.get? (kindOf node) = some (number Int64) := by
    rcases h with h | h | h <;> simp [standard, get?_register, h]
  unfold create
  rw [hkind]

/-- The standard registry builds standard readers. -/
theorem builds_standard : (standard : Registry α).Builds Reader.Standard :=
  builds_of_readers Choice.standard_reader (Number.Bounded.standard_reader Number.listsBegun_int64)
    (Number.Bounded.standard_reader Number.listsBegun_single)
    (Number.Bounded.standard_reader Number.listsBegun_double)

end Registry

-- ================================================================ chains

/-- An argument is read as its node asks for and keeps what the node says,
and its text for missing words is one that it reads. -/
theorem Argument.exists_reader_of_ofNode {registry : Registry α} {node : Spec.Node}
    {argument : Argument α} (h : ofNode registry node = .ok argument) :
    ∃ reader, registry.create node = .ok reader
      ∧ argument =
        { node, reader
          required := node.parameters.flag "required" true
          preset := node.parameters.get? "default"
          suppressed := node.parameters.flag "suppress" false
          switch := node.parameters.get? "switch" }
      ∧ ∀ text, argument.preset = some text →
          ∃ value, readText argument.reader text = .ok value := by
  obtain ⟨reader, hcreate, h⟩ := eq_ok_of_bind_eq_ok h
  refine ⟨reader, hcreate, ?_⟩
  dsimp only at h
  split at h
  case h_1 text hpreset =>
    split at h
    case h_1 value hvalue =>
      injection h with h
      subst h
      refine ⟨rfl, fun other hother => ⟨value, ?_⟩⟩
      rw [← Option.some.inj (hpreset.symm.trans hother)]
      exact hvalue
    case h_2 => cases h
  case h_2 hpreset =>
    injection h with h
    subst h
    exact ⟨rfl, fun text htext => by cases hpreset.symm.trans htext⟩

theorem Argument.create_of_ofNode {registry : Registry α} {node : Spec.Node}
    {argument : Argument α} (h : ofNode registry node = .ok argument) :
    registry.create node = .ok argument.reader := by
  obtain ⟨reader, hcreate, rfl, -⟩ := exists_reader_of_ofNode h
  exact hcreate

/-- What is built one after the other is built element by element. -/
theorem map_eq_of_mapM_eq_ok {ε β γ : Type} {f : β → Except ε γ} {list : List β} :
    ∀ {results : List γ}, list.mapM f = .ok results → list.map f = results.map .ok := by
  induction list with
  | nil =>
      intro results h
      injection h with h
      exact h ▸ rfl
  | cons b rest ih =>
      intro results h
      rw [List.mapM_cons] at h
      obtain ⟨first, hfirst, h⟩ := eq_ok_of_bind_eq_ok h
      obtain ⟨others, hothers, h⟩ := eq_ok_of_bind_eq_ok h
      injection h with h
      rw [← h, List.map_cons, List.map_cons, hfirst, ih hothers]

theorem exists_of_mem_of_mapM_eq_ok {ε β γ : Type} {f : β → Except ε γ} {list : List β}
    {results : List γ} (h : list.mapM f = .ok results) (c : γ) (hc : c ∈ results) :
    ∃ b ∈ list, f b = .ok c := by
  have hmem := List.mem_map_of_mem (f := Except.ok (ε := ε)) hc
  rw [← map_eq_of_mapM_eq_ok h] at hmem
  exact List.mem_map.1 hmem

/-- The arguments of a chain are read as their registry builds readers. -/
theorem Chain.reader_of_ofNodes {P : Reader α → Prop} {registry : Registry α}
    (hregistry : registry.Builds P) {nodes : List Spec.Node} {chain : Chain α}
    (h : ofNodes registry nodes = .ok chain) :
    ∀ argument ∈ chain.arguments, P argument.reader := by
  intro argument hargument
  obtain ⟨arguments, harguments, h⟩ := eq_ok_of_bind_eq_ok h
  have hchain : chain.arguments = arguments := by
    split at h
    · cases h
    · injection h with h
      rw [← h]
  rw [hchain] at hargument
  obtain ⟨node, -, hnode⟩ := exists_of_mem_of_mapM_eq_ok harguments argument hargument
  exact hregistry.create (Argument.create_of_ofNode hnode)

/-- The readers of a chain are standard. -/
def Chain.Standard (chain : Chain α) : Prop :=
  ∀ argument ∈ chain.arguments, argument.reader.Standard

theorem Chain.standard_of_ofNodes {nodes : List Spec.Node} {chain : Chain α}
    (h : ofNodes .standard nodes = .ok chain) : chain.Standard :=
  reader_of_ofNodes Registry.builds_standard h

/-- A spec that can be built is built from its nodes. -/
theorem Chain.ofNodes_of_isOk {registry : Registry α} {spec : String}
    (h : (ofSpec registry spec).isOk = true) :
    ofNodes registry (Spec.nodes spec) = .ok ((ofSpec registry spec).toOption.getD ⟨[]⟩) := by
  change ofSpec registry spec = _
  rcases hspec : ofSpec registry spec with defect | chain
  · rw [hspec] at h
    cases h
  · rfl

end CommandGrammar
