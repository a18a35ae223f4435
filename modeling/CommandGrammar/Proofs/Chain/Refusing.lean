/-
What a chain refuses. An argument is refused because a word is missing, or
because its reader does not take the word that is there; binding a chain
adds no reason of its own (`exists_failsFor_of_parse`). Readers of the
standard registry refuse the form of a word, so a chain of theirs never
says that a line ends too early or goes on too long (`not_isOfNode_of_parse`).
These two reasons are left to the nodes of a tree, and a refusal tells by
its reason alone whether a node or an argument has made it.
-/
import CommandGrammar.Proofs.Chain.Match

namespace CommandGrammar

open Decimal Text

variable {α : Type}

-- ================================================================ readers

/-- The reasons that a node of a tree has by itself. -/
def Refusal.IsOfNode : Refusal → Prop
  | .inputExpected => True
  | .unexpectedInput _ => True
  | _ => False

/-- A reader refuses words for no reason that is a node's. -/
def Reader.RefusesForm (reader : Reader α) : Prop :=
  ∀ word refusal, reader.readWord word = .error refusal → ¬ refusal.IsOfNode

theorem Choice.refusesForm_reader (choice : Choice) :
    (choice.reader : Reader α).RefusesForm := by
  intro word refusal h
  change choice.readWord word = .error refusal at h
  unfold readWord at h
  split at h
  · cases h
  · injection h with h
    subst h
    exact id

namespace Number

/-- Words are refused as numbers of a type for their form or their size. -/
def RefusesForm (N : Type) [LT N] [Number N] : Prop :=
  ∀ word refusal, Number.read (N := N) word = .error refusal → ¬ refusal.IsOfNode

theorem refusesForm_int64 : RefusesForm Int64 := by
  intro word refusal h
  change Integer.read word = .error refusal at h
  unfold Integer.read at h
  dsimp only at h
  split at h
  · injection h with h
    subst h
    exact id
  · split at h
    · cases h
    · injection h with h
      subst h
      exact id
    · injection h with h
      subst h
      split <;> exact id

/-- Both formats are read in one way. -/
theorem not_isOfNode_of_read {f : Format} {naming : Fraction.Naming} {word : String}
    {refusal : Refusal} (h : Fraction.read f naming word = .error refusal) :
    ¬ refusal.IsOfNode := by
  unfold Fraction.read at h
  dsimp only at h
  split at h
  · injection h with h
    subst h
    exact id
  · split at h
    · cases h
    · injection h with h
      subst h
      split <;> exact id

theorem refusesForm_single : RefusesForm (Binary .single) :=
  fun _ _ h => not_isOfNode_of_read h

theorem refusesForm_double : RefusesForm (Binary .double) :=
  fun _ _ h => not_isOfNode_of_read h

variable {N : Type} [LT N] [DecidableLT N] [Number N]

/-- Bounds refuse a number for its size. -/
theorem Bounded.not_isOfNode_of_check {bounded : Bounded N} {n : N} {refusal : Refusal}
    (h : bounded.check n = .error refusal) : ¬ refusal.IsOfNode := by
  have hupper : ∀ max, check ⟨none, max, bounded.hint⟩ n = .error refusal →
      ¬ refusal.IsOfNode := by
    intro max h
    unfold check at h
    dsimp only at h
    split at h
    · split at h
      · injection h with h
        subst h
        exact id
      · cases h
    · cases h
  unfold check at h
  dsimp only at h
  -- behind the lower bound, whether there is one or not, the upper one is left
  split at h
  · split at h
    · injection h with h
      subst h
      exact id
    · exact hupper bounded.max h
  · exact hupper bounded.max h

theorem Bounded.refusesForm_reader (hread : RefusesForm N) (bounded : Bounded N) :
    (bounded.reader : Reader α).RefusesForm := by
  intro word refusal h
  change bounded.readWord word = .error refusal at h
  unfold readWord at h
  rcases eq_error_of_bind_eq_error h with h | ⟨n, -, h⟩
  · exact hread word refusal h
  · rcases eq_error_of_bind_eq_error h with h | ⟨checked, -, h⟩
    · exact not_isOfNode_of_check h
    · cases h

end Number

/-- The standard registry builds readers that refuse the form of a word. -/
theorem Registry.builds_refusesForm : (standard : Registry α).Builds Reader.RefusesForm :=
  builds_of_readers Choice.refusesForm_reader
    (Number.Bounded.refusesForm_reader Number.refusesForm_int64)
    (Number.Bounded.refusesForm_reader Number.refusesForm_single)
    (Number.Bounded.refusesForm_reader Number.refusesForm_double)

-- ============================================================== arguments

/-- What an argument can be refused for: a missing word, or a word that
its reader does not take. -/
def Argument.FailsFor (argument : Argument α) (refusal : Refusal) : Prop :=
  refusal = .endOfInput ∨ ∃ word, argument.reader.readWord word = .error refusal

theorem Argument.failsFor_of_read {argument : Argument α} (hstandard : argument.reader.Standard)
    {line : Line} {refusal : Refusal} (h : argument.reader.read line = .error refusal) :
    argument.FailsFor refusal := by
  rw [hstandard.read_eq] at h
  rcases eq_error_of_bind_eq_error h with h | ⟨⟨word, rest⟩, -, h⟩
  · left
    unfold Line.next at h
    split at h
    · cases h
    · injection h with h
      exact h.symm
  · right
    rcases eq_error_of_bind_eq_error h with h | ⟨value, -, h⟩
    · exact ⟨word, h⟩
    · cases h

theorem Argument.failsFor_of_missing {argument : Argument α}
    (hstandard : argument.reader.Standard) {refusal : Refusal}
    (h : argument.missing = .error refusal) : argument.FailsFor refusal := by
  unfold missing at h
  by_cases hrequired : argument.required = true
  · rw [if_pos hrequired] at h
    injection h with h
    exact Or.inl h.symm
  · rw [if_neg hrequired] at h
    cases hpreset : argument.preset with
    | none =>
        rw [hpreset] at h
        cases h
    | some text =>
        rw [hpreset] at h
        exact failsFor_of_read hstandard (eq_error_of_map_eq_error (eq_error_of_map_eq_error h))

-- ================================================================= chains

namespace Chain

theorem exists_failsFor_of_readGiven {given : List (Given α)} :
    ∀ {consumed : Nat} {shortfall : Shortfall},
      (∀ switch ∈ given, switch.argument.reader.Standard) →
      readGiven consumed given = .error shortfall →
      ∃ switch ∈ given, switch.argument.FailsFor shortfall.refusal := by
  induction given with
  | nil => intro consumed shortfall _ h; cases h
  | cons first rest ih =>
      intro consumed shortfall hstandard h
      obtain ⟨hfirst, hrest⟩ := List.forall_mem_cons.1 hstandard
      rw [readGiven] at h
      rcases hread : first.read with refusal | ⟨value, words⟩
      · rw [hread] at h
        injection h with h
        subst h
        refine ⟨first, List.mem_cons_self .., ?_⟩
        unfold Given.read at hread
        cases hvalue : first.value with
        | none =>
            rw [hvalue] at hread
            exact Argument.failsFor_of_missing hfirst (eq_error_of_map_eq_error hread)
        | some word =>
            rw [hvalue] at hread
            exact Or.inr ⟨word, eq_error_of_map_eq_error hread⟩
      · rw [hread] at h
        obtain ⟨switch, hswitch, hfails⟩ := ih hrest (eq_error_of_map_eq_error h)
        exact ⟨switch, List.mem_cons_of_mem _ hswitch, hfails⟩

theorem failsFor_of_bindOne {switches : List (Nat × Option (Value α))} {place : Nat} {line : Line}
    {argument : Argument α} (hstandard : argument.reader.Standard) {refusal : Refusal}
    (h : bindOne switches place line argument = .error refusal) : argument.FailsFor refusal := by
  unfold bindOne at h
  split at h
  · split at h
    · cases h
    · exact Argument.failsFor_of_missing hstandard (eq_error_of_map_eq_error h)
  · split at h
    · exact Argument.failsFor_of_missing hstandard (eq_error_of_map_eq_error h)
    · exact Argument.failsFor_of_read hstandard (eq_error_of_map_eq_error h)

theorem exists_failsFor_of_bindAll {switches : List (Nat × Option (Value α))}
    {arguments : List (Argument α)} :
    ∀ {place consumed : Nat} {line : Line} {shortfall : Shortfall},
      (∀ argument ∈ arguments, argument.reader.Standard) →
      bindAll switches place consumed line arguments = .error shortfall →
      ∃ argument ∈ arguments, argument.FailsFor shortfall.refusal := by
  induction arguments with
  | nil => intro place consumed line shortfall _ h; cases h
  | cons argument rest ih =>
      intro place consumed line shortfall hstandard h
      obtain ⟨hhere, hrest⟩ := List.forall_mem_cons.1 hstandard
      rw [bindAll] at h
      rcases hone : bindOne switches place line argument with refusal | ⟨value, behind⟩
      · rw [hone] at h
        injection h with h
        subst h
        exact ⟨argument, List.mem_cons_self .., failsFor_of_bindOne hhere hone⟩
      · rw [hone] at h
        obtain ⟨other, hother, hfails⟩ := ih hrest (eq_error_of_map_eq_error h)
        exact ⟨other, List.mem_cons_of_mem _ hother, hfails⟩

/-- A chain is refused for what one of its arguments is refused for. -/
theorem exists_failsFor_of_parse {chain : Chain α} (hstandard : chain.Standard) {line : Line}
    {shortfall : Shortfall} (h : chain.parse line = .error shortfall) :
    ∃ argument ∈ chain.arguments, argument.FailsFor shortfall.refusal := by
  have hmem : ∀ switch ∈ chain.given none line, switch.argument ∈ chain.arguments :=
    fun switch hswitch => List.mem_of_getElem? (getElem?_of_mem_scan switch hswitch)
  unfold parse at h
  dsimp only at h
  rcases hread : readGiven 0 (chain.given none line) with other | ⟨switches, consumed⟩
  · rw [hread] at h
    injection h with h
    subst h
    obtain ⟨switch, hswitch, hfails⟩ := exists_failsFor_of_readGiven
      (fun switch hswitch => hstandard _ (hmem switch hswitch)) hread
    exact ⟨switch.argument, hmem switch hswitch, hfails⟩
  · rw [hread] at h
    exact exists_failsFor_of_bindAll hstandard h

/-- A chain of the standard registry is refused for no reason that is a
node's. -/
theorem not_isOfNode_of_parse {chain : Chain α} {nodes : List Spec.Node}
    (hchain : ofNodes .standard nodes = .ok chain) {line : Line} {shortfall : Shortfall}
    (h : chain.parse line = .error shortfall) : ¬ shortfall.refusal.IsOfNode := by
  obtain ⟨argument, hargument, hfails⟩ :=
    exists_failsFor_of_parse (standard_of_ofNodes hchain) h
  rcases hfails with hend | ⟨word, hword⟩
  · rw [hend]
    exact id
  · exact reader_of_ofNodes Registry.builds_refusesForm hchain argument hargument word _ hword

end Chain

end CommandGrammar
