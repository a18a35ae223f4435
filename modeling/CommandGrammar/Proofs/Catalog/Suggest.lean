/-
What a catalog offers, exactly. There are two phases: names while the first
word is being completed, and behind it whatever the tree of the command
offers, each text once. `suggest_offers` says which texts come in which
order, in any monad and so in every context.

The catalog tells the phases apart by the number of words and the trailing
space, and the line has its own notion of the word being completed; these
agree but for one kind of text (`completion_ofText_eq_zero_iff`). Spaces
with no word behind them end with a space and begin the first word at the
same time: there nothing is offered at all (`names_not_offered`).

Each text once, at its first occurrence: that is a list with the same texts,
in the order of their first places (`listsOnce_iff`).
-/
import CommandGrammar.Proofs.Catalog.History
import CommandGrammar.Proofs.Line.Words
import Mathlib.Data.List.Basic

namespace CommandGrammar

open Text

-- ====================================================== first occurrences

/-- Some texts are the values other than the empty one, each once, in the
order of their first occurrences. -/
structure ListsOnce (values texts : List String) : Prop where
  mem_iff : ∀ text, text ∈ texts ↔ text ∈ values ∧ text ≠ ""
  inOrder : texts.Pairwise fun a b => values.idxOf a < values.idxOf b

section Occurrence

variable {values : List String} {p : String → Bool} {a b : String}

/-- Leaving other texts out keeps the order of first occurrences. -/
theorem idxOf_filter_lt_iff (ha : p a = true) (hb : p b = true) :
    (values.filter p).idxOf a < (values.filter p).idxOf b ↔ values.idxOf a < values.idxOf b := by
  induction values with
  | nil => rfl
  | cons first rest ih =>
      by_cases hfirst : p first = true
      · rw [List.filter_cons_of_pos hfirst, List.idxOf_cons, List.idxOf_cons, List.idxOf_cons,
          List.idxOf_cons]
        cases first == a <;> cases first == b <;> simp [ih]
      · have hne : ∀ {c : String}, p c = true → first ≠ c := fun hc heq => hfirst (heq ▸ hc)
        rw [List.filter_cons_of_neg hfirst, List.idxOf_cons_ne _ (hne ha),
          List.idxOf_cons_ne _ (hne hb), ih, Nat.succ_lt_succ_iff]

/-- Without its repetitions a list is in the order of first occurrences. -/
theorem pairwise_eraseDups (values : List String) :
    values.eraseDups.Pairwise fun a b => values.idxOf a < values.idxOf b := by
  induction hlength : values.length using Nat.strong_induction_on generalizing values with
  | _ n ih =>
      cases values with
      | nil => exact List.Pairwise.nil
      | cons first rest =>
          have hkept : ∀ {c}, c ∈ (rest.filter fun c => !c == first).eraseDups →
              (!c == first) = true := fun hc => (List.mem_filter.1 (List.mem_eraseDups.1 hc)).2
          have hother : ∀ {c}, c ∈ (rest.filter fun c => !c == first).eraseDups → first ≠ c := by
            rintro c hc rfl
            simpa using hkept hc
          have hless : (rest.filter fun c => !c == first).length < n := by
            rw [← hlength]
            exact Nat.lt_succ_of_le (List.length_filter_le _ _)
          rw [List.eraseDups_cons]
          refine List.pairwise_cons.2 ⟨fun c hc => ?_, ?_⟩
          · rw [List.idxOf_cons_self, List.idxOf_cons_ne _ (hother hc)]
            exact Nat.succ_pos _
          · refine (ih _ hless _ rfl).imp_of_mem fun {a b} ha hb hlt => ?_
            rw [List.idxOf_cons_ne _ (hother ha), List.idxOf_cons_ne _ (hother hb)]
            exact Nat.succ_lt_succ ((idxOf_filter_lt_iff (hkept ha) (hkept hb)).1 hlt)

theorem ListsOnce.nodup {texts : List String} (h : ListsOnce values texts) : texts.Nodup :=
  h.inOrder.imp fun hlt heq => absurd (heq ▸ hlt) (Nat.lt_irrefl _)

theorem ListsOnce.unique {texts others : List String} (h : ListsOnce values texts)
    (hothers : ListsOnce values others) : texts = others := by
  have hperm : texts.Perm others := (List.perm_ext_iff_of_nodup h.nodup hothers.nodup).2
    fun text => (h.mem_iff text).trans (hothers.mem_iff text).symm
  exact hperm.eq_of_pairwise (fun _ _ _ _ hlt hgt => absurd hlt (Nat.lt_asymm hgt)) h.inOrder
    hothers.inOrder

theorem listsOnce_iff {texts : List String} :
    ListsOnce values texts ↔ texts = (values.filter (!·.isEmpty)).eraseDups := by
  have hnonempty : ∀ text : String, (!text.isEmpty) = true ↔ text ≠ "" := by simp
  have hgood : ListsOnce values (values.filter (!·.isEmpty)).eraseDups := by
    constructor
    · intro text
      rw [List.mem_eraseDups, List.mem_filter, hnonempty]
    · refine (pairwise_eraseDups _).imp_of_mem fun {a b} ha hb hlt => ?_
      exact (idxOf_filter_lt_iff (List.mem_filter.1 (List.mem_eraseDups.1 ha)).2
        (List.mem_filter.1 (List.mem_eraseDups.1 hb)).2).1 hlt
  exact ⟨fun h => h.unique hgood, fun h => h ▸ hgood⟩

end Occurrence

-- ========================================================== the two phases

namespace Line

/-- A text has no word exactly if it is made of separators. -/
theorem ahead_ofText_eq_nil_iff {text : String} :
    (ofText text).ahead = [] ↔ ∀ c ∈ text.toList, isSeparator c = true := by
  show (words text.toList).1.map String.ofList = [] ↔ _
  rw [List.map_eq_nil_iff]
  refine ⟨fun h => ?_, fun h => by rw [words_of_only_separators h]⟩
  rw [words_eq] at h
  split at h
  case h_1 hdrop => exact List.dropWhile_eq_nil_iff.1 hdrop
  case h_2 => cases h

theorem trailingSpace_of_separators {text : String} (h : ∀ c ∈ text.toList, isSeparator c = true) :
    (ofText text).trailingSpace = !text.toList.isEmpty := by
  show (words text.toList).2 = _
  rw [words_of_only_separators h]

/-- The first word is being completed where there is no other and none is
begun by a trailing space, or where there is none at all. -/
theorem completion_ofText_eq_zero_iff {text : String} :
    (ofText text).completion = some 0
      ↔ ((ofText text).size ≤ 1 ∧ (ofText text).trailingSpace = false)
        ∨ (ofText text).ahead = [] := by
  unfold ofText withTrailingSpace size
  dsimp only
  generalize (words text.toList).1.map String.ofList = typed
  show some (if (words text.toList).2 then typed.length else typed.length - 1) = some 0
    ↔ typed.length ≤ 1 ∧ (words text.toList).2 = false ∨ typed = []
  rw [Option.some.injEq, ← List.length_eq_zero_iff]
  cases (words text.toList).2
  · simp only [Bool.false_eq_true, if_false, and_true]
    omega
  · simp

/-- A text of spaces and tabs, but not the empty one, has no word and still a
trailing space. -/
theorem separators_iff {text : String} :
    (text ≠ "" ∧ ∀ c ∈ text.toList, c = ' ' ∨ c = '\t')
      ↔ (ofText text).ahead = [] ∧ (ofText text).trailingSpace = true := by
  have hseparator : (∀ c ∈ text.toList, c = ' ' ∨ c = '\t')
      ↔ ∀ c ∈ text.toList, isSeparator c = true := by
    simp [isSeparator]
  rw [hseparator, ahead_ofText_eq_nil_iff, and_comm]
  refine and_congr_right fun h => ?_
  rw [trailingSpace_of_separators h]
  simp

theorem allWords_ofText (text : String) : (ofText text).allWords = (ofText text).ahead :=
  List.nil_append _

end Line

namespace Catalog

variable {m : Type → Type} {α : Type}

/-- The texts that groups propose, each once and no empty one. -/
def distinctValues (groups : List SuggestionGroup) : List String :=
  ((groups.flatMap SuggestionGroup.values).filter (!·.isEmpty)).eraseDups

variable [Monad m]

section Phases

variable {catalog : Catalog m α} {input : String}

theorem suggest_of_name
    (h : (Line.ofText input).size ≤ 1 ∧ (Line.ofText input).trailingSpace = false) :
    catalog.suggest input = pure ((catalog.commands.flatMap Command.names).filter fun name =>
      ((Line.ofText input).allWords.getD 0 "").toList <+: name.toList) := by
  have hword : (Line.ofText input).allWords.getD 0 "" = (Line.ofText input).current := by
    rw [Line.allWords_ofText, List.getD_eq_getElem?_getD, ← List.head?_eq_getElem?,
      ← List.headD_eq_head?_getD]
    rfl
  unfold suggest
  dsimp only
  rw [hword, if_pos (by simpa using h)]
  refine congrArg pure (List.filter_congr fun name _ => ?_)
  rw [begins, Bool.eq_iff_iff, List.isPrefixOf_iff_prefix, decide_eq_true_iff]

theorem suggest_behind_name
    (h : ¬((Line.ofText input).size ≤ 1 ∧ (Line.ofText input).trailingSpace = false)) :
    catalog.suggest input = do
      let outcome ← catalog.parse input
      let groups ← outcome.complete
      return distinctValues groups := by
  unfold suggest
  dsimp only
  rw [if_neg (by simpa using h)]
  rfl

/-- A line without words is looked up under the empty name, which no command
has, and what is refused completes to nothing. -/
theorem suggest_of_no_word [LawfulMonad m] (hregistered : catalog.Registered)
    (hnil : (Line.ofText input).ahead = [])
    (htrailing : (Line.ofText input).trailingSpace = true) : catalog.suggest input = pure [] := by
  have hunknown : catalog.find? (Line.ofText input).current = none := by
    have hempty : (Line.ofText input).current = "" := by rw [Line.current, hnil]; rfl
    rw [hempty, find?_eq_none_iff, place?_eq_none_iff]
    exact fun command hcommand => hregistered.named.nonempty _ (List.mem_map_of_mem hcommand)
  have hparse : catalog.parse input
      = pure (.refused (.unknownCommand (Line.ofText input).current)) := by
    unfold parse
    dsimp only
    rw [hunknown]
  rw [suggest_behind_name (by simp [htrailing]), hparse, pure_bind]
  show (pure [] >>= fun groups => pure (distinctValues groups)) = _
  rw [pure_bind]
  rfl

end Phases

/-- Where the first word is completed the catalog offers its names that begin
with the word, in the order of registration; for spaces alone it offers none.
Behind the first word it offers what the outcome of the line completes to,
each text once. -/
theorem suggest_offers [LawfulMonad m] {catalog : Catalog m α} (hregistered : catalog.Registered)
    (input : String) :
    let line := Line.ofText input
    let onlySpaces : Prop := input ≠ "" ∧ ∀ c ∈ input.toList, c = ' ' ∨ c = '\t'
    (line.completion = some 0 → ¬onlySpaces →
        catalog.suggest input = pure ((catalog.commands.flatMap Command.names).filter fun name =>
          (line.allWords.getD 0 "").toList <+: name.toList))
      ∧ (onlySpaces → line.completion = some 0 ∧ catalog.suggest input = pure [])
      ∧ (line.completion ≠ some 0 →
          catalog.suggest input = do
            let outcome ← catalog.parse input
            let groups ← outcome.complete
            return distinctValues groups)
      ∧ ∀ groups texts, texts = distinctValues groups
          ↔ ListsOnce (groups.flatMap SuggestionGroup.values) texts := by
  intro line onlySpaces
  have hcompletion : line.completion = some 0
      ↔ (line.size ≤ 1 ∧ line.trailingSpace = false) ∨ line.ahead = [] :=
    Line.completion_ofText_eq_zero_iff
  have hspaces : onlySpaces ↔ line.ahead = [] ∧ line.trailingSpace = true := Line.separators_iff
  refine ⟨fun hfirst hnot => ?_, fun honly => ?_, fun hbehind => ?_, fun groups texts =>
    listsOnce_iff.symm⟩
  · refine suggest_of_name ?_
    rcases hcompletion.1 hfirst with hname | hnil
    · exact hname
    · -- without a word and a trailing space there is no text at all
      refine ⟨by rw [Line.size, hnil]; exact Nat.zero_le 1, ?_⟩
      cases htrailing : line.trailingSpace with
      | false => rfl
      | true => exact absurd (hspaces.2 ⟨hnil, htrailing⟩) hnot
  · obtain ⟨hnil, htrailing⟩ := hspaces.1 honly
    exact ⟨hcompletion.2 (Or.inr hnil), suggest_of_no_word hregistered hnil htrailing⟩
  · exact suggest_behind_name fun hname => hbehind (hcompletion.2 (Or.inl hname))

/-- A tree with a word that two of its children accept. -/
def salute : Tree (ReaderM Bool) Unit :=
  { children := ["mike|milly", "@int", "milly|art"].map fun spec =>
      { chain := some ((Chain.ofSpec .standard spec).toOption.getD ⟨[]⟩) } }

/-- A catalog that knows it under two names. -/
def salutes : Catalog (ReaderM Bool) Unit :=
  enterAll {} [{ names := "hail|hi", change := fun _ => salute }, { names := "list" }]

/-- Names for an escaped letter, nothing for a space and a tab, and behind a
name the words of all children, the common one at its first place and the
number, which has no text yet, left out. -/
theorem salutes_suggest_offers :
    salutes.Registered
      ∧ ((Line.ofText "\\h").completion = some 0 ∧ salutes.suggest "\\h" = pure ["hail", "hi"])
      ∧ salutes.suggest " \t" = pure []
      ∧ ((Line.ofText "hi ").completion ≠ some 0
        ∧ salutes.suggest "hi " = do
            let outcome ← salutes.parse "hi "
            let groups ← outcome.complete
            return distinctValues groups)
      ∧ (Context.reader true).ask (salutes.suggest "hi ") = ["mike", "milly", "art"] := by
  have hregistered : salutes.Registered := Registered.empty.enterAll _
  have hname : (Line.ofText "\\h").completion = some 0 := by decide +kernel
  have hletter : ¬("\\h" ≠ "" ∧ ∀ c ∈ "\\h".toList, c = ' ' ∨ c = '\t') := fun h =>
    absurd (h.2 'h' (by decide)) (by decide)
  have hspaces : " \t" ≠ "" ∧ ∀ c ∈ " \t".toList, c = ' ' ∨ c = '\t' :=
    ⟨by decide, List.forall_mem_cons.2 ⟨Or.inl rfl, List.forall_mem_singleton.2 (Or.inr rfl)⟩⟩
  have hbehind : (Line.ofText "hi ").completion ≠ some 0 := by decide +kernel
  refine ⟨hregistered, ⟨hname, ?_⟩, ((suggest_offers hregistered " \t").2.1 hspaces).2,
    ⟨hbehind, (suggest_offers hregistered "hi ").2.2.1 hbehind⟩, by decide +kernel⟩
  rw [(suggest_offers hregistered "\\h").1 hname hletter]
  exact congrArg pure (by decide +kernel)

/-- For a space the first word is being completed, the name of the command
begins with it, and the name is not offered. -/
theorem names_not_offered :
    let catalog : Catalog Id Unit := (register {} "list").1
    catalog.Registered ∧ (Line.ofText " ").completion = some 0
      ∧ ((catalog.commands.flatMap Command.names).filter fun name =>
          ((Line.ofText " ").allWords.getD 0 "").toList <+: name.toList) = ["list"]
      ∧ (catalog.suggest " ").run = [] :=
  ⟨.register _ .empty, by decide +kernel, by decide +kernel, by decide +kernel⟩

end Catalog

end CommandGrammar
