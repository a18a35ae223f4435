/-
What completing a typed line offers. Whatever is offered for a line
begins with the word being completed: `suggestions_begin` says so of a
tree, for any line that it is given, and of a catalog, for any text that
is typed. A catalog hands a tree the words behind the first one, of
which the last one is completed, or the one that a trailing space is
about to begin; while the first word is typed, it offers names.
-/
import CommandGrammar.Catalog
import CommandGrammar.Proofs.Tree.Completion

namespace CommandGrammar

open Text

-- ========================================================= the last word

namespace Line

/-- The last word of a line, or the empty one that a trailing space is
about to begin. -/
def lastWord (line : Line) : String :=
  if line.trailingSpace then "" else line.ahead.getLastD ""

/-- Where there is one word at most, it is the current one. -/
theorem lastWord_of_size_le_one {line : Line} (hsize : line.size ≤ 1)
    (htrailing : line.trailingSpace = false) : line.lastWord = line.current := by
  obtain ⟨passed, ahead, label, trailing, completion⟩ := line
  dsimp only at htrailing
  subst htrailing
  match ahead, hsize with
  | [], _ => rfl
  | [word], _ => rfl

/-- The line of the words behind the first one, under some name, has the
same last word being completed. -/
theorem typed?_tail {line : Line} (label : String)
    (h : ¬(line.size ≤ 1 ∧ line.trailingSpace = false)) :
    (((ofWords line.ahead.tail).withLabel label).withTrailingSpace line.trailingSpace).typed?
      = some line.lastWord := by
  obtain ⟨passed, ahead, label, trailing, completion⟩ := line
  cases trailing with
  | true =>
      show some (ahead.tail.getD ahead.tail.length "") = some ""
      rw [List.getD_eq_getElem?_getD, List.getElem?_eq_none (Nat.le_refl _)]
      rfl
  | false =>
      show some (ahead.tail.getD (ahead.tail.length - 1) "") = some (ahead.getLastD "")
      match ahead, h with
      | [], h => exact absurd ⟨Nat.zero_le 1, rfl⟩ h
      | [word], h => exact absurd ⟨Nat.le_refl 1, rfl⟩ h
      | first :: second :: rest, _ =>
          rw [List.getD_eq_getElem?_getD, ← List.getLast?_eq_getElem?, List.tail_cons,
            List.getLastD_eq_getLast?, List.getLast?_cons_cons]

end Line

-- ============================================================== catalogs

namespace Catalog

variable {m : Type → Type} {α : Type} [Monad m] {context : Context m}

/-- The commands of a catalog have plain trees without handlers that
change suggestions. -/
def Plain (context : Context m) (catalog : Catalog m α) : Prop :=
  ∀ command ∈ catalog.commands,
    command.tree.Every fun node => node.Plain context ∧ node.handlers.complete = none

theorem every_of_find? {catalog : Catalog m α} (hplain : catalog.Plain context) {name : String}
    {tree : Tree m α} (h : catalog.find? name = some tree) :
    tree.Every fun node => node.Plain context ∧ node.handlers.complete = none := by
  obtain ⟨command, hcommand, rfl⟩ := Option.map_eq_some_iff.1 h
  exact hplain command (List.mem_of_find?_eq_some hcommand)

/-- Matching a typed line reads the context and leaves the suggestions;
where they begin with the last word, if the name is complete. -/
theorem exists_parse {catalog : Catalog m α} (hplain : catalog.Plain context) {input : String}
    (h : ¬((Line.ofText input).size ≤ 1 ∧ (Line.ofText input).trailingSpace = false)) :
    context.Reads (catalog.parse input) ∧ (context.ask (catalog.parse input)).Unhandled
      ∧ ∀ group ∈ (context.ask (catalog.parse input)).suggestions, ∀ suggestion ∈ group,
          begins suggestion.value (Line.ofText input).lastWord = true := by
  unfold parse
  dsimp only
  split
  · next tree htree =>
    have hevery := every_of_find? hplain htree
    have hnodes : tree.Every (Tree.Plain context) := hevery.imp fun _ hnode => hnode.1
    have hreads : tree.Every (Tree.ReadsOnly context) := hnodes.imp fun _ hnode => hnode.reads
    refine ⟨Tree.reads_parse context hreads _, ?_, ?_⟩
    · rw [Tree.ask_parse context hreads]
      exact Tree.unhandled_walk hreads
        (hevery.imp fun _ hnode => ⟨hnode.1.fallback, hnode.2⟩) _ _ rfl
    · intro group hgroup suggestion hsuggestion
      obtain ⟨word, htyped, hbegins⟩ :=
        Tree.begins_of_mem_suggestions hnodes group hgroup suggestion hsuggestion
      rw [Line.typed?_tail _ h] at htyped
      injection htyped with htyped
      exact htyped ▸ hbegins
  · refine ⟨context.reads_pure _, ?_, ?_⟩
    · rw [context.ask_pure]
      exact Outcome.unhandled_of_none rfl
    · rw [context.ask_pure]
      intro group hgroup
      cases hgroup

/-- What a catalog offers for a typed line begins with its last word. -/
theorem begins_of_mem_suggest {catalog : Catalog m α} (hplain : catalog.Plain context)
    {input text : String} (h : text ∈ context.ask (catalog.suggest input)) :
    begins text (Line.ofText input).lastWord = true := by
  unfold suggest at h
  dsimp only at h
  split at h
  case isTrue hname =>
    simp only [Bool.and_eq_true, decide_eq_true_eq, Bool.not_eq_true'] at hname
    rw [context.ask_pure] at h
    rw [Line.lastWord_of_size_le_one hname.1 hname.2]
    exact (List.mem_filter.1 h).2
  case isFalse hname =>
    simp only [Bool.and_eq_true, decide_eq_true_eq, Bool.not_eq_true'] at hname
    obtain ⟨hreads, hunhandled, hbegins⟩ := exists_parse hplain hname
    obtain ⟨groups, hsub, hcomplete⟩ := Outcome.complete_eq_pure hunhandled
    rw [context.ask_bind hreads, hcomplete, context.ask_bind (context.reads_pure _),
      context.ask_pure, context.ask_pure] at h
    · obtain ⟨group, hgroup, hvalue⟩ :=
        List.mem_flatMap.1 (List.mem_filter.1 (List.mem_eraseDups.1 h)).1
      obtain ⟨suggestion, hsuggestion, rfl⟩ := List.mem_map.1 hvalue
      exact hbegins group (hsub hgroup) suggestion hsuggestion
    · exact context.reads_pure _
    · rw [hcomplete]
      exact context.reads_bind (context.reads_pure _) (context.reads_pure _)

end Catalog

-- ============================================================ both at once

/-- Whatever is offered begins with the word being completed: for a tree
that is the word at the completion of the line given, empty if that is
past the last word, and without one ahead of the cursor nothing is
offered at all; for a catalog it is the last word typed, empty behind a
space that ends the text. -/
theorem suggestions_begin {m : Type → Type} {α : Type} [Monad m] (context : Context m) :
    (∀ (tree : Tree m α) (line : Line), tree.Every (Tree.Plain context) →
      (∀ group ∈ (context.ask (tree.parse line)).suggestions, ∀ suggestion ∈ group,
        ∃ c, line.completion = some c
          ∧ (line.allWords.getD c "").toList <+: suggestion.value.toList)
      ∧ ((∀ c, line.completion = some c → c < line.index) →
        (context.ask (tree.parse line)).suggestions = []))
    ∧ ∀ (catalog : Catalog m α) (input : String), catalog.Plain context →
        ∀ text ∈ context.ask (catalog.suggest input),
          (Line.ofText input).lastWord.toList <+: text.toList := by
  refine ⟨fun tree line hplain => ⟨?_, fun hbehind => ?_⟩, fun catalog input hplain text h => ?_⟩
  · intro group hgroup suggestion hsuggestion
    obtain ⟨word, htyped, hbegins⟩ :=
      Tree.begins_of_mem_suggestions hplain group hgroup suggestion hsuggestion
    obtain ⟨c, hc, -, hword⟩ := Line.typed?_eq_some_iff.1 htyped
    rw [← hword] at hbegins
    exact ⟨c, hc, List.isPrefixOf_iff_prefix.1 hbegins⟩
  · refine Tree.suggestions_eq_nil hplain (Option.eq_none_iff_forall_ne_some.2 ?_)
    intro word htyped
    obtain ⟨c, hc, hle, -⟩ := Line.typed?_eq_some_iff.1 htyped
    exact absurd (hbehind c hc) (Nat.not_lt.2 hle)
  · exact List.isPrefixOf_iff_prefix.1 (Catalog.begins_of_mem_suggest hplain h)

/-- The chain of a number given as a switch and a name from a list. -/
def greetingChain : Except Spec.Defect (Chain Unit) :=
  Chain.ofSpec .standard "@int(min=1,max=20,switch=n) @string(options='anna|bert')"

/-- A tree that puts a number into the line and asks for a name behind a
guard. -/
def greeting : Tree (ReaderM Bool) Unit :=
  { expansion := some "-n 12"
    children :=
      [{ chain := some (greetingChain.toOption.getD ⟨[]⟩)
         handlers := { guard := some fun isOpen => isOpen } }] }

/-- The name is completed behind the switch, typed as the first word of a
line and as the second word of a text; behind the cursor it is not. -/
theorem greeting_suggestions_begin :
    let context := Context.reader true
    let catalog : Catalog (ReaderM Bool) Unit := ⟨[{ names := ["greet"], tree := greeting }]⟩
    greeting.Every (Tree.Plain context) ∧ catalog.Plain context
      ∧ (∀ group ∈ (context.ask (greeting.parse (.ofWords ["a"]))).suggestions,
          ∀ suggestion ∈ group, ['a'] <+: suggestion.value.toList)
      ∧ (context.ask (greeting.parse (.ofWords ["a"]))).suggestions.flatMap SuggestionGroup.values
        = ["anna"]
      ∧ (context.ask (greeting.parse ((Line.ofWords ["a"]).moveTo 1))).suggestions = []
      ∧ (∀ text ∈ context.ask (catalog.suggest "greet a"), ['a'] <+: text.toList)
      ∧ context.ask (catalog.suggest "greet a") = ["anna"] := by
  intro context catalog
  have hbuilt : ∃ nodes, Chain.ofNodes .standard nodes
      = .ok (greetingChain.toOption.getD ⟨[]⟩) := by
    exact ⟨_, Chain.ofNodes_of_isOk (by decide +kernel)⟩
  have hnodes : greeting.Every fun node =>
      node.Plain context ∧ node.handlers.complete = none := by
    refine Tree.every_iff.2 ⟨⟨⟨⟨nofun, nofun⟩, rfl, nofun⟩, rfl⟩,
      List.forall_mem_cons.2 ⟨?_, nofun⟩⟩
    refine Tree.every_iff.2 ⟨⟨⟨⟨fun guard _ => trivial, nofun⟩, rfl, ?_⟩, rfl⟩, nofun⟩
    rintro chain ⟨⟩
    exact hbuilt
  have hplain : greeting.Every (Tree.Plain context) := hnodes.imp fun _ hnode => hnode.1
  have hcatalog : catalog.Plain context := List.forall_mem_cons.2 ⟨hnodes, nofun⟩
  refine ⟨hplain, hcatalog, fun group hgroup suggestion hsuggestion => ?_, by decide +kernel,
    ((suggestions_begin context).1 greeting _ hplain).2 ?_, ?_, by decide +kernel⟩
  · obtain ⟨c, hc, hprefix⟩ :=
      ((suggestions_begin context).1 greeting _ hplain).1 group hgroup suggestion hsuggestion
    injection hc with hc
    subst hc
    exact hprefix
  · intro c hc
    injection hc with hc
    subst hc
    exact Nat.zero_lt_one
  · have hlast : (Line.ofText "greet a").lastWord.toList = ['a'] := by decide +kernel
    exact fun text h => hlast ▸ (suggestions_begin context).2 catalog "greet a" hcatalog text h

end CommandGrammar
