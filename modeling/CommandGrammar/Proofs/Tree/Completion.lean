/-
What a tree proposes begins with the word being completed in the line
that was given. Every visit is reached with a line whose word being
completed is the one of the line given, or that has none any more
(`typed?_of_reached`): a step of the rule matches a chain, which passes
words and takes out switches, and puts in words, and each of these
leaves the word. What the nodes then propose is known chain by chain.

Handlers may change suggestions before they are shown. Where no node has
such a handler, none is found (`unhandled_walk`), and what is shown is
among what was proposed.
-/
import CommandGrammar.Proofs.Chain.Completion
import CommandGrammar.Proofs.Tree.Gather

namespace CommandGrammar

open Text

variable {m : Type → Type} {α : Type}

-- ======================================================= lines of visits

namespace Tree

section Reached

variable [Monad m] (context : Context m)

/-- A node without a fallback whose chain, if it has one, is built from
the standard registry. -/
structure Plain (node : Tree m α) : Prop where
  /-- What its handlers do on the way leaves the context as it is. -/
  reads : ReadsOnly context node
  /-- It has no fallback. -/
  fallback : node.handlers.fallback = none
  /-- Its chain is built from the standard registry. -/
  chain : ∀ chain, node.chain = some chain → ∃ nodes, Chain.ofNodes .standard nodes = .ok chain

variable {context}

theorem standard_of_plain {node : Tree m α} (hplain : node.Plain context) :
    ∀ chain, node.chain = some chain → chain.Standard := by
  intro chain hchain
  obtain ⟨nodes, hnodes⟩ := hplain.chain chain hchain
  exact Chain.standard_of_ofNodes hnodes

/-- What a matching node hands to its children leaves the word being
completed. -/
theorem typed?_of_behind {node : Tree m α} (hplain : node.Plain context) {line : Line}
    {matched : Match α} (hmatch : node.Matches context line matched) {word : String}
    (h : (node.behind matched).typed? = some word) : line.typed? = some word := by
  have hrest : matched.rest.typed? = some word := by
    unfold behind at h
    cases hexpansion : node.expansion with
    | none => rwa [hexpansion] at h
    | some text =>
        rw [hexpansion] at h
        exact (Line.typed?_insert matched.rest text).symm.trans h
  cases hchain : node.chain with
  | none =>
      rw [hmatch.noChain hchain] at hrest
      exact hrest
  | some chain =>
      exact Chain.typed?_of_parse (standard_of_plain hplain chain hchain)
        (hmatch.chain chain hchain) hrest

/-- Every visit has the word being completed of the line given, or none. -/
theorem typed?_of_reached {tree : Tree m α} (hplain : tree.Every (Plain context)) {line : Line}
    {visit : Visit m α} (h : Visit.Reached context tree line visit) :
    visit.node.Every (Plain context)
      ∧ ∀ word, visit.line.typed? = some word → line.typed? = some word := by
  induction h with
  | refl => exact ⟨hplain, fun _ htyped => htyped⟩
  | tail hreached hstep ih =>
      obtain ⟨hnode, hline⟩ := ih
      cases hstep with
      | down hmatch hchild =>
          exact ⟨hnode.child (List.mem_of_getElem? hchild), fun word htyped =>
            hline word (typed?_of_behind hnode.root hmatch htyped)⟩

-- =========================================================== suggestions

theorem mem_offered {visit : Visit m α} {group : SuggestionGroup}
    (h : group ∈ visit.offered context) :
    ∃ chain, visit.node.chain = some chain ∧ group ∈ chain.suggest visit.line := by
  unfold Visit.offered proposals at h
  split at h
  case isFalse => cases h
  case isTrue =>
    cases hchain : visit.node.chain with
    | none => rw [hchain] at h; cases h
    | some chain =>
        rw [hchain] at h
        exact ⟨chain, rfl, h⟩

/-- The suggestions of a tree are those of the chains of visits. -/
theorem exists_of_mem_suggestions {tree : Tree m α} (hplain : tree.Every (Plain context))
    {line : Line} {group : SuggestionGroup}
    (h : group ∈ (context.ask (tree.parse line)).suggestions) :
    ∃ visit chain, Visit.Reached context tree line visit
      ∧ visit.node.chain = some chain ∧ group ∈ chain.suggest visit.line := by
  have hreads : tree.Every (ReadsOnly context) := hplain.imp fun _ hnode => hnode.reads
  have hgathered := gather_walk context hreads (hplain.imp fun _ hnode => hnode.fallback)
    [] line [] {} ⟨rfl, rfl⟩
  rw [ask_parse context hreads, hgathered.suggestions] at h
  obtain ⟨visit, hvisit, h⟩ := List.mem_flatMap.1 h
  obtain ⟨chain, hchain, h⟩ := mem_offered h
  exact ⟨visit, chain, (mem_visits context).1 hvisit, hchain, h⟩

/-- What a tree proposes begins with the word being completed. -/
theorem begins_of_mem_suggestions {tree : Tree m α} (hplain : tree.Every (Plain context))
    {line : Line} :
    ∀ group ∈ (context.ask (tree.parse line)).suggestions, ∀ suggestion ∈ group,
      ∃ word, line.typed? = some word ∧ begins suggestion.value word = true := by
  intro group hgroup suggestion hsuggestion
  obtain ⟨visit, chain, hreached, hchain, hgroup⟩ := exists_of_mem_suggestions hplain hgroup
  obtain ⟨hnode, hline⟩ := typed?_of_reached hplain hreached
  obtain ⟨word, htyped, hbegins⟩ := Chain.begins_of_mem_suggest
    (standard_of_plain hnode.root chain hchain) group hgroup suggestion hsuggestion
  exact ⟨word, hline word htyped, hbegins⟩

/-- Where no word ahead is being completed, a tree proposes nothing. -/
theorem suggestions_eq_nil {tree : Tree m α} (hplain : tree.Every (Plain context)) {line : Line}
    (h : line.typed? = none) : (context.ask (tree.parse line)).suggestions = [] := by
  refine List.eq_nil_iff_forall_not_mem.2 fun group hgroup => ?_
  obtain ⟨visit, chain, hreached, hchain, hgroup⟩ := exists_of_mem_suggestions hplain hgroup
  have hnone : visit.line.typed? = none := by
    refine Option.eq_none_iff_forall_ne_some.2 fun word htyped => ?_
    rw [(typed?_of_reached hplain hreached).2 word htyped] at h
    cases h
  rw [Chain.suggest_eq_nil hnone] at hgroup
  cases hgroup

end Reached

end Tree

-- ============================================== suggestions left as found

namespace Outcome

/-- No handler changes the suggestions. -/
def Unhandled (outcome : Outcome m α) : Prop :=
  ∀ found, outcome.completion = some found → found.item = none

theorem Unhandled.append {a b : Outcome m α} (ha : a.Unhandled) (hb : b.Unhandled) :
    (a ++ b).Unhandled := by
  intro found h
  rw [completion_append] at h
  cases hleft : a.completion with
  | none =>
      rw [hleft, Weighted.heavier_none_left] at h
      exact hb found h
  | some left =>
      cases hright : b.completion with
      | none =>
          rw [hright, Weighted.heavier_none_right] at h
          exact ha found h
      | some right =>
          rw [hleft, hright, Weighted.heavier] at h
          split at h
          · exact hb found (hright.trans h)
          · exact ha found (hleft.trans h)

theorem unhandled_of_none {outcome : Outcome m α} (h : outcome.completion = none) :
    outcome.Unhandled := by
  intro found hfound
  rw [h] at hfound
  cases hfound

theorem unhandled_ofCompletion (weight : Nat) :
    (ofCompletion none weight : Outcome m α).Unhandled := by
  intro found h
  injection h with h
  rw [← h]

theorem unhandled_ofSuggestions (groups : List SuggestionGroup) (weight : Nat) :
    (ofSuggestions groups none weight : Outcome m α).Unhandled := by
  unfold ofSuggestions
  split
  · exact unhandled_of_none rfl
  · exact unhandled_ofCompletion (α := α) weight

/-- Unchanged suggestions are shown, or none are. -/
theorem complete_eq_pure [Monad m] {outcome : Outcome m α} (h : outcome.Unhandled) :
    ∃ groups, groups ⊆ outcome.suggestions ∧ outcome.complete = pure groups := by
  unfold complete
  split
  · next weight handler hfound => cases h _ hfound
  · exact ⟨_, List.Subset.refl _, rfl⟩
  · exact ⟨[], List.nil_subset _, rfl⟩

end Outcome

namespace Tree

/-- A meeting leaves the suggestions, and hands down no handler for them. -/
def Arrival.Unhandled : Arrival m α → Prop
  | .refused outcome _ => outcome.Unhandled
  | .entered outcome _ standing => outcome.Unhandled ∧ standing.complete = none

theorem unhandled_atEnd (tree : Tree m α) (line : Line) {standing : Standing m α}
    (h : standing.complete = none) : (tree.atEnd line standing).Unhandled := by
  unfold atEnd
  rw [h]
  refine Outcome.Unhandled.append ?_ ?_
  · split <;> exact Outcome.unhandled_of_none rfl
  · split
    · exact Outcome.unhandled_ofCompletion _
    · exact Outcome.unhandled_of_none rfl

theorem unhandled_enter (tree : Tree m α) {found : Outcome m α} (hfound : found.Unhandled)
    (line : Line) {standing : Standing m α} (h : standing.complete = none) :
    (tree.enter found line standing).Unhandled := by
  refine ⟨?_, h⟩
  split
  · exact hfound.append (unhandled_atEnd tree _ h)
  · exact hfound

/-- Meeting a node without a handler for suggestions leaves them. -/
theorem unhandled_arrive {tree : Tree m α} (hnode : tree.handlers.complete = none) (line : Line)
    {standing : Standing m α} (h : standing.complete = none) :
    (tree.arrive line standing).Unhandled := by
  have hunder : (standing.under tree.handlers).complete = none := by
    unfold Standing.under
    rw [hnode, h]
    rfl
  unfold arrive
  dsimp only
  split
  · exact unhandled_enter tree (Outcome.unhandled_of_none rfl) line hunder
  · rw [hunder]
    split
    · exact unhandled_enter tree (Outcome.unhandled_ofSuggestions _ _) _ hunder
    · exact (Outcome.unhandled_ofSuggestions _ _).append (Outcome.unhandled_of_none rfl)

variable [Monad m] {context : Context m}

/-- So does a walk through a tree without fallbacks and such handlers. -/
theorem unhandled_walk {tree : Tree m α} (hreads : tree.Every (ReadsOnly context))
    (hnone : tree.Every fun node =>
      node.handlers.fallback = none ∧ node.handlers.complete = none)
    (line : Line) (standing : Standing m α) (hstanding : standing.complete = none) :
    (context.ask (tree.walk line standing)).1.Unhandled := by
  revert hnone hstanding
  refine ask_walk_induction context (motive := fun tree _ standing answer =>
    (tree.Every fun node => node.handlers.fallback = none ∧ node.handlers.complete = none) →
      standing.complete = none → answer.1.Unhandled) ?closed ?refused ?entered hreads line standing
  case closed =>
    intro tree line standing _ _ _
    exact Outcome.unhandled_of_none rfl
  case refused =>
    intro tree line standing found accepted _ harrive hnone hstanding
    have hhere := unhandled_arrive hnone.root.2 line hstanding
    rwa [harrive] at hhere
  case entered =>
    intro tree line standing found behind handed hreads _ harrive ih hnone hstanding
    have hhere := unhandled_arrive hnone.root.2 line hstanding
    rw [harrive] at hhere
    obtain ⟨hfound, hhanded⟩ := hhere
    have hchildren : (context.ask (walkAll behind handed tree.children)).1.Unhandled := by
      apply ask_walkAll_of_forall context
      · exact Outcome.unhandled_of_none rfl
      · exact fun a b ha hb => ha.append hb
      · exact fun child hchild => hreads.child hchild
      · exact fun child hchild => ih child hchild (hnone.child hchild) hhanded
    have hboth := hfound.append hchildren
    split
    · exact hboth
    · unfold leftover
      rw [hnone.root.1]
      dsimp only
      split <;> rw [context.ask_pure]
      · exact hboth
      · exact hboth.append (Outcome.unhandled_of_none rfl)

end Tree

end CommandGrammar
