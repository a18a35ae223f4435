/-
Suggestions that were gathered are shown. An outcome keeps the groups of
suggestions apart from the candidate that lets them be shown: a walk adds the
two at different places and with different weights, and merging strings the
groups together but keeps one candidate. Yet no group is ever left without a
candidate, whatever outcomes are matched from lines, merged and moved behind
other words, and whatever fallbacks do the same on the way.

`Shows` is what all of this keeps. Groups come into an outcome with a candidate
of their own (`shows_ofSuggestions`), all else that a node finds adds no group,
and a merge has a candidate if either side has one. So a walk shows if the
answers it takes over from fallbacks do (`shows_walk`). `Asks` says which these
are, so that nothing is asked of a fallback but what it really answers: a
fallback may well match a line against the tree it stands in, as long as that
comes to an end.
-/
import CommandGrammar.Proofs.Outcome
import CommandGrammar.Proofs.Tree.Walk

namespace CommandGrammar

variable {m : Type → Type} {α : Type}

-- ============================================================== outcomes

namespace Outcome

/-- Groups of suggestions come with a candidate that lets them be shown. -/
def Shows (outcome : Outcome m α) : Prop :=
  outcome.suggestions ≠ [] → outcome.completion.isSome

theorem shows_of_suggestions_eq_nil {outcome : Outcome m α} (h : outcome.suggestions = []) :
    outcome.Shows :=
  fun hgroups => absurd h hgroups

theorem shows_append {a b : Outcome m α} (ha : a.Shows) (hb : b.Shows) : (a ++ b).Shows := by
  intro hgroups
  rw [suggestions_append, Ne, List.append_eq_nil_iff, not_and_or] at hgroups
  rw [completion_append, Weighted.isSome_heavier, Bool.or_eq_true]
  rcases hgroups with hleft | hright
  · exact Or.inl (ha hleft)
  · exact Or.inr (hb hright)

theorem shows_offset {outcome : Outcome m α} (h : outcome.Shows) (words : Nat) :
    (outcome.offset words).Shows := by
  intro hgroups
  show (outcome.completion.map _).isSome
  rw [Option.isSome_map]
  exact h hgroups

theorem shows_ofSuggestions (groups : List SuggestionGroup) (handler : Option (CompleteHandler m))
    (weight : Nat) : (ofSuggestions groups handler weight : Outcome m α).Shows := by
  cases groups with
  | nil => exact shows_of_suggestions_eq_nil rfl
  | cons group rest => exact fun _ => rfl

end Outcome

-- =============================================================== the walk

namespace Tree

/-- What meeting a node finds shows. -/
def Arrival.Shows : Arrival m α → Prop
  | .refused outcome _ => outcome.Shows
  | .entered outcome _ _ => outcome.Shows

-- the end of a line brings no group, only a candidate
theorem shows_atEnd (tree : Tree m α) (line : Line) (standing : Standing m α) :
    (tree.atEnd line standing).Shows := by
  apply Outcome.shows_append <;> apply Outcome.shows_of_suggestions_eq_nil
  · split <;> rfl
  · split <;> rfl

theorem shows_enter (tree : Tree m α) {found : Outcome m α} (hfound : found.Shows) (line : Line)
    (standing : Standing m α) : (tree.enter found line standing).Shows := by
  show Outcome.Shows (if _ then _ else _)
  split
  · exact Outcome.shows_append hfound (shows_atEnd tree _ standing)
  · exact hfound

theorem shows_arrive (tree : Tree m α) (line : Line) (standing : Standing m α) :
    (tree.arrive line standing).Shows := by
  unfold arrive
  dsimp only
  split
  · exact shows_enter tree (Outcome.shows_of_suggestions_eq_nil rfl) _ _
  · split
    · exact shows_enter tree (Outcome.shows_ofSuggestions _ _ _) _ _
    · exact Outcome.shows_append (Outcome.shows_ofSuggestions _ _ _)
        (Outcome.shows_of_suggestions_eq_nil rfl)

variable [Monad m] (context : Context m)

/-- The walk of a line through a tree asks a fallback to take words over. -/
inductive Asks : Tree m α → Line → Standing m α → (Pending α → m (Outcome m α)) →
    Pending α → Prop
  /-- The fallback of the node itself, as no child accepts the words. -/
  | here {tree : Tree m α} {line behind : Line} {standing handed : Standing m α}
      {found : Outcome m α} {fallback : Pending α → m (Outcome m α)} :
      context.ask tree.isOpen = true →
      tree.arrive line standing = .entered found behind handed →
      (context.ask (walkAll behind handed tree.children)).2 = false →
      tree.handlers.fallback = some fallback →
      (!behind.isEnd || behind.atCompletion) = true →
      Asks tree line standing fallback ⟨behind, handed.bindings, handed.weight⟩
  /-- One below a child. -/
  | deeper {tree child : Tree m α} {line behind : Line} {standing handed : Standing m α}
      {found : Outcome m α} {fallback : Pending α → m (Outcome m α)} {pending : Pending α} :
      context.ask tree.isOpen = true →
      tree.arrive line standing = .entered found behind handed →
      child ∈ tree.children → Asks child behind handed fallback pending →
      Asks tree line standing fallback pending

variable {context}

/-- Only fallbacks of the tree are asked. -/
theorem Asks.of_every {P : (Pending α → m (Outcome m α)) → Prop} {tree : Tree m α}
    (h : tree.Every fun node => ∀ fallback, node.handlers.fallback = some fallback → P fallback)
    {line : Line} {standing : Standing m α} {fallback : Pending α → m (Outcome m α)}
    {pending : Pending α} (hasks : tree.Asks context line standing fallback pending) :
    P fallback := by
  induction hasks with
  | here _ _ _ hfallback _ => exact h.root _ hfallback
  | deeper _ _ hchild _ ih => exact ih (h.child hchild)

/-- Words left over show what was found before and what is taken over. -/
theorem shows_leftover {tree : Tree m α} (hreads : ReadsOnly context tree) {found : Outcome m α}
    (hfound : found.Shows) {line : Line} {standing : Standing m α}
    (htaken : ∀ fallback, tree.handlers.fallback = some fallback →
      (!line.isEnd || line.atCompletion) = true →
      (context.ask (fallback ⟨line, standing.bindings, standing.weight⟩)).Shows)
    (accepted : Bool) :
    (context.ask (tree.leftover found line standing accepted)).1.Shows := by
  unfold leftover
  cases hfallback : tree.handlers.fallback with
  | none =>
      dsimp only
      split <;> rw [context.ask_pure]
      · exact hfound
      · exact Outcome.shows_append hfound (Outcome.shows_of_suggestions_eq_nil rfl)
  | some fallback =>
      dsimp only
      split
      case isTrue hpending =>
        rw [context.ask_bind_pure (hreads.fallback fallback hfallback _)]
        exact Outcome.shows_append hfound
          (Outcome.shows_offset (htaken fallback hfallback hpending) _)
      case isFalse =>
        rw [context.ask_pure]
        exact hfound

/-- A walk shows what it gathers if the answers of the fallbacks it asks do. -/
theorem shows_walk {tree : Tree m α} (hreads : tree.Every (ReadsOnly context)) (line : Line)
    (standing : Standing m α)
    (htaken : ∀ fallback pending, tree.Asks context line standing fallback pending →
      (context.ask (fallback pending)).Shows) :
    (context.ask (tree.walk line standing)).1.Shows := by
  revert htaken
  refine ask_walk_induction context (motive := fun tree line standing answer =>
    (∀ fallback pending, tree.Asks context line standing fallback pending →
      (context.ask (fallback pending)).Shows) → answer.1.Shows)
    ?closed ?refused ?entered hreads line standing
  case closed =>
    intro tree line standing _ _
    exact Outcome.shows_of_suggestions_eq_nil rfl
  case refused =>
    intro tree line standing found accepted _ harrive _
    have hshows := shows_arrive tree line standing
    rwa [harrive] at hshows
  case entered =>
    intro tree line standing found behind handed hreads hopen harrive ih htaken
    have hshows := shows_arrive tree line standing
    rw [harrive] at hshows
    have hbelow : (context.ask (walkAll behind handed tree.children)).1.Shows := by
      apply ask_walkAll_of_forall context
      · exact Outcome.shows_of_suggestions_eq_nil rfl
      · exact fun a b => Outcome.shows_append
      · exact fun child hchild => hreads.child hchild
      · exact fun child hchild => ih child hchild fun fallback pending hasks =>
          htaken fallback pending (.deeper hopen harrive hchild hasks)
    split
    case isTrue => exact Outcome.shows_append hshows hbelow
    case isFalse hnone =>
      apply shows_leftover hreads.root (Outcome.shows_append hshows hbelow)
      intro fallback hfallback hpending
      exact htaken fallback _
        (.here hopen harrive (Bool.eq_false_iff.2 hnone) hfallback hpending)

end Tree

-- ===================================================== outcomes put together

namespace Outcome

variable [Monad m]

/-- The outcomes that applications and their fallbacks can put together. -/
inductive Obtained : Outcome m α → Prop
  /-- From nothing. -/
  | empty : Obtained ∅
  /-- From a refusal. -/
  | refused (refusal : Refusal) : Obtained (.refused refusal)
  /-- By merging. -/
  | merge {a b : Outcome m α} : Obtained a → Obtained b → Obtained (a ++ b)
  /-- By moving behind other words. -/
  | offset {outcome : Outcome m α} (words : Nat) :
      Obtained outcome → Obtained (outcome.offset words)
  /-- By matching a line in some context, if the answers of the fallbacks that
  are asked on the way were put together likewise. -/
  | parse (context : Context m) {tree : Tree m α} {line : Line} :
      tree.Every (Tree.ReadsOnly context) →
      (∀ fallback pending, tree.Asks context line {} fallback pending →
        Obtained (context.ask (fallback pending))) →
      Obtained (context.ask (tree.parse line))

/-- Fallbacks that put together whatever they answer are enough. -/
theorem Obtained.parse_of_every (context : Context m) {tree : Tree m α}
    (hreads : tree.Every (Tree.ReadsOnly context))
    (hfallbacks : tree.Every fun node => ∀ fallback, node.handlers.fallback = some fallback →
      ∀ pending, (context.ask (fallback pending)).Obtained) (line : Line) :
    (context.ask (tree.parse line)).Obtained :=
  .parse context hreads fun _ pending hasks => hasks.of_every hfallbacks pending

theorem Obtained.shows {outcome : Outcome m α} (h : outcome.Obtained) : outcome.Shows := by
  induction h with
  | empty => exact shows_of_suggestions_eq_nil rfl
  | refused refusal => exact shows_of_suggestions_eq_nil rfl
  | merge _ _ iha ihb => exact shows_append iha ihb
  | offset words _ ih => exact shows_offset ih words
  | parse context hreads _ ih =>
      rw [Tree.ask_parse context hreads]
      exact Tree.shows_walk hreads _ _ ih

/-- However an outcome is put together, its groups of suggestions come with a
candidate that lets them be shown. So completing never drops one: all of them
are given to the candidate's handler, or shown as they are if it has none. -/
theorem complete_obtained {outcome : Outcome m α} (h : outcome.Obtained) :
    (outcome.suggestions ≠ [] → outcome.completion.isSome)
      ∧ outcome.complete
        = match outcome.completion.bind (·.item) with
          | some handler => handler outcome.suggestions
          | none => pure outcome.suggestions := by
  refine ⟨h.shows, ?_⟩
  unfold complete
  rcases hcompletion : outcome.completion with - | ⟨weight, - | handler⟩
  · have hnone : outcome.suggestions = [] := by
      by_contra hgroups
      have hsome := h.shows hgroups
      rw [hcompletion] at hsome
      cases hsome
    rw [hnone]
    rfl
  · rfl
  · rfl

/-- The node for a word. -/
def wordNode (name : String) : Tree (ReaderM Bool) Unit :=
  let word : Argument Unit :=
    { node := ⟨name, ∅⟩, reader := (Choice.literal ⟨name, ∅⟩).reader, required := true
      preset := none, suppressed := false, switch := none }
  .ofChain ⟨[word]⟩

/-- Commands behind a word. Where none is meant, the fallback has a tree of
plugins match the words, refuses them besides, and moves what was found behind
one word more. -/
def pluggable (plugins : Tree (ReaderM Bool) Unit) : Tree (ReaderM Bool) Unit :=
  { wordNode "plugin" with
    handlers :=
      { complete := some fun groups => do return if ← read then groups.reverse else groups
        fallback := some fun pending => do
          let found ← plugins.parse pending.line
          return .refused (.unknownCommand pending.line.current) ++ found.offset 1 }
    children := [wordNode "remove", wordNode "rename"] }

-- its fallback puts its answers together if the plugins' answers are
theorem obtained_pluggable {asked : Bool} {plugins : Tree (ReaderM Bool) Unit}
    (h : ∀ line, ((Context.reader asked).ask (plugins.parse line)).Obtained) (line : Line) :
    ((Context.reader asked).ask ((pluggable plugins).parse line)).Obtained := by
  apply Obtained.parse_of_every
  · exact fun path node hnode => ⟨fun _ _ => trivial, fun _ _ _ => trivial⟩
  · refine Tree.every_iff.2 ⟨?_, fun child hchild => Tree.every_iff.2 ?_⟩
    · rintro fallback ⟨⟩ pending
      exact (Obtained.refused _).merge ((h pending.line).offset 1)
    · rcases List.mem_pair.1 hchild with rfl | rfl <;>
        exact ⟨nofun, List.forall_mem_nil _⟩

/-- Plugins of plugins. What the inner commands propose is shown with what their
plugins propose. The handler of these commands changes it only if the plugins
have no heavier candidate. -/
theorem pluggable_complete_obtained :
    let context := Context.reader true
    let outcome := fun plugins =>
      context.ask ((pluggable (pluggable plugins)).parse (Line.ofText "plugin plugin re"))
    (outcome (wordNode "reset")).Obtained
      ∧ ((outcome (wordNode "reset")).suggestions ≠ [] →
          (outcome (wordNode "reset")).completion.isSome)
      ∧ ((outcome (wordNode "reset")).complete true).map SuggestionGroup.values
        = [["remove"], ["rename"], ["reset"]]
      ∧ ((outcome {}).complete true).map SuggestionGroup.values = [["rename"], ["remove"]] := by
  intro context outcome
  have hreset : ∀ line, (context.ask ((wordNode "reset").parse line)).Obtained :=
    Obtained.parse_of_every context (fun _ _ _ => ⟨fun _ _ => trivial, fun _ _ _ => trivial⟩)
      (Tree.every_iff.2 ⟨nofun, List.forall_mem_nil _⟩)
  have hobtained : (outcome (wordNode "reset")).Obtained :=
    obtained_pluggable (obtained_pluggable hreset) _
  exact ⟨hobtained, (complete_obtained hobtained).1, by decide +kernel, by decide +kernel⟩

end Outcome

end CommandGrammar
