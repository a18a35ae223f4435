/-
Where a walk starts does not matter to what it finds. A walk compares weights
with each other and with the weight that it was handed, never with a number of
its own; so a walk that starts with words consumed already finds the same
things with weights greater by these words, and a walk that starts with
bindings hands them to every handler before its own (`walk_moved`). In
particular it keeps the same execution and accepts the same words.

That is what makes a tree that a fallback delegates to comparable with
children. The fallback's answer counts words from zero and is offset by the
weight of its node. Had the tree been a child of the node, its walk would have
started with that weight, with what the node had bound, and with the handlers
that the node hands down. The first two are the move; the handlers are who is
told of a refusal, and who may change the suggestions, where the tree has no
handler of its own (`comparable_walk`), and they change no weight.
-/
import CommandGrammar.Proofs.Outcome.Merging
import CommandGrammar.Proofs.Tree.Meeting

namespace CommandGrammar

variable {m : Type → Type} {α : Type}

-- ========================================================== moved outcomes

namespace Arguments

/-- The arguments behind those of bindings. -/
def after (bindings : List (Binding α)) (arguments : Arguments α) : Arguments α :=
  ⟨(ofBindings bindings).slots ++ arguments.slots⟩

theorem ofBindings_append (a b : List (Binding α)) :
    ofBindings (a ++ b) = (ofBindings b).after a := by
  show Arguments.mk _ = Arguments.mk _
  rw [List.filter_append, List.map_append]
  rfl

end Arguments

/-- The execution with its arguments behind those of bindings. -/
def Execution.after (bindings : List (Binding α)) (execution : Execution m α) : Execution m α :=
  { execution with arguments := execution.arguments.after bindings }

namespace Outcome

/-- The outcome with the arguments of what can be executed behind those of
bindings. -/
def after (bindings : List (Binding α)) (outcome : Outcome m α) : Outcome m α :=
  { outcome with
    execution := outcome.execution.map fun found => ⟨found.weight, found.item.after bindings⟩ }

/-- The outcome of a walk that starts further on: with words consumed, and with
bindings. -/
def moved (bindings : List (Binding α)) (words : Nat) (outcome : Outcome m α) : Outcome m α :=
  (outcome.offset words).after bindings

variable (bindings : List (Binding α)) (words : Nat)

theorem moved_empty : (∅ : Outcome m α).moved bindings words = ∅ := rfl

theorem after_append (a b : Outcome m α) :
    (a ++ b).after bindings = a.after bindings ++ b.after bindings := by
  ext1
  case execution =>
    let f (found : Weighted (Execution m α)) : Weighted (Execution m α) :=
      ⟨found.weight, found.item.after bindings⟩
    exact (Weighted.heavier_map (f := f) (fun _ _ => Iff.rfl) _ _).symm
  all_goals rfl

/-- Merging does not look at where the walk started. -/
theorem moved_append (a b : Outcome m α) :
    (a ++ b).moved bindings words = a.moved bindings words ++ b.moved bindings words := by
  unfold moved
  rw [offset_append, after_append]

theorem moved_ofExecution (handler : ExecuteHandler m α) (own : List (Binding α)) (weight : Nat) :
    (ofExecution handler own weight).moved bindings words
      = ofExecution handler (bindings ++ own) (weight + words) := by
  unfold ofExecution
  rw [Arguments.ofBindings_append]
  rfl

theorem moved_ofRefusal (refusal : Refusal) (weight : Nat) (handler : Option (ReportHandler m))
    (input : String) :
    (ofRefusal refusal weight handler input : Outcome m α).moved bindings words
      = ofRefusal refusal (weight + words) handler input := by
  cases handler <;> rfl

theorem moved_ofCompletion (handler : Option (CompleteHandler m)) (weight : Nat) :
    (ofCompletion handler weight : Outcome m α).moved bindings words
      = ofCompletion handler (weight + words) := rfl

theorem moved_ofSuggestions (groups : List SuggestionGroup) (handler : Option (CompleteHandler m))
    (weight : Nat) :
    (ofSuggestions groups handler weight : Outcome m α).moved bindings words
      = ofSuggestions groups handler (weight + words) := by
  cases groups <;> rfl

end Outcome

namespace Tree

-- ============================================================== one node

/-- The standing further on: with words consumed, and with bindings. -/
def Standing.moved (bindings : List (Binding α)) (words : Nat) (standing : Standing m α) :
    Standing m α :=
  { standing with
    bindings := bindings ++ standing.bindings
    weight := standing.weight + words }

variable (bindings : List (Binding α)) (words : Nat)

theorem handedDown_moved (tree : Tree m α) (standing : Standing m α) (matched : Match α) :
    tree.handedDown (standing.moved bindings words) matched
      = (tree.handedDown standing matched).moved bindings words := by
  simp [handedDown, Standing.moved, Standing.under, Standing.advance, Nat.add_right_comm]

theorem atEnd_moved (tree : Tree m α) (line : Line) (standing : Standing m α) :
    tree.atEnd line (standing.moved bindings words)
      = (tree.atEnd line standing).moved bindings words := by
  unfold atEnd
  rw [Outcome.moved_append]
  congr 1
  · cases tree.handlers.execute with
    | none => exact (Outcome.moved_ofRefusal ..).symm
    | some handler => exact (Outcome.moved_ofExecution ..).symm
  · split
    · exact (Outcome.moved_ofCompletion ..).symm
    · rfl

theorem foundAt_moved (tree : Tree m α) (line : Line) (standing : Standing m α)
    (matched : Match α) :
    tree.foundAt line (standing.moved bindings words) matched
      = (tree.foundAt line standing matched).moved bindings words := by
  unfold foundAt
  rw [Outcome.moved_append, Outcome.moved_ofSuggestions, handedDown_moved, atEnd_moved]
  congr 1
  split <;> rfl

theorem refusedAt_moved (tree : Tree m α) (line : Line) (standing : Standing m α)
    (shortfall : Shortfall) :
    tree.refusedAt line (standing.moved bindings words) shortfall
      = (tree.refusedAt line standing shortfall).moved bindings words := by
  unfold refusedAt
  rw [Outcome.moved_append, Outcome.moved_ofSuggestions, Outcome.moved_ofRefusal,
    Nat.add_right_comm]
  rfl

theorem surplus_moved (accepted : Bool) (line : Line) (standing : Standing m α) :
    surplus accepted line (standing.moved bindings words)
      = (surplus accepted line standing).moved bindings words := by
  unfold surplus
  split
  · exact (Outcome.moved_ofRefusal ..).symm
  · rfl

-- ============================================================== the walk

section Walk

variable [Monad m] {context : Context m}

/-- A walk that starts further on finds the same, further on. -/
theorem walk_moved {tree : Tree m α} (hreads : tree.Every (ReadsOnly context))
    (hnone : tree.Every fun node => node.handlers.fallback = none) :
    ∀ (line : Line) (standing : Standing m α),
      context.ask (tree.walk line (standing.moved bindings words))
        = ((context.ask (tree.walk line standing)).1.moved bindings words,
            (context.ask (tree.walk line standing)).2) := by
  induction tree using Tree.induction with
  | node tree ih =>
      intro line standing
      cases tree.meets context line with
      | closed hclosed =>
          rw [ask_walk_of_closed context hreads hclosed, ask_walk_of_closed context hreads hclosed,
            Outcome.moved_empty]
      | fallsShort hopen hchain hparse =>
          rw [ask_walk_of_shortfall context hreads hopen hchain hparse,
            ask_walk_of_shortfall context hreads hopen hchain hparse, refusedAt_moved]
      | @enters matched hmatch =>
          have hbelow := ask_walkAll_of_related context
            (R := fun x y => x = (y.1.moved bindings words, y.2))
            (by rw [Outcome.moved_empty]) (by rintro _ b _ d rfl rfl; rw [Outcome.moved_append])
            (fun child hchild => hreads.child hchild)
            fun child hchild => ih child hchild (hreads.child hchild) (hnone.child hchild)
              (tree.behind matched) (tree.handedDown standing matched)
          rw [ask_walk_of_matches context hreads hnone.root hmatch,
            ask_walk_of_matches context hreads hnone.root hmatch, handedDown_moved, hbelow,
            foundAt_moved, surplus_moved, Outcome.moved_append, Outcome.moved_append]

end Walk

end Tree

-- ==================================================== handlers handed down

/-- Two outcomes differ at most in who is told of refusals, unless `report`
holds, and in who may change the suggestions, unless `complete` does. -/
structure Outcome.Comparable (report complete : Prop) (a b : Outcome m α) : Prop where
  execution : a.execution = b.execution
  refusals : a.refusals = b.refusals
  suggestions : a.suggestions = b.suggestions
  /-- Suggestions may be shown in both or in neither, and equally far on. -/
  weight : a.completion.map Weighted.weight = b.completion.map Weighted.weight
  reporting : report → a.reporting = b.reporting
  completion : complete → a.completion = b.completion

namespace Outcome

variable {report complete : Prop}

theorem comparable_refl (a : Outcome m α) : a.Comparable report complete a :=
  ⟨rfl, rfl, rfl, rfl, fun _ => rfl, fun _ => rfl⟩

theorem Comparable.append {a b c d : Outcome m α} (hab : a.Comparable report complete b)
    (hcd : c.Comparable report complete d) : (a ++ c).Comparable report complete (b ++ d) where
  execution := by rw [execution_append, hab.execution, hcd.execution, execution_append]
  refusals := by rw [refusals_append, hab.refusals, hcd.refusals, refusals_append]
  suggestions := by rw [suggestions_append, hab.suggestions, hcd.suggestions, suggestions_append]
  weight := Weighted.weight_heavier_congr hab.weight hcd.weight
  reporting h := by rw [reporting_append, hab.reporting h, hcd.reporting h, reporting_append]
  completion h := by rw [completion_append, hab.completion h, hcd.completion h, completion_append]

theorem comparable_ofRefusal (refusal : Refusal) (weight : Nat) {a b : Option (ReportHandler m)}
    (h : report → a = b) (input : String) :
    (ofRefusal refusal weight a input : Outcome m α).Comparable report complete
      (ofRefusal refusal weight b input) :=
  ⟨rfl, rfl, rfl, rfl, fun hreport => by rw [h hreport], fun _ => rfl⟩

theorem comparable_ofCompletion {a b : Option (CompleteHandler m)} (h : complete → a = b)
    (weight : Nat) :
    (ofCompletion a weight : Outcome m α).Comparable report complete (ofCompletion b weight) :=
  ⟨rfl, rfl, rfl, rfl, fun _ => rfl, fun hcomplete => by rw [h hcomplete]⟩

theorem comparable_ofSuggestions (groups : List SuggestionGroup) {a b : Option (CompleteHandler m)}
    (h : complete → a = b) (weight : Nat) :
    (ofSuggestions groups a weight : Outcome m α).Comparable report complete
      (ofSuggestions groups b weight) := by
  cases groups with
  | nil => exact comparable_refl _
  | cons group rest =>
      exact ⟨rfl, rfl, rfl, rfl, fun _ => rfl, fun hcomplete => by rw [h hcomplete]⟩

end Outcome

namespace Tree

/-- Two standings differ at most in the handlers handed down. -/
structure Standing.Comparable (report complete : Prop) (a b : Standing m α) : Prop where
  bindings : a.bindings = b.bindings
  weight : a.weight = b.weight
  report : report → a.report = b.report
  complete : complete → a.complete = b.complete

variable {report complete : Prop} {a b : Standing m α}

theorem Standing.Comparable.under (h : a.Comparable report complete b) (handlers : Handlers m α) :
    (a.under handlers).Comparable report complete (b.under handlers) where
  bindings := h.bindings
  weight := h.weight
  report hreport := by rw [Standing.under, Standing.under, h.report hreport]
  complete hcomplete := by rw [Standing.under, Standing.under, h.complete hcomplete]

theorem Standing.Comparable.advance (h : a.Comparable report complete b) (matched : Match α) :
    (a.advance matched).Comparable report complete (b.advance matched) where
  bindings := congrArg (· ++ matched.bindings) h.bindings
  weight := congrArg (· + matched.consumed) h.weight
  report := h.report
  complete := h.complete

theorem comparable_atEnd (tree : Tree m α) (line : Line) (h : a.Comparable report complete b) :
    (tree.atEnd line a).Comparable report complete (tree.atEnd line b) := by
  unfold atEnd
  rw [h.bindings, h.weight]
  apply Outcome.Comparable.append
  · cases tree.handlers.execute with
    | none => exact Outcome.comparable_ofRefusal _ _ h.report _
    | some handler => exact Outcome.comparable_refl _
  · split
    · exact Outcome.comparable_ofCompletion h.complete _
    · exact Outcome.comparable_refl _

section Node

variable {tree : Tree m α}
  (h : (a.under tree.handlers).Comparable report complete (b.under tree.handlers))

include h

theorem comparable_foundAt (line : Line) (matched : Match α) :
    (tree.foundAt line a matched).Comparable report complete (tree.foundAt line b matched) := by
  have hweight : a.weight = b.weight := h.weight
  unfold foundAt
  rw [hweight]
  apply (Outcome.comparable_ofSuggestions _ h.complete _).append
  split
  · exact comparable_atEnd tree _ (h.advance matched)
  · exact Outcome.comparable_refl _

theorem comparable_refusedAt (line : Line) (shortfall : Shortfall) :
    (tree.refusedAt line a shortfall).Comparable report complete
      (tree.refusedAt line b shortfall) := by
  have hweight : a.weight = b.weight := h.weight
  unfold refusedAt
  rw [hweight]
  exact (Outcome.comparable_ofSuggestions _ h.complete _).append
    (Outcome.comparable_ofRefusal _ _ h.report _)

end Node

theorem comparable_surplus (accepted : Bool) (line : Line) (h : a.Comparable report complete b) :
    (surplus accepted line a).Comparable report complete (surplus accepted line b) := by
  unfold surplus
  rw [h.weight]
  split
  · exact Outcome.comparable_ofRefusal _ _ h.report _
  · exact Outcome.comparable_refl _

variable [Monad m] {context : Context m}

/-- Handlers handed down to a walk change no weight. -/
theorem comparable_walk {tree : Tree m α} (hreads : tree.Every (ReadsOnly context))
    (hnone : tree.Every fun node => node.handlers.fallback = none) :
    ∀ (line : Line) (a b : Standing m α),
      (a.under tree.handlers).Comparable report complete (b.under tree.handlers) →
      (context.ask (tree.walk line a)).1.Comparable report complete
        (context.ask (tree.walk line b)).1 := by
  induction tree using Tree.induction with
  | node tree ih =>
      intro line a b h
      cases tree.meets context line with
      | closed hclosed =>
          rw [ask_walk_of_closed context hreads hclosed, ask_walk_of_closed context hreads hclosed]
          exact Outcome.comparable_refl _
      | fallsShort hopen hchain hparse =>
          rw [ask_walk_of_shortfall context hreads hopen hchain hparse,
            ask_walk_of_shortfall context hreads hopen hchain hparse]
          exact comparable_refusedAt h _ _
      | @enters matched hmatch =>
          have hhanded := h.advance matched
          rw [ask_walk_of_matches context hreads hnone.root hmatch,
            ask_walk_of_matches context hreads hnone.root hmatch, accepts_children hreads hnone,
            accepts_children hreads hnone]
          apply Outcome.Comparable.append
          · apply (comparable_foundAt h _ _).append
            refine ask_walkAll_of_related context
              (R := fun x y => x.1.Comparable report complete y.1)
              (Outcome.comparable_refl _) (fun hfirst hrest => hfirst.append hrest)
              (fun child hchild => hreads.child hchild) fun child hchild => ?_
            exact ih child hchild (hreads.child hchild) (hnone.child hchild) _ _ _
              (hhanded.under child.handlers)
          · exact comparable_surplus _ _ hhanded

-- ============================================================ delegation

variable (context) in
/-- A node leaves what its children do not accept to another tree. -/
structure Delegates (node tree : Tree m α) (line : Line) (standing : Standing m α)
    (matched : Match α) : Prop where
  /-- The fallback parses the words left over with the tree. -/
  fallback : node.handlers.fallback = some fun pending => tree.parse pending.line
  /-- The node matches. -/
  matching : node.Matches context line matched
  /-- No child accepts words. -/
  refused : (context.ask (walkAll (node.behind matched) (node.handedDown standing matched)
    node.children)).2 = false
  /-- There are words left, or one is about to be typed. -/
  pending : (!(node.behind matched).isEnd || (node.behind matched).atCompletion) = true

/-- What the tree finds goes behind the other findings, offset by the weight of
the node. -/
theorem ask_walk_of_delegates {node tree : Tree m α} (hnode : node.Every (ReadsOnly context))
    (htree : tree.Every (ReadsOnly context)) {line : Line} {standing : Standing m α}
    {matched : Match α} (h : node.Delegates context tree line standing matched) :
    let handed := node.handedDown standing matched
    let taken := (context.ask (tree.parse (node.behind matched))).offset handed.weight
    context.ask (node.walk line standing)
      = (node.foundAt line standing matched
          ++ (context.ask (walkAll (node.behind matched) handed node.children)).1 ++ taken,
        decide (0 < matched.consumed) || taken.outweighs handed.weight) := by
  intro handed taken
  rw [ask_walk_of_open context hnode (h.matching.isOpen context),
    ask_proceed_of_entered context hnode (arrive_of_matches context h.matching standing),
    h.refused, if_neg Bool.false_ne_true, decide_lt_handedDown]
  unfold leftover
  rw [h.fallback]
  dsimp only
  rw [if_pos h.pending, context.ask_bind_pure (reads_parse context htree _)]

/-- Weights do not depend on the position. A walk that starts with bindings and
words consumed finds what the walk from the start finds, offset by these words,
and accepts as much. So a tree that a fallback delegates to adds what it would
have found as a child of the node, up to the bindings handed down; the handlers
handed down matter only where the tree has none. -/
theorem walk_eq_offset {tree : Tree m α} (hreads : tree.Every (ReadsOnly context))
    (hnone : tree.Every fun node => node.handlers.fallback = none) :
    (∀ (line : Line) (bindings : List (Binding α)) (weight : Nat),
      context.ask (tree.walk line { bindings, weight })
        = (((context.ask (tree.parse line)).offset weight).after bindings,
            (context.ask (tree.walk line {})).2))
      ∧ ∀ (node : Tree m α) (line : Line) (standing : Standing m α) (matched : Match α),
        node.Every (ReadsOnly context) → node.Delegates context tree line standing matched →
        let behind := node.behind matched
        let handed := node.handedDown standing matched
        let taken := (context.ask (tree.parse behind)).offset handed.weight
        context.ask (node.walk line standing)
            = (node.foundAt line standing matched
                ++ (context.ask (walkAll behind handed node.children)).1 ++ taken,
              decide (0 < matched.consumed) || taken.outweighs handed.weight)
          ∧ (taken.after handed.bindings).Comparable
              (handed.report = none ∨ tree.handlers.report.isSome = true)
              (handed.complete = none ∨ tree.handlers.complete.isSome = true)
              (context.ask (tree.walk behind handed)).1 := by
  have hstart : ∀ (line : Line) (bindings : List (Binding α)) (weight : Nat),
      context.ask (tree.walk line { bindings, weight })
        = (((context.ask (tree.parse line)).offset weight).after bindings,
            (context.ask (tree.walk line {})).2) := by
    intro line bindings weight
    have hmoved : ({ bindings, weight } : Standing m α) = Standing.moved bindings weight {} := by
      simp [Standing.moved]
    rw [hmoved, walk_moved bindings weight hreads hnone, ask_parse context hreads]
    rfl
  refine ⟨hstart, ?_⟩
  intro node line standing matched hnode hdelegates behind handed taken
  refine ⟨ask_walk_of_delegates hnode hreads hdelegates, ?_⟩
  -- first without the handlers handed down, then with them
  have hbare : taken.after handed.bindings
      = (context.ask (tree.walk behind ⟨handed.bindings, handed.weight, none, none⟩)).1 := by
    rw [hstart]
  rw [hbare]
  apply comparable_walk hreads hnone
  constructor
  case bindings => rfl
  case weight => rfl
  case report =>
    intro hreport
    rw [report_under, report_under]
    rcases hreport with hreport | hreport
    · rw [hreport]
    · obtain ⟨handler, hhandler⟩ := Option.isSome_iff_exists.1 hreport
      rw [hhandler, Option.some_or, Option.some_or]
  case complete =>
    intro hcomplete
    rw [complete_under, complete_under]
    rcases hcomplete with hcomplete | hcomplete
    · rw [hcomplete]
    · obtain ⟨handler, hhandler⟩ := Option.isSome_iff_exists.1 hcomplete
      rw [hhandler, Option.some_or, Option.some_or]

/-- A tree to delegate to. -/
def delivery : Tree (ReaderM Bool) Unit :=
  { chain := some ((Chain.ofSpec .standard "to @string").toOption.getD ⟨[]⟩)
    handlers := { execute := some fun _ => pure (.ok ()) } }

/-- A node that leaves words to it, and has a child of its own. -/
def parcels : Tree (ReaderM Bool) Unit :=
  { chain := some ((Chain.ofSpec .standard "send @int").toOption.getD ⟨[]⟩)
    handlers := { fallback := some fun pending => delivery.parse pending.line }
    children := [{ chain := some ((Chain.ofSpec .standard "back").toOption.getD ⟨[]⟩) }] }

/-- The tree starts at the weight of the node, and the handler at its end is
given what the tree binds. As a child it would be given what the node binds
besides. -/
theorem parcels_eq_offset :
    let context := Context.reader true
    let line : Line := .ofWords ["send", "3", "to", "us"]
    let matched : Match Unit := (parcels.match? context line).getD ⟨[], 0, line⟩
    let behind := parcels.behind matched
    let handed := parcels.handedDown {} matched
    let taken := (context.ask (delivery.parse behind)).offset handed.weight
    delivery.Every (ReadsOnly context)
      ∧ (delivery.Every fun node => node.handlers.fallback = none)
      ∧ parcels.Every (ReadsOnly context)
      ∧ parcels.Delegates context delivery line {} matched
      ∧ context.ask (delivery.walk behind ⟨handed.bindings, handed.weight, none, none⟩)
        = (taken.after handed.bindings, (context.ask (delivery.walk behind {})).2)
      ∧ (taken.after handed.bindings).Comparable
          (handed.report = none ∨ delivery.handlers.report.isSome = true)
          (handed.complete = none ∨ delivery.handlers.complete.isSome = true)
          (context.ask (delivery.walk behind handed)).1
      ∧ (context.ask (parcels.parse line)).execution.map
          (fun found => (found.weight, found.item.arguments.size)) = some (4, 2)
      ∧ (context.ask (delivery.walk behind handed)).1.execution.map
          (fun found => (found.weight, found.item.arguments.size)) = some (4, 4) := by
  intro context line matched behind handed taken
  have hdelivery : delivery.Every fun node =>
      ReadsOnly context node ∧ node.handlers.fallback = none :=
    every_iff.2 ⟨⟨readsOnly_of_none context rfl rfl, rfl⟩, List.forall_mem_nil _⟩
  have hreads : delivery.Every (ReadsOnly context) := hdelivery.imp fun _ hnode => hnode.1
  have hnone : delivery.Every fun node => node.handlers.fallback = none :=
    hdelivery.imp fun _ hnode => hnode.2
  have hparcels : parcels.Every (ReadsOnly context) := by
    refine every_iff.2 ⟨⟨nofun, fun _ _ _ => trivial⟩, List.forall_mem_singleton.2 ?_⟩
    exact every_iff.2 ⟨readsOnly_of_none context rfl rfl, List.forall_mem_nil _⟩
  have hsome : (parcels.match? context line).isSome = true := by decide +kernel
  have hdelegates : parcels.Delegates context delivery line {} matched := by
    constructor
    case fallback => rfl
    case matching =>
      apply (match?_eq_some_iff context).1
      obtain ⟨found, hfound⟩ := Option.isSome_iff_exists.1 hsome
      show _ = some ((parcels.match? context line).getD _)
      rw [hfound, Option.getD_some]
    case refused => decide +kernel
    case pending => decide +kernel
  obtain ⟨hstart, hdelegated⟩ := walk_eq_offset hreads hnone
  obtain ⟨-, hcomparable⟩ := hdelegated parcels line {} matched hparcels hdelegates
  exact ⟨hreads, hnone, hparcels, hdelegates, hstart _ _ _, hcomparable, by decide +kernel,
    by decide +kernel⟩

end Tree

end CommandGrammar
