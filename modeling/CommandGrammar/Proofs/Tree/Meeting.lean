/-
How a node meets a line. Its guard is closed, or its chain falls short of
matching, or it matches and its children are walked. Where the node has no
fallback, the answer of the walk is an equation in each of the three cases
(`ask_walk_of_closed`, `ask_walk_of_shortfall`, `ask_walk_of_matches`): an
outcome merged of few pieces, and whether words were accepted. An induction
over walks without fallbacks splits into these cases and rewrites with these
equations.

A node accepts words if its chain consumes some, even where it falls short of
matching in the end, or if a node below accepts some. `accepts` says so of the
nodes alone, and `accepts_walk` that it is what the walk answers.
-/
import CommandGrammar.Proofs.Outcome
import CommandGrammar.Proofs.Tree.Walk

namespace CommandGrammar.Tree

variable {m : Type → Type} {α : Type}

-- ================================================================== pieces

/-- What the chain of a node suggests; a node without one suggests nothing. -/
def proposals (tree : Tree m α) (line : Line) : List SuggestionGroup :=
  tree.chain.elim [] fun chain => chain.suggest line

/-- What a node hands down behind a match. -/
def handedDown (tree : Tree m α) (standing : Standing m α) (matched : Match α) : Standing m α :=
  (standing.under tree.handlers).advance matched

/-- What a node finds where it matches: the suggestions of its chain, and
what the end of the line means if no word is left. -/
def foundAt (tree : Tree m α) (line : Line) (standing : Standing m α) (matched : Match α) :
    Outcome m α :=
  .ofSuggestions (tree.proposals line) (standing.under tree.handlers).complete standing.weight
    ++ if (tree.behind matched).isEnd then
        tree.atEnd (tree.behind matched) (tree.handedDown standing matched)
      else ∅

/-- What a node finds where its chain falls short: the chain's suggestions all
the same, and the refusal. -/
def refusedAt (tree : Tree m α) (line : Line) (standing : Standing m α) (shortfall : Shortfall) :
    Outcome m α :=
  .ofSuggestions (tree.proposals line) (standing.under tree.handlers).complete standing.weight
    ++ .ofRefusal shortfall.refusal (standing.weight + shortfall.consumed)
      (standing.under tree.handlers).report line.text

/-- What words mean behind a match if no child accepts them: the first of
them is refused. -/
def surplus (accepted : Bool) (line : Line) (standing : Standing m α) : Outcome m α :=
  if !accepted && !line.isEnd then
    .ofRefusal (.unexpectedInput line.current) standing.weight standing.report line.text
  else ∅

theorem report_under (standing : Standing m α) (handlers : Handlers m α) :
    (standing.under handlers).report = (handlers.report).or standing.report := by
  unfold Standing.under
  cases handlers.report <;> rfl

theorem complete_under (standing : Standing m α) (handlers : Handlers m α) :
    (standing.under handlers).complete = (handlers.complete).or standing.complete := by
  unfold Standing.under
  cases handlers.complete <;> rfl

-- a chain gets further exactly if it consumes words
theorem decide_lt_handedDown (tree : Tree m α) (standing : Standing m α) (matched : Match α) :
    decide (standing.weight < (tree.handedDown standing matched).weight)
      = decide (0 < matched.consumed) := by
  apply decide_eq_decide.2
  show standing.weight < standing.weight + matched.consumed ↔ _
  omega

theorem execution_atEnd (tree : Tree m α) (line : Line) (standing : Standing m α) :
    (tree.atEnd line standing).execution
      = tree.handlers.execute.map fun handler =>
          ⟨standing.weight, handler, .ofBindings standing.bindings⟩ := by
  unfold atEnd
  rw [Outcome.execution_append]
  cases tree.handlers.execute <;> dsimp only <;> split <;> rfl

theorem reporting_atEnd (tree : Tree m α) (line : Line) (standing : Standing m α) :
    (tree.atEnd line standing).reporting
      = if tree.isExecutable then none
        else standing.report.map fun handler =>
          ⟨standing.weight, handler, .inputExpected, line.text⟩ := by
  unfold atEnd isExecutable
  rw [Outcome.reporting_append]
  cases tree.handlers.execute <;> dsimp only <;> split <;>
    exact Weighted.heavier_none_right _

theorem suggestions_atEnd (tree : Tree m α) (line : Line) (standing : Standing m α) :
    (tree.atEnd line standing).suggestions = [] := by
  unfold atEnd
  rw [Outcome.suggestions_append]
  cases tree.handlers.execute <;> dsimp only <;> split <;> rfl

theorem refusals_atEnd (tree : Tree m α) (line : Line) (standing : Standing m α) :
    (tree.atEnd line standing).refusals
      = if tree.isExecutable then [] else [⟨standing.weight, .inputExpected⟩] := by
  unfold atEnd isExecutable
  rw [Outcome.refusals_append]
  cases tree.handlers.execute <;> dsimp only <;> split <;> rfl

/-- A matching node finds its chain's suggestions. -/
theorem suggestions_foundAt (tree : Tree m α) (line : Line) (standing : Standing m α)
    (matched : Match α) :
    (tree.foundAt line standing matched).suggestions = tree.proposals line := by
  unfold foundAt
  rw [Outcome.suggestions_append, Outcome.suggestions_ofSuggestions]
  split
  · rw [suggestions_atEnd, List.append_nil]
  · exact List.append_nil _

/-- At the end of the line it finds its handler. -/
theorem execution_foundAt (tree : Tree m α) (line : Line) (standing : Standing m α)
    (matched : Match α) :
    (tree.foundAt line standing matched).execution
      = if (tree.behind matched).isEnd then
          tree.handlers.execute.map fun handler =>
            ⟨(tree.handedDown standing matched).weight, handler,
              .ofBindings (tree.handedDown standing matched).bindings⟩
        else none := by
  unfold foundAt
  rw [Outcome.execution_append, Outcome.execution_ofSuggestions, Weighted.heavier_none_left]
  split
  · rw [execution_atEnd]
  · rfl

/-- Without a handler it expects more there. -/
theorem refusals_foundAt (tree : Tree m α) (line : Line) (standing : Standing m α)
    (matched : Match α) :
    (tree.foundAt line standing matched).refusals
      = if (tree.behind matched).isEnd && !tree.isExecutable then
          [⟨(tree.handedDown standing matched).weight, .inputExpected⟩]
        else [] := by
  unfold foundAt
  rw [Outcome.refusals_append, Outcome.refusals_ofSuggestions, List.nil_append]
  cases (tree.behind matched).isEnd with
  | false => rfl
  | true =>
      rw [if_pos rfl, refusals_atEnd, Bool.true_and]
      cases tree.isExecutable <;> rfl

theorem reporting_foundAt (tree : Tree m α) (line : Line) (standing : Standing m α)
    (matched : Match α) :
    (tree.foundAt line standing matched).reporting
      = if (tree.behind matched).isEnd && !tree.isExecutable then
          (standing.under tree.handlers).report.map fun handler =>
            ⟨(tree.handedDown standing matched).weight, handler, .inputExpected,
              (tree.behind matched).text⟩
        else none := by
  unfold foundAt
  rw [Outcome.reporting_append, Outcome.reporting_ofSuggestions, Weighted.heavier_none_left]
  cases (tree.behind matched).isEnd with
  | false => rfl
  | true =>
      rw [if_pos rfl, reporting_atEnd, Bool.true_and]
      cases tree.isExecutable <;> rfl

/-- Where the chain falls short, its refusal is all that is found besides. -/
theorem execution_refusedAt (tree : Tree m α) (line : Line) (standing : Standing m α)
    (shortfall : Shortfall) : (tree.refusedAt line standing shortfall).execution = none := by
  unfold refusedAt
  rw [Outcome.execution_append, Outcome.execution_ofSuggestions]
  rfl

theorem suggestions_refusedAt (tree : Tree m α) (line : Line) (standing : Standing m α)
    (shortfall : Shortfall) :
    (tree.refusedAt line standing shortfall).suggestions = tree.proposals line := by
  unfold refusedAt
  rw [Outcome.suggestions_append, Outcome.suggestions_ofSuggestions]
  exact List.append_nil _

theorem refusals_refusedAt (tree : Tree m α) (line : Line) (standing : Standing m α)
    (shortfall : Shortfall) :
    (tree.refusedAt line standing shortfall).refusals
      = [⟨standing.weight + shortfall.consumed, shortfall.refusal⟩] := by
  unfold refusedAt
  rw [Outcome.refusals_append, Outcome.refusals_ofSuggestions]
  rfl

theorem reporting_refusedAt (tree : Tree m α) (line : Line) (standing : Standing m α)
    (shortfall : Shortfall) :
    (tree.refusedAt line standing shortfall).reporting
      = (standing.under tree.handlers).report.map fun handler =>
          ⟨standing.weight + shortfall.consumed, handler, shortfall.refusal, line.text⟩ := by
  unfold refusedAt
  rw [Outcome.reporting_append, Outcome.reporting_ofSuggestions, Weighted.heavier_none_left]
  rfl

/-- Words left over are nothing to execute and nothing to suggest. -/
theorem execution_surplus (accepted : Bool) (line : Line) (standing : Standing m α) :
    (surplus accepted line standing).execution = none := by
  unfold surplus
  split <;> rfl

theorem suggestions_surplus (accepted : Bool) (line : Line) (standing : Standing m α) :
    (surplus accepted line standing).suggestions = [] := by
  unfold surplus
  split <;> rfl

theorem refusals_surplus (accepted : Bool) (line : Line) (standing : Standing m α) :
    (surplus accepted line standing).refusals
      = if !accepted && !line.isEnd then [⟨standing.weight, .unexpectedInput line.current⟩]
        else [] := by
  unfold surplus
  split <;> rfl

theorem reporting_surplus (accepted : Bool) (line : Line) (standing : Standing m α) :
    (surplus accepted line standing).reporting
      = if !accepted && !line.isEnd then
          standing.report.map fun handler =>
            ⟨standing.weight, handler, .unexpectedInput line.current, line.text⟩
        else none := by
  unfold surplus
  split <;> rfl

/-- A node whose chain falls short is not entered. -/
theorem arrive_of_shortfall {tree : Tree m α} {line : Line} {chain : Chain α}
    {shortfall : Shortfall} (hchain : tree.chain = some chain)
    (hparse : chain.parse line = .error shortfall) (standing : Standing m α) :
    tree.arrive line standing
      = .refused (tree.refusedAt line standing shortfall) (0 < shortfall.consumed) := by
  unfold arrive refusedAt proposals
  simp only [hchain, hparse, Option.elim_some]
  rfl

-- =============================================================== three cases

variable [Monad m] (context : Context m)

/-- How a node meets a line. -/
inductive Meets (tree : Tree m α) (line : Line) : Prop
  /-- The guard is closed. -/
  | closed : context.ask tree.isOpen = false → Meets tree line
  /-- The chain falls short of matching. -/
  | fallsShort {chain : Chain α} {shortfall : Shortfall} :
      context.ask tree.isOpen = true → tree.chain = some chain →
      chain.parse line = .error shortfall → Meets tree line
  /-- The node matches. -/
  | enters {matched : Match α} : tree.Matches context line matched → Meets tree line

theorem meets (tree : Tree m α) (line : Line) : tree.Meets context line := by
  by_cases hopen : context.ask tree.isOpen = true
  case neg => exact .closed (eq_false_of_ne_true hopen)
  cases hmatch : tree.match? context line with
  | some matched => exact .enters ((match?_eq_some_iff context).1 hmatch)
  | none =>
      rw [match?, if_pos hopen] at hmatch
      cases hchain : tree.chain with
      | none => rw [hchain] at hmatch; cases hmatch
      | some chain =>
          rw [hchain] at hmatch
          change (chain.parse line).toOption = none at hmatch
          cases hparse : chain.parse line with
          | ok matched => rw [hparse] at hmatch; cases hmatch
          | error shortfall => exact .fallsShort hopen hchain hparse

theorem Matches.isOpen {tree : Tree m α} {line : Line} {matched : Match α}
    (h : tree.Matches context line matched) : context.ask tree.isOpen = true :=
  (ask_isOpen context tree).2 h.guard

theorem match?_of_closed {tree : Tree m α} {line : Line}
    (h : context.ask tree.isOpen = false) : tree.match? context line = none := by
  rw [match?, h]
  rfl

theorem match?_of_shortfall {tree : Tree m α} {line : Line} {chain : Chain α}
    {shortfall : Shortfall} (hopen : context.ask tree.isOpen = true)
    (hchain : tree.chain = some chain) (hparse : chain.parse line = .error shortfall) :
    tree.match? context line = none := by
  rw [match?, if_pos hopen, hchain]
  show (chain.parse line).toOption = none
  rw [hparse]
  rfl

/-- A matching node is entered. -/
theorem arrive_of_matches {tree : Tree m α} {line : Line} {matched : Match α}
    (h : tree.Matches context line matched) (standing : Standing m α) :
    tree.arrive line standing
      = .entered (tree.foundAt line standing matched) (tree.behind matched)
          (tree.handedDown standing matched) := by
  unfold arrive foundAt handedDown proposals
  cases hchain : tree.chain with
  | none =>
      obtain rfl := h.noChain hchain
      have hstays : (standing.under tree.handlers).advance ⟨[], 0, line⟩
          = standing.under tree.handlers := by
        simp [Standing.advance]
      have hnothing : (.ofSuggestions [] (standing.under tree.handlers).complete standing.weight
          : Outcome m α) = ∅ := rfl
      rw [hstays, Option.elim_none, hnothing, Outcome.empty_append]
      simp only [enter, Outcome.empty_append]
      rfl
  | some chain =>
      rw [Option.elim_some]
      simp only [h.chain chain hchain, enter]
      congr 1
      show _ = _ ++ if (tree.expansion.elim matched.rest matched.rest.insert).isEnd = true then _
        else _
      split
      · rfl
      · exact (Outcome.append_empty _).symm

/-- Without a fallback nobody accepts the words left over. -/
theorem leftover_of_none {tree : Tree m α} (h : tree.handlers.fallback = none)
    (found : Outcome m α) (line : Line) (standing : Standing m α) (accepted : Bool) :
    tree.leftover found line standing accepted
      = pure (found ++ surplus false line standing, accepted) := by
  unfold leftover surplus
  rw [h]
  cases line.isEnd with
  | true => exact congrArg (fun outcome => pure (outcome, accepted)) (Outcome.append_empty _).symm
  | false => rfl

theorem ask_walk_of_shortfall {tree : Tree m α} (hreads : tree.Every (ReadsOnly context))
    {line : Line} {chain : Chain α} {shortfall : Shortfall}
    (hopen : context.ask tree.isOpen = true) (hchain : tree.chain = some chain)
    (hparse : chain.parse line = .error shortfall) (standing : Standing m α) :
    context.ask (tree.walk line standing)
      = (tree.refusedAt line standing shortfall, decide (0 < shortfall.consumed)) := by
  rw [ask_walk_of_open context hreads hopen]
  exact ask_proceed_of_refused context (arrive_of_shortfall hchain hparse standing)

/-- Behind a match the children are walked; what they find goes behind what
the node finds, and before the words left over. -/
theorem ask_walk_of_matches {tree : Tree m α} (hreads : tree.Every (ReadsOnly context))
    (hnone : tree.handlers.fallback = none) {line : Line} {matched : Match α}
    (h : tree.Matches context line matched) (standing : Standing m α) :
    context.ask (tree.walk line standing)
      = (tree.foundAt line standing matched
          ++ (context.ask (walkAll (tree.behind matched) (tree.handedDown standing matched)
            tree.children)).1
          ++ surplus (context.ask (walkAll (tree.behind matched) (tree.handedDown standing matched)
            tree.children)).2 (tree.behind matched) (tree.handedDown standing matched),
        decide (0 < matched.consumed)
          || (context.ask (walkAll (tree.behind matched) (tree.handedDown standing matched)
            tree.children)).2) := by
  rw [ask_walk_of_open context hreads (h.isOpen context),
    ask_proceed_of_entered context hreads (arrive_of_matches context h standing)]
  split
  · next haccepted =>
      have hnothing : ∀ line (standing : Standing m α), surplus true line standing = ∅ :=
        fun _ _ => rfl
      rw [haccepted, hnothing, Outcome.append_empty, Bool.or_true]
  · next haccepted =>
      rw [leftover_of_none hnone, context.ask_pure, eq_false_of_ne_true haccepted, Bool.or_false,
        decide_lt_handedDown]

-- ============================================================ words accepted

/-- How many words the node's own chain consumes, whether it matches or falls
short. -/
def consumedBy (tree : Tree m α) (line : Line) : Nat :=
  tree.chain.elim 0 fun chain =>
    match chain.parse line with
    | .ok matched => matched.consumed
    | .error shortfall => shortfall.consumed

mutual

/-- Whether a node or one below it accepts words of a line. -/
def accepts (line : Line) : Tree m α → Bool
  | ⟨chain, expansion, handlers, children⟩ =>
      let tree : Tree m α := ⟨chain, expansion, handlers, children⟩
      context.ask tree.isOpen &&
        (decide (0 < tree.consumedBy line) ||
          match tree.match? context line with
          | some matched => acceptsAny (tree.behind matched) children
          | none => false)

/-- Whether one of several nodes does. -/
def acceptsAny (line : Line) : List (Tree m α) → Bool
  | [] => false
  | tree :: rest => accepts line tree || acceptsAny line rest

end

section Accepts

variable {context} {tree : Tree m α} {line : Line}

theorem accepts_of_closed (h : context.ask tree.isOpen = false) :
    tree.accepts context line = false := by
  cases tree
  rw [accepts, h, Bool.false_and]

theorem accepts_of_shortfall {chain : Chain α} {shortfall : Shortfall}
    (hopen : context.ask tree.isOpen = true) (hchain : tree.chain = some chain)
    (hparse : chain.parse line = .error shortfall) :
    tree.accepts context line = decide (0 < shortfall.consumed) := by
  have hmatch := match?_of_shortfall context hopen hchain hparse
  have hconsumed : tree.consumedBy line = shortfall.consumed := by
    simp only [consumedBy, hchain, hparse, Option.elim_some]
  cases tree
  rw [accepts, hopen, hmatch, hconsumed, Bool.true_and, Bool.or_false]

theorem accepts_of_matches {matched : Match α} (h : tree.Matches context line matched) :
    tree.accepts context line
      = (decide (0 < matched.consumed)
          || acceptsAny context (tree.behind matched) tree.children) := by
  have hconsumed : tree.consumedBy line = matched.consumed := by
    cases hchain : tree.chain with
    | none => rw [h.noChain hchain, consumedBy, hchain]; rfl
    | some chain => simp only [consumedBy, hchain, h.chain chain hchain, Option.elim_some]
  have hopen := h.isOpen context
  have hmatch := (match?_eq_some_iff context).2 h
  cases tree
  rw [accepts, hopen, hmatch, hconsumed, Bool.true_and]

theorem acceptsAny_eq_any (trees : List (Tree m α)) :
    acceptsAny context line trees = trees.any (accepts context line) := by
  induction trees with
  | nil => rw [acceptsAny, List.any_nil]
  | cons tree rest ih => rw [acceptsAny, List.any_cons, ih]

theorem accepts_walkAll {standing : Standing m α} {trees : List (Tree m α)}
    (hreads : ∀ tree ∈ trees, tree.Every (ReadsOnly context))
    (h : ∀ tree ∈ trees, (context.ask (tree.walk line standing)).2 = tree.accepts context line) :
    (context.ask (walkAll line standing trees)).2 = acceptsAny context line trees := by
  induction trees with
  | nil => rw [ask_walkAll_nil, acceptsAny]
  | cons tree rest ih =>
      have hrest : (context.ask (walkAll line standing rest)).2 = acceptsAny context line rest :=
        ih (fun other hother => hreads other (List.mem_cons_of_mem _ hother))
          fun other hother => h other (List.mem_cons_of_mem _ hother)
      rw [ask_walkAll_cons context hreads, acceptsAny, h tree (List.mem_cons_self ..), hrest]

/-- A walk answers whether words were accepted. -/
theorem accepts_walk {tree : Tree m α} (hreads : tree.Every (ReadsOnly context))
    (hnone : tree.Every fun node => node.handlers.fallback = none) :
    ∀ (line : Line) (standing : Standing m α),
      (context.ask (tree.walk line standing)).2 = tree.accepts context line := by
  induction tree using Tree.induction with
  | node tree ih =>
      intro line standing
      cases tree.meets context line with
      | closed hclosed =>
          rw [ask_walk_of_closed context hreads hclosed, accepts_of_closed hclosed]
      | fallsShort hopen hchain hparse =>
          rw [ask_walk_of_shortfall context hreads hopen hchain hparse,
            accepts_of_shortfall hopen hchain hparse]
      | @enters matched hmatch =>
          rw [ask_walk_of_matches context hreads hnone.root hmatch, accepts_of_matches hmatch]
          have hbelow : (context.ask (walkAll (tree.behind matched)
              (tree.handedDown standing matched) tree.children)).2
                = acceptsAny context (tree.behind matched) tree.children :=
            accepts_walkAll (fun child hchild => hreads.child hchild) fun child hchild =>
              ih child hchild (hreads.child hchild) (hnone.child hchild) _ _
          rw [hbelow]

theorem accepts_children (hreads : tree.Every (ReadsOnly context))
    (hnone : tree.Every fun node => node.handlers.fallback = none) (line : Line)
    (standing : Standing m α) :
    (context.ask (walkAll line standing tree.children)).2
      = acceptsAny context line tree.children := by
  apply accepts_walkAll
  · exact fun child hchild => hreads.child hchild
  · exact fun child hchild => accepts_walk (hreads.child hchild) (hnone.child hchild) line standing

end Accepts

end CommandGrammar.Tree
