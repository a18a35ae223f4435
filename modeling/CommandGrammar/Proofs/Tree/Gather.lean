/-
What a walk gathers, without fallbacks. A visit contributes what its
node finds by itself: an open node offers its chain's suggestions, and a
matching node whose line has ended offers its handler to execute. A walk
merges what its visits contribute, and merging keeps the heavier of two
executions, the earlier one on a tie; so the suggestions of a walk are
those of its visits in their order, and its execution is the first of
the heaviest that any visit offers.

`gather_walk` is the induction over the tree, at any node and any
standing. `parse_gathers` reads it at the root in terms of the rule that
says which nodes a line reaches.
-/
import CommandGrammar.Proofs.Tree.Meeting
import Mathlib.Algebra.GroupWithZero.Nat

namespace CommandGrammar

-- ============================================================== one visit

namespace Visit

variable {m : Type → Type} {α : Type}

/-- How many words the matches on the way consumed. -/
def consumed (trail : List (Match α)) : Nat :=
  (trail.map Match.consumed).sum

/-- What the matches on the way bound, in their order. -/
def bindings (trail : List (Match α)) : List (Binding α) :=
  trail.flatMap Match.bindings

variable [Monad m] (context : Context m)

/-- The suggestions that a visit offers: those of the node's chain, if
the node is open. Whether the chain parses the line does not matter. -/
def offered (visit : Visit m α) : List SuggestionGroup :=
  if context.ask visit.node.isOpen then visit.node.proposals visit.line else []

/-- What a visit offers to execute. -/
def execution? (visit : Visit m α) : Option (Weighted (Execution m α)) :=
  (visit.node.match? context visit.line).bind fun matched =>
    if (visit.node.behind matched).isEnd then
      visit.node.handlers.execute.map fun handler =>
        ⟨consumed (visit.trail ++ [matched]), handler,
          .ofBindings (bindings (visit.trail ++ [matched]))⟩
    else none

/-- The best execution that a list of visits offers: the first of the
heaviest. -/
def best (visits : List (Visit m α)) : Option (Weighted (Execution m α)) :=
  Weighted.heaviest (visits.filterMap (execution? context))

@[simp] theorem best_nil : best context ([] : List (Visit m α)) = none := rfl

theorem best_cons (visit : Visit m α) (rest : List (Visit m α)) :
    best context (visit :: rest)
      = Weighted.heavier (visit.execution? context) (best context rest) := by
  unfold best
  cases h : visit.execution? context with
  | none => rw [List.filterMap_cons_none h, Weighted.heavier_none_left]
  | some execution => rw [List.filterMap_cons_some h, Weighted.heaviest_cons]

theorem best_append (a b : List (Visit m α)) :
    best context (a ++ b) = Weighted.heavier (best context a) (best context b) := by
  unfold best
  rw [List.filterMap_append, Weighted.heaviest_append]

end Visit

-- ============================================================== the walk

namespace Tree

variable {m : Type → Type} {α : Type}

/-- A standing is that of a trail: what was bound and consumed on it. -/
structure Standing.Of (standing : Standing m α) (trail : List (Match α)) : Prop where
  /-- What was bound. -/
  bindings : standing.bindings = Visit.bindings trail
  /-- What was consumed. -/
  weight : standing.weight = Visit.consumed trail

theorem Standing.Of.handedDown {standing : Standing m α} {trail : List (Match α)}
    (h : standing.Of trail) (tree : Tree m α) (matched : Match α) :
    (tree.handedDown standing matched).Of (trail ++ [matched]) where
  bindings := by
    show standing.bindings ++ matched.bindings = _
    rw [h.bindings, Visit.bindings, Visit.bindings, List.flatMap_append, List.flatMap_singleton]
  weight := by
    show standing.weight + matched.consumed = _
    rw [h.weight, Visit.consumed, Visit.consumed, List.map_append, List.sum_append]
    rfl

variable [Monad m] (context : Context m)

/-- What a walk gathers of some visits. -/
structure Gathered (visits : List (Visit m α)) (outcome : Outcome m α) : Prop where
  /-- The heaviest execution offered, the first on ties. -/
  execution : outcome.execution = Visit.best context visits
  /-- All suggestions offered. -/
  suggestions : outcome.suggestions = visits.flatMap (Visit.offered context)

/-- Merged outcomes hold what was gathered of both lists. -/
theorem Gathered.append {a b : List (Visit m α)} {x y : Outcome m α}
    (ha : Gathered context a x) (hb : Gathered context b y) :
    Gathered context (a ++ b) (x ++ y) where
  execution := by
    rw [Outcome.execution_append, ha.execution, hb.execution, Visit.best_append]
  suggestions := by
    rw [Outcome.suggestions_append, ha.suggestions, hb.suggestions, List.flatMap_append]

theorem Gathered.more {visits : List (Visit m α)} {outcome more : Outcome m α}
    (h : Gathered context visits outcome) (hexecution : more.execution = none)
    (hsuggestions : more.suggestions = []) : Gathered context visits (outcome ++ more) where
  execution := by
    rw [Outcome.execution_append, hexecution, Weighted.heavier_none_right, h.execution]
  suggestions := by
    rw [Outcome.suggestions_append, hsuggestions, List.append_nil, h.suggestions]

/-- A matching node finds what its own visit offers. -/
theorem gathered_foundAt {tree : Tree m α} {line : Line} {standing : Standing m α}
    {matched : Match α} {trail : List (Match α)} (path : Path)
    (hmatch : tree.Matches context line matched) (hof : standing.Of trail) :
    Gathered context [⟨path, tree, line, trail⟩] (tree.foundAt line standing matched) where
  execution := by
    have hhanded := hof.handedDown tree matched
    rw [Visit.best_cons, Visit.best_nil, Weighted.heavier_none_right, Visit.execution?,
      (match?_eq_some_iff context).2 hmatch, Option.bind_some, execution_foundAt,
      hhanded.bindings, hhanded.weight]
  suggestions := by
    rw [List.flatMap_singleton, Visit.offered, if_pos (hmatch.isOpen context), suggestions_foundAt]

/-- A walk gathers what its visits offer. -/
theorem gather_walk {tree : Tree m α} (hreads : tree.Every (ReadsOnly context))
    (hnone : tree.Every fun node => node.handlers.fallback = none) :
    ∀ (path : Path) (line : Line) (trail : List (Match α)) (standing : Standing m α),
      standing.Of trail →
      Gathered context (tree.visits context path line trail)
        (context.ask (tree.walk line standing)).1 := by
  induction tree using Tree.induction with
  | node tree ih =>
      intro path line trail standing hof
      rw [visits_eq]
      cases tree.meets context line with
      | closed hclosed =>
          rw [ask_walk_of_closed context hreads hclosed, match?_of_closed context hclosed]
          refine ⟨?_, ?_⟩
          · rw [Visit.best_cons, Visit.execution?, match?_of_closed context hclosed]
            rfl
          · rw [List.flatMap_singleton, Visit.offered, hclosed]
            rfl
      | fallsShort hopen hchain hparse =>
          have hmatch := match?_of_shortfall context hopen hchain hparse
          rw [ask_walk_of_shortfall context hreads hopen hchain hparse, hmatch]
          refine ⟨?_, ?_⟩
          · rw [Visit.best_cons, Visit.execution?, hmatch, execution_refusedAt]
            rfl
          · rw [List.flatMap_singleton, Visit.offered, if_pos hopen, suggestions_refusedAt]
      | @enters matched hmatches =>
          rw [ask_walk_of_matches context hreads hnone.root hmatches,
            (match?_eq_some_iff context).2 hmatches]
          apply Gathered.more
          · apply (gathered_foundAt context path hmatches hof).append context
            -- the children from any place on, for the induction over the rest of them
            have hchildren : ∀ (trees : List (Tree m α)) (first : Nat),
                trees ⊆ tree.children →
                Gathered context
                  (visitsAll context path first (tree.behind matched) (trail ++ [matched]) trees)
                  (context.ask (walkAll (tree.behind matched) (tree.handedDown standing matched)
                    trees)).1 := by
              intro trees
              induction trees with
              | nil =>
                  intro first _
                  rw [visitsAll, ask_walkAll_nil]
                  exact ⟨rfl, rfl⟩
              | cons child rest ihRest =>
                  intro first hsub
                  have hchild := hsub (List.mem_cons_self ..)
                  rw [visitsAll, ask_walkAll_cons context fun other hother =>
                    hreads.child (hsub hother)]
                  exact (ih child hchild (hreads.child hchild) (hnone.child hchild) _ _ _ _
                    (hof.handedDown tree matched)).append context
                    (ihRest (first + 1) (List.subset_of_cons_subset hsub))
            exact hchildren tree.children 0 (List.Subset.refl _)
          · exact execution_surplus _ _ _
          · exact suggestions_surplus _ _ _

end Tree

-- ============================================================== the root

namespace Visit

variable {m : Type → Type} {α : Type} [Monad m] (context : Context m)

/-- The line can be executed at a visit: its node matches and has a
handler, and no word is left behind the match and the node's own text. -/
structure Executes (visit : Visit m α) (matched : Match α) (handler : ExecuteHandler m α) :
    Prop where
  /-- The node matches. -/
  matching : visit.node.Matches context visit.line matched
  /-- It has a handler. -/
  handler : visit.node.handlers.execute = some handler
  /-- No word is left. -/
  noneLeft : (visit.node.behind matched).ahead = []

/-- What a visit offers to execute, if the line can be executed there. -/
theorem execution?_eq_some_iff {visit : Visit m α} {execution : Weighted (Execution m α)} :
    visit.execution? context = some execution
      ↔ ∃ matched handler, visit.Executes context matched handler
        ∧ execution = ⟨consumed (visit.trail ++ [matched]), handler,
            .ofBindings (bindings (visit.trail ++ [matched]))⟩ := by
  unfold execution?
  constructor
  · intro h
    obtain ⟨matched, hmatch, h⟩ := Option.bind_eq_some_iff.1 h
    split at h
    case isFalse => cases h
    case isTrue hend =>
      obtain ⟨handler, hhandler, h⟩ := Option.map_eq_some_iff.1 h
      exact ⟨matched, handler, ⟨(Tree.match?_eq_some_iff context).1 hmatch, hhandler,
        List.isEmpty_iff.1 hend⟩, h.symm⟩
  · rintro ⟨matched, handler, ⟨hmatch, hhandler, hend⟩, rfl⟩
    have hend : (visit.node.behind matched).isEnd = true := List.isEmpty_iff.2 hend
    rw [(Tree.match?_eq_some_iff context).2 hmatch, Option.bind_some, if_pos hend, hhandler]
    rfl

/-- The best execution of a list of visits is that of the first visit
which no other outweighs. -/
theorem exists_of_best_eq_some {visits : List (Visit m α)} {execution : Weighted (Execution m α)}
    (h : best context visits = some execution) :
    ∃ before visit behind, visits = before ++ visit :: behind
      ∧ visit.execution? context = some execution
      ∧ (∀ other ∈ before, ∀ e, other.execution? context = some e → e.weight < execution.weight)
      ∧ ∀ other ∈ behind, ∀ e, other.execution? context = some e →
          e.weight ≤ execution.weight :=
  Weighted.exists_of_heaviest_filterMap h

end Visit

namespace Tree

variable {m : Type → Type} {α : Type} [Monad m] (context : Context m)

/-- What the outcome of a line has to be, said of the nodes that the
line reaches. -/
structure Gathers (tree : Tree m α) (line : Line) (outcome : Outcome m α) : Prop where
  /-- There is an execution exactly if the line can be executed at some
  node that it reaches. -/
  isSome_execution_iff : outcome.execution.isSome
    ↔ ∃ visit matched handler, Visit.Reached context tree line visit
      ∧ visit.Executes context matched handler
  /-- It is that of one of these nodes: of the greatest weight, which is
  the number of words consumed on the way, and among equals the first in
  depth-first order. The handler is given what the chains on the way
  bound, in their order, suppressed values left out. -/
  execution_eq : ∀ execution, outcome.execution = some execution →
    ∃ visit matched, Visit.Reached context tree line visit
      ∧ visit.Executes context matched execution.item.handler
      ∧ execution.weight = ((visit.trail ++ [matched]).map Match.consumed).sum
      ∧ execution.item.arguments.slots
        = (((visit.trail ++ [matched]).flatMap Match.bindings).filter (!·.suppressed)).map
            Binding.value
      ∧ ∀ other otherMatched otherHandler, Visit.Reached context tree line other →
          other.Executes context otherMatched otherHandler → other ≠ visit →
          ((other.trail ++ [otherMatched]).map Match.consumed).sum < execution.weight
            ∨ ((other.trail ++ [otherMatched]).map Match.consumed).sum = execution.weight
              ∧ visit.path < other.path
  /-- The suggestions are those of the nodes reached whose guard accepts,
  each asked with the line it is reached with, in depth-first order. -/
  suggestions_eq : ∃ visits : List (Visit m α),
    visits.Pairwise (fun a b => a.path < b.path)
      ∧ (∀ visit, visit ∈ visits ↔ Visit.Reached context tree line visit)
      ∧ outcome.suggestions = visits.flatMap fun visit =>
          if context.ask visit.node.isOpen then
            visit.node.chain.elim [] fun chain => chain.suggest visit.line
          else []

/-- What matching a line against a tree finds is settled by the nodes
that the line reaches. -/
theorem parse_gathers {tree : Tree m α} (hreads : tree.Every (ReadsOnly context))
    (hnone : tree.Every fun node => node.handlers.fallback = none) (line : Line) :
    tree.Gathers context line (context.ask (tree.parse line)) := by
  have hgathered := gather_walk context hreads hnone [] line [] {} ⟨rfl, rfl⟩
  have hmem : ∀ visit, visit ∈ tree.visits context [] line []
      ↔ Visit.Reached context tree line visit := fun visit => mem_visits context
  rw [ask_parse context hreads]
  refine ⟨?_, ?_, tree.visits context [] line [], pairwise_visits context tree _ _ _, hmem,
    hgathered.suggestions⟩
  · rw [hgathered.execution]
    constructor
    · intro hsome
      obtain ⟨execution, hbest⟩ := Option.isSome_iff_exists.1 hsome
      obtain ⟨before, visit, behind, hsplit, hvisit, -, -⟩ :=
        Visit.exists_of_best_eq_some context hbest
      obtain ⟨matched, handler, hexecutes, -⟩ := (Visit.execution?_eq_some_iff context).1 hvisit
      exact ⟨visit, matched, handler, (hmem visit).1 (by rw [hsplit]; simp), hexecutes⟩
    · rintro ⟨visit, matched, handler, hreached, hexecutes⟩
      have hoffers := (Visit.execution?_eq_some_iff context).2 ⟨matched, handler, hexecutes, rfl⟩
      rw [Option.isSome_iff_ne_none, Visit.best, Ne, Weighted.heaviest_eq_none_iff]
      intro hempty
      have hin := List.mem_filterMap.2 ⟨visit, (hmem visit).2 hreached, hoffers⟩
      rw [hempty] at hin
      cases hin
  · intro execution hexecution
    rw [hgathered.execution] at hexecution
    obtain ⟨before, visit, behind, hsplit, hvisit, hbefore, hbehind⟩ :=
      Visit.exists_of_best_eq_some context hexecution
    obtain ⟨matched, handler, hexecutes, rfl⟩ := (Visit.execution?_eq_some_iff context).1 hvisit
    refine ⟨visit, matched, (hmem visit).1 (by rw [hsplit]; simp), hexecutes, rfl, rfl, fun
      other otherMatched otherHandler hreached hother hne => ?_⟩
    have hoffers := (Visit.execution?_eq_some_iff context).2
      ⟨otherMatched, otherHandler, hother, rfl⟩
    have hin := (hmem other).2 hreached
    rw [hsplit] at hin
    rcases List.mem_append.1 hin with hin | hin
    · exact Or.inl (hbefore other hin _ hoffers)
    · rcases List.mem_cons.1 hin with rfl | hin
      · exact absurd rfl hne
      · have horder := pairwise_visits context tree [] line []
        rw [hsplit] at horder
        have hfirst := (List.pairwise_cons.1 (List.pairwise_append.1 horder).2.1).1 other hin
        rcases Nat.lt_or_eq_of_le (hbehind other hin _ hoffers) with hlt | heq
        · exact Or.inl hlt
        · exact Or.inr ⟨heq, hfirst⟩

/-- Two ways to execute a line of two words: the first one puts a word of
its own into the line, the second one stands behind a guard that counts
how often it is asked. -/
def forked : Tree (StateM (Bool × Nat)) Unit :=
  let word : Argument Unit :=
    { node := ⟨"@string", ∅⟩, reader := (Choice.mk none default).reader, required := true
      preset := none, suppressed := false, switch := none }
  let execute : ExecuteHandler (StateM (Bool × Nat)) Unit := fun _ => pure (.ok ())
  { children :=
      [{ chain := some ⟨[word]⟩, expansion := some "more"
         children := [{ chain := some ⟨[word, word]⟩, handlers := { execute := some execute } }] },
       { chain := some ⟨[word, word]⟩
         handlers :=
          { execute := some execute, guard := some fun s => (s.1, s.1, s.2 + 1) } }] }

/-- The way with the word put in is the heavier one. -/
theorem forked_gathers :
    let context := Context.state (fun s : Bool × Nat => s.1 = true) (true, 0) rfl
    forked.Every (ReadsOnly context)
      ∧ (forked.Every fun node => node.handlers.fallback = none)
      ∧ forked.Gathers context (.ofWords ["a", "b"])
          (context.ask (forked.parse (.ofWords ["a", "b"])))
      ∧ (context.ask (forked.parse (.ofWords ["a", "b"]))).execution.map (·.weight) = some 3 := by
  intro context
  have hnodes : forked.Every fun node =>
      ReadsOnly context node ∧ node.handlers.fallback = none := by
    refine every_iff.2 ⟨⟨⟨nofun, nofun⟩, rfl⟩, List.forall_mem_cons.2 ⟨?_,
      List.forall_mem_cons.2 ⟨?_, nofun⟩⟩⟩
    · refine every_iff.2 ⟨⟨⟨nofun, nofun⟩, rfl⟩, List.forall_mem_cons.2 ⟨?_, nofun⟩⟩
      exact every_iff.2 ⟨⟨⟨nofun, nofun⟩, rfl⟩, nofun⟩
    · refine every_iff.2 ⟨⟨⟨fun guard hguard => ?_, nofun⟩, rfl⟩, nofun⟩
      injection hguard with hguard
      subst hguard
      exact fun s hs => ⟨hs, hs⟩
  have hreads : forked.Every (ReadsOnly context) := hnodes.imp fun _ hnode => hnode.1
  have hnone : forked.Every fun node => node.handlers.fallback = none :=
    hnodes.imp fun _ hnode => hnode.2
  exact ⟨hreads, hnone, parse_gathers context hreads hnone _, by decide +kernel⟩

end Tree

end CommandGrammar
