/-
Who is told of a refusal. A refusal has a handler if the node that makes it
has one, or else the nearest node above it. The walk keeps only one refusal
to tell somebody of, and settles which one it is as it goes: every merge
keeps the heavier of two, the earlier one on a tie. All refusals are listed
besides.

An objection is a refusal with the node that makes it, and with its place in
the walk: a node refuses a line that falls short of it before anything below
it is walked, and words that nobody accepts behind all of that. `record_walk`
lists the objections of a walk in the order of their places; the list is the
walk's refusals, and what the walk keeps to tell is the first of the heaviest
among those with a handler. So a heavy refusal that nobody is told of does
not keep a lighter one from its handler.

At a root with a handler everybody is told of everything, and the refusal to
tell is the best of all (`parse_reports`).
-/
import CommandGrammar.Proofs.Line
import CommandGrammar.Proofs.Tree.Gather

namespace CommandGrammar

open Relation (ReflTransGen)

variable {m : Type → Type} {α : Type}

-- ================================================================ handlers

namespace Tree

/-- The handler for refusals at the end of a path: that of the nearest node on
the way that has one. -/
def reporterOn (tree : Tree m α) : Path → Option (ReportHandler m)
  | [] => tree.handlers.report
  | place :: rest =>
      ((tree.children[place]?).bind fun child => child.reporterOn rest).or tree.handlers.report

theorem reporterOn_cons {tree child : Tree m α} {place : Nat} {rest : Path}
    (hchild : tree.children[place]? = some child) :
    tree.reporterOn (place :: rest) = (child.reporterOn rest).or tree.handlers.report := by
  rw [reporterOn, hchild, Option.bind_some]

-- one node further down, its own handler comes first
theorem reporterOn_append {tree node child : Tree m α} {path : Path} {place : Nat}
    (hnode : tree.at? path = some node) (hchild : node.children[place]? = some child) :
    tree.reporterOn (path ++ [place]) = (child.handlers.report).or (tree.reporterOn path) := by
  induction path generalizing tree with
  | nil =>
      injection hnode with hnode
      subst hnode
      exact reporterOn_cons hchild
  | cons first rest ih =>
      obtain ⟨next, hnext, hbelow⟩ := Option.bind_eq_some_iff.1 hnode
      rw [List.cons_append, reporterOn_cons hnext, reporterOn_cons hnext, ih hbelow,
        Option.or_assoc]

/-- Below a node with a handler somebody is told of every refusal. -/
theorem isSome_reporterOn {tree : Tree m α} (h : tree.handlers.report.isSome = true) (path : Path) :
    (tree.reporterOn path).isSome = true := by
  cases path with
  | nil => exact h
  | cons place rest => rw [reporterOn, Option.isSome_or, h, Bool.or_true]

end Tree

-- ============================================================== objections

/-- A refusal, with the node that makes it. -/
structure Objection (m : Type → Type) (α : Type) where
  /-- The visit of the node. -/
  visit : Visit m α
  /-- Where the refusal stands in the walk. -/
  place : Tree.Path
  /-- What is refused, with the words consumed before it. -/
  refusal : Weighted Refusal
  /-- The line that a handler is shown with it. -/
  input : String

namespace Objection

variable [Monad m] (context : Context m)

/-- The objections that a visit makes. -/
inductive Made : Objection m α → Prop
  /-- The chain of an open node does not match; the words that it did consume
  count. -/
  | shortfall {visit : Visit m α} {chain : Chain α} {shortfall : Shortfall} :
      context.ask visit.node.isOpen = true → visit.node.chain = some chain →
      chain.parse visit.line = .error shortfall →
      Made ⟨visit, visit.path,
        ⟨Visit.consumed visit.trail + shortfall.consumed, shortfall.refusal⟩, visit.line.text⟩
  /-- The node matches and the line ends, but it has nothing to execute. -/
  | inputExpected {visit : Visit m α} {matched : Match α} :
      visit.node.Matches context visit.line matched → visit.node.handlers.execute = none →
      (visit.node.behind matched).ahead = [] →
      Made ⟨visit, visit.path, ⟨Visit.consumed (visit.trail ++ [matched]), .inputExpected⟩,
        (visit.node.behind matched).text⟩
  /-- The node matches, and no child accepts the words that are left. That is
  known once all children have been walked. -/
  | unexpectedInput {visit : Visit m α} {matched : Match α} {word : String} {rest : List String} :
      visit.node.Matches context visit.line matched →
      (visit.node.behind matched).ahead = word :: rest →
      (∀ child ∈ visit.node.children, child.accepts context (visit.node.behind matched) = false) →
      Made ⟨visit, visit.path ++ [visit.node.children.length],
        ⟨Visit.consumed (visit.trail ++ [matched]), .unexpectedInput word⟩,
        (visit.node.behind matched).text⟩

/-- An objection of a visit or of one below it. -/
def Below (here : Visit m α) (objection : Objection m α) : Prop :=
  ReflTransGen (Visit.Step context) here objection.visit ∧ objection.Made context

section Made

variable {context}

theorem not_made_of_closed {objection : Objection m α}
    (h : context.ask objection.visit.node.isOpen = false) :
    ¬objection.Made context := by
  intro hmade
  cases hmade with
  | shortfall hopen _ _ => rw [h] at hopen; cases hopen
  | inputExpected hmatch _ _ => rw [hmatch.isOpen context] at h; cases h
  | unexpectedInput hmatch _ _ => rw [hmatch.isOpen context] at h; cases h

/-- A node whose chain falls short makes one objection. -/
theorem made_iff_of_shortfall (here : Visit m α) (objection : Objection m α) {chain : Chain α}
    {shortfall : Shortfall} (hopen : context.ask here.node.isOpen = true)
    (hchain : here.node.chain = some chain) (hparse : chain.parse here.line = .error shortfall) :
    objection.visit = here ∧ objection.Made context
      ↔ objection = ⟨here, here.path,
          ⟨Visit.consumed here.trail + shortfall.consumed, shortfall.refusal⟩, here.line.text⟩ := by
  have hnot : ∀ matched, ¬here.node.Matches context here.line matched := by
    intro matched hmatch
    rw [hmatch.chain chain hchain] at hparse
    cases hparse
  constructor
  · rintro ⟨rfl, hmade⟩
    cases hmade with
    | shortfall _ hother hfails =>
        rw [hchain] at hother
        injection hother with hsame
        subst hsame
        rw [hparse] at hfails
        injection hfails with hsame
        subst hsame
        rfl
    | inputExpected hmatch _ _ => exact absurd hmatch (hnot _)
    | unexpectedInput hmatch _ _ => exact absurd hmatch (hnot _)
  · rintro rfl
    exact ⟨rfl, .shortfall hopen hchain hparse⟩

/-- A matching node objects before its children or behind them, or not at all. -/
theorem made_iff_of_matches (here : Visit m α) (objection : Objection m α) {matched : Match α}
    (h : here.node.Matches context here.line matched) :
    objection.visit = here ∧ objection.Made context
      ↔ ((here.node.behind matched).isEnd && !here.node.isExecutable) = true
          ∧ objection = ⟨here, here.path,
            ⟨Visit.consumed (here.trail ++ [matched]), .inputExpected⟩,
            (here.node.behind matched).text⟩
        ∨ (!Tree.acceptsAny context (here.node.behind matched) here.node.children
              && !(here.node.behind matched).isEnd) = true
          ∧ objection = ⟨here, here.path ++ [here.node.children.length],
            ⟨Visit.consumed (here.trail ++ [matched]),
              .unexpectedInput (here.node.behind matched).current⟩,
            (here.node.behind matched).text⟩ := by
  constructor
  · rintro ⟨rfl, hmade⟩
    cases hmade with
    | shortfall _ hchain hparse =>
        rw [h.chain _ hchain] at hparse
        cases hparse
    | inputExpected hmatch hexecute hend =>
        obtain rfl := hmatch.unique context h
        refine Or.inl ⟨?_, rfl⟩
        simp [Line.isEnd, hend, Tree.isExecutable, hexecute]
    | @unexpectedInput visit _ word rest hmatch hahead hnone =>
        obtain rfl := hmatch.unique context h
        refine Or.inr ⟨?_, ?_⟩
        · simpa [Line.isEnd, hahead, Tree.acceptsAny_eq_any] using hnone
        · simp [Line.current, hahead]
  · rintro (⟨hends, rfl⟩ | ⟨hleft, rfl⟩)
    · obtain ⟨hend, hexecute⟩ := Bool.and_eq_true_iff.1 hends
      refine ⟨rfl, .inputExpected h ?_ (List.isEmpty_iff.1 hend)⟩
      simpa [Tree.isExecutable] using hexecute
    · obtain ⟨hnone, hmore⟩ := Bool.and_eq_true_iff.1 hleft
      obtain ⟨rest, hahead⟩ := Line.exists_ahead_eq (by simpa using hmore)
      refine ⟨rfl, .unexpectedInput h hahead ?_⟩
      simpa [Tree.acceptsAny_eq_any] using hnone

-- an objection stands at its node or behind what is below the node
theorem prefix_place_of_made {objection : Objection m α} (h : objection.Made context) :
    objection.visit.path <+: objection.place := by
  cases h with
  | shortfall _ _ _ => exact List.prefix_rfl
  | inputExpected _ _ _ => exact List.prefix_rfl
  | unexpectedInput _ _ _ => exact List.prefix_append _ _

theorem prefix_place_of_below {here : Visit m α} {objection : Objection m α}
    (h : objection.Below context here) :
    here.path <+: objection.place :=
  (Visit.path_prefix_of_reached context h.1).trans (prefix_place_of_made h.2)

end Made

/-- What is told of an objection, by the handler for it, if there is one. -/
def told? (root : Tree m α) (objection : Objection m α) : Option (Weighted (Reporting m)) :=
  (root.reporterOn objection.visit.path).map fun handler =>
    ⟨objection.refusal.weight, handler, objection.refusal.item, objection.input⟩

end Objection

-- =============================================================== one record

/-- An outcome records the objections with a property: their list in the order
of their places is the list of refusals, and the one to tell is the first of
the heaviest among those with a handler. -/
structure Recorded (root : Tree m α) (P : Objection m α → Prop)
    (objections : List (Objection m α)) (outcome : Outcome m α) : Prop where
  /-- They stand in the order of the walk. -/
  ordered : objections.Pairwise fun a b => a.place < b.place
  /-- They are the ones with the property. -/
  mem_iff : ∀ objection, objection ∈ objections ↔ P objection
  /-- They are all the refusals. -/
  refusals : outcome.refusals = objections.map Objection.refusal
  /-- One of them is told. -/
  reporting : outcome.reporting = Weighted.heaviest (objections.filterMap (Objection.told? root))

namespace Recorded

variable {root : Tree m α} {P Q : Objection m α → Prop} {x y : Outcome m α}

theorem nil (hP : ∀ objection, ¬P objection) (hrefusals : x.refusals = [])
    (hreporting : x.reporting = none) : Recorded root P [] x where
  ordered := .nil
  mem_iff objection := iff_of_false List.not_mem_nil (hP objection)
  refusals := hrefusals
  reporting := hreporting

theorem singleton {objection : Objection m α} (hP : ∀ other, P other ↔ other = objection)
    (hrefusals : x.refusals = [objection.refusal])
    (hreporting : x.reporting = objection.told? root) :
    Recorded root P [objection] x where
  ordered := List.pairwise_singleton ..
  mem_iff other := List.mem_singleton.trans (hP other).symm
  refusals := hrefusals
  reporting := by
    rw [hreporting]
    cases htold : objection.told? root with
    | none => rw [List.filterMap_cons_none htold]; rfl
    | some told => rw [List.filterMap_cons_some htold]; rfl

/-- Merged outcomes record the objections of both, the first ones first. -/
theorem append {a b : List (Objection m α)} (ha : Recorded root P a x) (hb : Recorded root Q b y)
    (horder : ∀ first second, P first → Q second → first.place < second.place) :
    Recorded root (fun objection => P objection ∨ Q objection) (a ++ b) (x ++ y) where
  ordered := List.pairwise_append.2 ⟨ha.ordered, hb.ordered, fun first hfirst second hsecond =>
    horder first second ((ha.mem_iff first).1 hfirst) ((hb.mem_iff second).1 hsecond)⟩
  mem_iff objection :=
    List.mem_append.trans (or_congr (ha.mem_iff objection) (hb.mem_iff objection))
  refusals := by
    rw [Outcome.refusals_append, ha.refusals, hb.refusals, List.map_append]
  reporting := by
    rw [Outcome.reporting_append, ha.reporting, hb.reporting, List.filterMap_append,
      Weighted.heaviest_append]

/-- An outcome that holds one refusal at most. -/
theorem optional {objection : Objection m α} {c : Bool}
    (hrefusals : x.refusals = if c then [objection.refusal] else [])
    (hreporting : x.reporting = if c then objection.told? root else none) :
    ∃ objections, Recorded root (fun other => c = true ∧ other = objection) objections x := by
  cases c with
  | false => exact ⟨[], nil (fun other h => Bool.noConfusion h.1) hrefusals hreporting⟩
  | true => exact ⟨[objection], singleton (fun other => and_iff_right rfl) hrefusals hreporting⟩

theorem of_iff {objections : List (Objection m α)} (h : Recorded root P objections x)
    (hiff : ∀ objection, P objection ↔ Q objection) : Recorded root Q objections x where
  ordered := h.ordered
  mem_iff objection := (h.mem_iff objection).trans (hiff objection)
  refusals := h.refusals
  reporting := h.reporting

-- a root with a handler sees to it that the heaviest refusal is told
theorem best {objections : List (Objection m α)} (h : Recorded root P objections x)
    (hroot : root.handlers.report.isSome = true) :
    x.report.map (fun report => ⟨report.weight, report.refusal⟩) = x.bestRefusal := by
  let cause : Weighted (Reporting m) → Weighted Refusal :=
    fun told => ⟨told.weight, told.item.refusal⟩
  have htold : ∀ objection : Objection m α,
      (objection.told? root).map cause = some objection.refusal := by
    intro objection
    obtain ⟨handler, hhandler⟩ :=
      Option.isSome_iff_exists.1 (Tree.isSome_reporterOn hroot objection.visit.path)
    rw [Objection.told?, hhandler]
    rfl
  have hall : (objections.filterMap (Objection.told? root)).map cause
      = objections.map Objection.refusal := by
    rw [List.map_filterMap]
    simp only [htold]
    exact congrFun List.filterMap_eq_map objections
  calc x.report.map (fun report => ⟨report.weight, report.refusal⟩)
      = x.reporting.map cause := by rw [Outcome.report, Option.map_map]; rfl
    _ = (Weighted.heaviest (objections.filterMap (Objection.told? root))).map cause := by
        rw [h.reporting]
    _ = Weighted.heaviest (objections.map Objection.refusal) := by
        rw [← hall, Weighted.heaviest_map (f := cause) fun _ _ => Iff.rfl]
    _ = x.bestRefusal := by rw [Outcome.bestRefusal, h.refusals]

end Recorded

-- ================================================================ the walk

namespace Tree

variable [Monad m] {context : Context m} {root : Tree m α}

/-- The objections of several nodes, the first of them at a place. -/
theorem record_walkAll {path : Path} {line : Line} {trail : List (Match α)}
    {standing : Standing m α} {trees : List (Tree m α)}
    (hreads : ∀ tree ∈ trees, tree.Every (ReadsOnly context)) :
    ∀ (first : Nat), (∀ place child, trees[place]? = some child → ∃ objections,
        Recorded root (Objection.Below context ⟨path ++ [first + place], child, line, trail⟩)
          objections (context.ask (child.walk line standing)).1) →
      ∃ objections, Recorded root
        (fun objection => ∃ place child, trees[place]? = some child
          ∧ objection.Below context ⟨path ++ [first + place], child, line, trail⟩)
        objections (context.ask (walkAll line standing trees)).1 := by
  induction trees with
  | nil =>
      intro first _
      rw [ask_walkAll_nil]
      refine ⟨[], .nil ?_ rfl rfl⟩
      rintro objection ⟨place, child, hchild, -⟩
      cases hchild
  | cons tree rest ih =>
      intro first hwalk
      obtain ⟨here, hhere⟩ := hwalk 0 tree rfl
      have hrest : ∀ place child, rest[place]? = some child → ∃ objections,
          Recorded root (Objection.Below context ⟨path ++ [first + 1 + place], child, line, trail⟩)
            objections (context.ask (child.walk line standing)).1 := by
        intro place child hchild
        rw [show first + 1 + place = first + (place + 1) by omega]
        exact hwalk (place + 1) child hchild
      obtain ⟨others, hothers⟩ :=
        ih (fun other hother => hreads other (List.mem_cons_of_mem _ hother)) (first + 1) hrest
      rw [ask_walkAll_cons context hreads]
      refine ⟨here ++ others, (hhere.append hothers ?_).of_iff fun objection => ?_⟩
      · rintro a b ha ⟨place, child, -, hb⟩
        exact Path.lt_of_parts (Objection.prefix_place_of_below ha)
          (Objection.prefix_place_of_below hb) (by omega)
      · constructor
        · rintro (hbelow | ⟨place, child, hchild, hbelow⟩)
          · exact ⟨0, tree, rfl, hbelow⟩
          · refine ⟨place + 1, child, hchild, ?_⟩
            rwa [show first + (place + 1) = first + 1 + place by omega]
        · rintro ⟨place, child, hchild, hbelow⟩
          cases place with
          | zero =>
              injection hchild with hchild
              exact Or.inl (hchild ▸ hbelow)
          | succ place =>
              refine Or.inr ⟨place, child, hchild, ?_⟩
              rwa [show first + 1 + place = first + (place + 1) by omega]

/-- At a matching node the objections of the children stand between those of the
node. -/
theorem record_of_matches {tree : Tree m α} {path : Path} {line : Line} {trail : List (Match α)}
    {standing : Standing m α} {matched : Match α} {below : Outcome m α}
    (hmatch : tree.Matches context line matched) (hof : standing.Of trail)
    (hreport : (standing.under tree.handlers).report = root.reporterOn path)
    (hbelow : ∃ objections, Recorded root
      (fun objection => ∃ place child, tree.children[place]? = some child
        ∧ objection.Below context
          ⟨path ++ [place], child, tree.behind matched, trail ++ [matched]⟩) objections below) :
    ∃ objections, Recorded root (Objection.Below context ⟨path, tree, line, trail⟩) objections
      (tree.foundAt line standing matched ++ below
        ++ surplus (acceptsAny context (tree.behind matched) tree.children) (tree.behind matched)
          (tree.handedDown standing matched)) := by
  have hhanded := (hof.handedDown tree matched).weight
  have hreporter : (tree.handedDown standing matched).report = root.reporterOn path := hreport
  let here : Visit m α := ⟨path, tree, line, trail⟩
  let first : Objection m α := ⟨here, path,
    ⟨Visit.consumed (trail ++ [matched]), .inputExpected⟩, (tree.behind matched).text⟩
  let last : Objection m α := ⟨here, path ++ [tree.children.length],
    ⟨Visit.consumed (trail ++ [matched]), .unexpectedInput (tree.behind matched).current⟩,
    (tree.behind matched).text⟩
  have hfound : ∃ objections, Recorded root (fun objection =>
      ((tree.behind matched).isEnd && !tree.isExecutable) = true ∧ objection = first) objections
      (tree.foundAt line standing matched) := by
    apply Recorded.optional
    · rw [refusals_foundAt, hhanded]
    · rw [reporting_foundAt, hreport, hhanded]
      rfl
  have hover : ∃ objections, Recorded root (fun objection =>
      (!acceptsAny context (tree.behind matched) tree.children
        && !(tree.behind matched).isEnd) = true ∧ objection = last) objections
      (surplus (acceptsAny context (tree.behind matched) tree.children) (tree.behind matched)
        (tree.handedDown standing matched)) := by
    apply Recorded.optional
    · rw [refusals_surplus, hhanded]
    · rw [reporting_surplus, hreporter, hhanded]
      rfl
  obtain ⟨before, hbefore⟩ := hfound
  obtain ⟨between, hbetween⟩ := hbelow
  obtain ⟨behind, hbehind⟩ := hover
  refine ⟨before ++ between ++ behind,
    ((hbefore.append hbetween ?_).append hbehind ?_).of_iff fun objection => ?_⟩
  · rintro _ other ⟨-, rfl⟩ ⟨place, child, -, hother⟩
    exact Path.lt_of_extends (Objection.prefix_place_of_below hother)
  · rintro other _ (⟨-, rfl⟩ | ⟨place, child, hchild, hother⟩) ⟨-, rfl⟩
    · exact Path.lt_of_extends List.prefix_rfl
    · apply Path.lt_of_parts (Objection.prefix_place_of_below hother) List.prefix_rfl
      exact (List.getElem?_eq_some_iff.1 hchild).1
  · have hhere := Objection.made_iff_of_matches here objection hmatch
    have hreached : ReflTransGen (Visit.Step context) here objection.visit ↔ _ :=
      Visit.reached_iff_of_matches context hmatch
    constructor
    · rintro ((hfirst | ⟨place, child, hchild, hbelow, hmade⟩) | hlast)
      · obtain ⟨hvisit, hmade⟩ := hhere.2 (Or.inl hfirst)
        exact ⟨hreached.2 (Or.inl hvisit), hmade⟩
      · exact ⟨hreached.2 (Or.inr ⟨place, child, hchild, hbelow⟩), hmade⟩
      · obtain ⟨hvisit, hmade⟩ := hhere.2 (Or.inr hlast)
        exact ⟨hreached.2 (Or.inl hvisit), hmade⟩
    · rintro ⟨hobjection, hmade⟩
      rcases hreached.1 hobjection with hvisit | ⟨place, child, hchild, hbelow⟩
      · rcases hhere.1 ⟨hvisit, hmade⟩ with hfirst | hlast
        · exact Or.inl (Or.inl hfirst)
        · exact Or.inr hlast
      · exact Or.inl (Or.inr ⟨place, child, hchild, hbelow, hmade⟩)

/-- A walk records the objections of its node and of what is below it. -/
theorem record_walk {tree : Tree m α} (hreads : tree.Every (ReadsOnly context))
    (hnone : tree.Every fun node => node.handlers.fallback = none) :
    ∀ (path : Path) (line : Line) (trail : List (Match α)) (standing : Standing m α),
      standing.Of trail → root.at? path = some tree →
      (standing.under tree.handlers).report = root.reporterOn path →
      ∃ objections, Recorded root (Objection.Below context ⟨path, tree, line, trail⟩) objections
        (context.ask (tree.walk line standing)).1 := by
  induction tree using Tree.induction with
  | node tree ih =>
      intro path line trail standing hof hat hreport
      let here : Visit m α := ⟨path, tree, line, trail⟩
      cases tree.meets context line with
      | closed hclosed =>
          have hmatch : here.node.match? context line = none := match?_of_closed context hclosed
          rw [ask_walk_of_closed context hreads hclosed]
          refine ⟨[], .nil ?_ rfl rfl⟩
          rintro objection ⟨hreached, hmade⟩
          have hhere := (Visit.reached_iff_of_match?_eq_none context hmatch).1 hreached
          apply Objection.not_made_of_closed _ hmade
          rw [hhere, hclosed]
      | @fallsShort chain shortfall hopen hchain hparse =>
          have hmatch : here.node.match? context line = none :=
            match?_of_shortfall context hopen hchain hparse
          rw [ask_walk_of_shortfall context hreads hopen hchain hparse]
          refine ⟨[⟨here, path, ⟨Visit.consumed trail + shortfall.consumed, shortfall.refusal⟩,
            line.text⟩], .singleton (fun objection => ?_) ?_ ?_⟩
          · rw [← Objection.made_iff_of_shortfall here objection hopen hchain hparse]
            exact and_congr_left' (Visit.reached_iff_of_match?_eq_none context hmatch)
          · rw [refusals_refusedAt, hof.weight]
          · rw [reporting_refusedAt, hreport, hof.weight]
            rfl
      | @enters matched hmatch =>
          have hbelow : ∃ objections, Recorded root
              (fun objection => ∃ place child, tree.children[place]? = some child
                ∧ objection.Below context
                  ⟨path ++ [0 + place], child, tree.behind matched, trail ++ [matched]⟩) objections
              (context.ask (walkAll (tree.behind matched) (tree.handedDown standing matched)
                tree.children)).1 := by
            apply record_walkAll (fun child hchild => hreads.child hchild)
            intro place child hchild
            have hin := List.mem_of_getElem? hchild
            rw [Nat.zero_add]
            apply ih child hin (hreads.child hin) (hnone.child hin)
            · exact hof.handedDown tree matched
            · exact at?_of_child hat hchild
            · rw [reporterOn_append hat hchild, ← hreport]
              exact report_under _ _
          rw [ask_walk_of_matches context hreads hnone.root hmatch, accepts_children hreads hnone]
          simp only [Nat.zero_add] at hbelow
          exact record_of_matches hmatch hof hreport hbelow

-- ================================================================ the root

variable (context) in
/-- What the outcome of a line has to be, said of the objections of the nodes
that the line reaches. -/
structure Reports (tree : Tree m α) (line : Line) (objections : List (Objection m α))
    (outcome : Outcome m α) : Prop where
  /-- They stand in the order of the walk. -/
  ordered : objections.Pairwise fun a b => a.place < b.place
  /-- They are those that the nodes reached make. -/
  mem_iff : ∀ objection, objection ∈ objections
    ↔ Visit.Reached context tree line objection.visit ∧ objection.Made context
  /-- They are all the refusals, in this order. -/
  refusals_eq : outcome.refusals = objections.map Objection.refusal
  /-- Nobody is told exactly if none of the nodes that make them has a handler on
  itself or above. -/
  reporting_eq_none_iff : outcome.reporting = none
    ↔ ∀ objection ∈ objections, tree.reporterOn objection.visit.path = none
  /-- Otherwise the handler nearest to the node of one of them is told of it, with
  the line that it was made on. Those with a handler that stand before it are
  lighter, and those behind it not heavier. -/
  reporting_eq : ∀ told, outcome.reporting = some told →
    ∃ before objection behind, objections = before ++ objection :: behind
      ∧ tree.reporterOn objection.visit.path = some told.item.handler
      ∧ objection.refusal = ⟨told.weight, told.item.refusal⟩
      ∧ objection.input = told.item.input
      ∧ (∀ other ∈ before, (tree.reporterOn other.visit.path).isSome = true →
          other.refusal.weight < told.weight)
      ∧ ∀ other ∈ behind, (tree.reporterOn other.visit.path).isSome = true →
          other.refusal.weight ≤ told.weight
  /-- If the root has a handler, somebody is told of every refusal, and the best of
  them is the one that is told. -/
  best : tree.handlers.report.isSome = true →
    (outcome.report.isSome = true ↔ outcome.refusals ≠ [])
      ∧ outcome.report.map (fun report => ⟨report.weight, report.refusal⟩) = outcome.bestRefusal

/-- Who is told of what is settled by the objections of the nodes that the line
reaches. -/
theorem parse_reports {tree : Tree m α} (hreads : tree.Every (ReadsOnly context))
    (hnone : tree.Every fun node => node.handlers.fallback = none) (line : Line) :
    ∃ objections, tree.Reports context line objections (context.ask (tree.parse line)) := by
  have hrecorded : ∃ objections, Recorded tree
      (Objection.Below context (Visit.start tree line)) objections
      (context.ask (tree.walk line {})).1 :=
    record_walk hreads hnone [] line [] {} ⟨rfl, rfl⟩ rfl
      ((report_under _ _).trans (Option.or_none ..))
  obtain ⟨objections, h⟩ := hrecorded
  rw [← ask_parse context hreads] at h
  refine ⟨objections, h.ordered, h.mem_iff, h.refusals, ?_, ?_, fun hroot => ⟨?_, h.best hroot⟩⟩
  · rw [h.reporting, Weighted.heaviest_eq_none_iff, List.filterMap_eq_nil_iff]
    exact forall₂_congr fun objection _ => Option.map_eq_none_iff
  · intro told htold
    rw [h.reporting] at htold
    obtain ⟨before, objection, behind, hsplit, hobjection, hbefore, hbehind⟩ :=
      Weighted.exists_of_heaviest_filterMap htold
    obtain ⟨handler, hhandler, rfl⟩ := Option.map_eq_some_iff.1 hobjection
    refine ⟨before, objection, behind, hsplit, hhandler, rfl, rfl, ?_, ?_⟩
    · intro other hother hsome
      obtain ⟨reporter, hreporter⟩ := Option.isSome_iff_exists.1 hsome
      exact hbefore other hother _ (Option.map_eq_some_iff.2 ⟨reporter, hreporter, rfl⟩)
    · intro other hother hsome
      obtain ⟨reporter, hreporter⟩ := Option.isSome_iff_exists.1 hsome
      exact hbehind other hother _ (Option.map_eq_some_iff.2 ⟨reporter, hreporter, rfl⟩)
  · rw [Ne, ← Weighted.heaviest_eq_none_iff, ← Outcome.bestRefusal, ← h.best hroot,
      Option.map_eq_none_iff, Option.isSome_iff_ne_none]

/-- Two ways to begin a line. The first one has handlers for refusals, one at
each of its nodes; the second one gets further, but nobody is told. -/
def grievances : Tree (ReaderM Bool) Unit :=
  let chain (spec : String) : Chain Unit := (Chain.ofSpec .standard spec).toOption.getD ⟨[]⟩
  let handler (name : String) : Handlers (ReaderM Bool) Unit :=
    { report := some fun _ => pure (.error name) }
  { children :=
      [{ chain := some (chain "go"), handlers := handler "outer"
         children := [{ chain := some (chain "@int"), handlers := handler "inner" }] },
       { chain := some (chain "go @string") }] }

/-- The inner handler is told, of the first of the refusals with a handler; the
heaviest refusal has none. -/
theorem grievances_reports :
    let context := Context.reader true
    let line : Line := .ofWords ["go", "far"]
    let outcome := context.ask (grievances.parse line)
    grievances.Every (ReadsOnly context)
      ∧ (grievances.Every fun node => node.handlers.fallback = none)
      ∧ (∃ objections, grievances.Reports context line objections outcome)
      ∧ outcome.refusals.map (·.weight) = [1, 1, 2]
      ∧ outcome.report.map (·.weight) = some 1
      ∧ context.ask outcome.execute = .error (.handler "inner") := by
  intro context line outcome
  have hnodes : grievances.Every fun node =>
      ReadsOnly context node ∧ node.handlers.fallback = none := by
    refine every_iff.2 ⟨⟨readsOnly_of_none context rfl rfl, rfl⟩, List.forall_mem_cons.2 ⟨?_,
      List.forall_mem_singleton.2 ?_⟩⟩
    · refine every_iff.2 ⟨⟨readsOnly_of_none context rfl rfl, rfl⟩,
        List.forall_mem_singleton.2 ?_⟩
      exact every_iff.2 ⟨⟨readsOnly_of_none context rfl rfl, rfl⟩, List.forall_mem_nil _⟩
    · exact every_iff.2 ⟨⟨readsOnly_of_none context rfl rfl, rfl⟩, List.forall_mem_nil _⟩
  have hreads : grievances.Every (ReadsOnly context) := hnodes.imp fun _ hnode => hnode.1
  have hnone : grievances.Every fun node => node.handlers.fallback = none :=
    hnodes.imp fun _ hnode => hnode.2
  exact ⟨hreads, hnone, parse_reports hreads hnone line, by decide +kernel, by decide +kernel,
    by decide +kernel⟩

end Tree

end CommandGrammar
