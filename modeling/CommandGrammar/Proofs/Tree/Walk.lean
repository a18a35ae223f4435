/-
Walks in a context. If the handlers that a walk runs only read the
context, the walk only reads it too, and its answer is computed node by
node: `ask_proceed_of_entered` and `ask_walkAll_cons` are the equations of
that computation and `ask_walk_induction` is the induction along it, and with
them nothing else has to look at the monad again. Where two walks are
compared, `ask_walkAll_of_related` takes what relates the children of a node
one by one to all of them.
-/
import CommandGrammar.Proofs.Outcome
import CommandGrammar.Proofs.Tree.Visit

namespace CommandGrammar.Tree

variable {m : Type → Type} {α : Type} [Monad m] (context : Context m)

-- ================================================= walks read the context

/-- Without a guard and a fallback matching runs no handler. -/
theorem readsOnly_of_none {node : Tree m α} (hguard : node.handlers.guard = none)
    (hfallback : node.handlers.fallback = none) : ReadsOnly context node where
  guard := fun guard h => by
    rw [hguard] at h
    cases h
  fallback := fun fallback h => by
    rw [hfallback] at h
    cases h

theorem reads_isOpen {node : Tree m α} (h : ReadsOnly context node) :
    context.Reads node.isOpen := by
  unfold isOpen
  cases hguard : node.handlers.guard with
  | none => exact context.reads_pure true
  | some guard => exact h.guard guard hguard

theorem reads_leftover {node : Tree m α} (h : ReadsOnly context node) (found : Outcome m α)
    (line : Line) (standing : Standing m α) (accepted : Bool) :
    context.Reads (node.leftover found line standing accepted) := by
  unfold leftover
  cases hfallback : node.handlers.fallback with
  | none =>
      dsimp only
      split <;> exact context.reads_pure _
  | some fallback =>
      dsimp only
      split
      · exact context.reads_bind (h.fallback fallback hfallback _) (context.reads_pure _)
      · exact context.reads_pure _

/-- How a walk goes on at a node that is open. -/
def proceed (tree : Tree m α) (line : Line) (standing : Standing m α) : m (Outcome m α × Bool) :=
  match tree.arrive line standing with
  | .refused found accepted => return (found, accepted)
  | .entered found behind handed => do
      let below ← walkAll behind handed tree.children
      if below.2 then return (found ++ below.1, true)
      else tree.leftover (found ++ below.1) behind handed (standing.weight < handed.weight)

/-- A walk asks the guard and goes on where it is open. -/
theorem walk_eq (tree : Tree m α) (line : Line) (standing : Standing m α) :
    tree.walk line standing
      = (do if ← tree.isOpen then tree.proceed line standing else return (∅, false)) := by
  cases tree
  rw [walk]
  rfl

theorem reads_walkAll {line : Line} {standing : Standing m α} {trees : List (Tree m α)}
    (h : ∀ tree ∈ trees, context.Reads (tree.walk line standing)) :
    context.Reads (walkAll line standing trees) := by
  induction trees with
  | nil => rw [walkAll]; exact context.reads_pure _
  | cons tree rest ih =>
      rw [walkAll]
      refine context.reads_bind (h tree (List.mem_cons_self ..)) ?_
      exact context.reads_bind (ih fun other hother => h other (List.mem_cons_of_mem _ hother))
        (context.reads_pure _)

/-- Going on at a node reads if the walks of the children do. -/
theorem reads_proceed {tree : Tree m α} (h : ReadsOnly context tree)
    (hbelow : ∀ line (standing : Standing m α),
      context.Reads (walkAll line standing tree.children))
    (line : Line) (standing : Standing m α) :
    context.Reads (tree.proceed line standing) := by
  unfold proceed
  cases tree.arrive line standing with
  | refused found accepted => exact context.reads_pure _
  | entered found behind handed =>
      refine context.reads_bind (hbelow behind handed) ?_
      split
      · exact context.reads_pure _
      · exact reads_leftover context h _ _ _ _

/-- A walk only reads the context if the handlers it runs do. -/
theorem reads_walk {tree : Tree m α} (h : tree.Every (ReadsOnly context)) :
    ∀ (line : Line) (standing : Standing m α), context.Reads (tree.walk line standing) := by
  induction tree using Tree.induction with
  | node tree ih =>
      intro line standing
      rw [walk_eq]
      refine context.reads_bind (reads_isOpen context h.root) ?_
      split
      · exact reads_proceed context h.root (fun line standing =>
          reads_walkAll context fun child hchild => ih child hchild (h.child hchild) line standing)
          line standing
      · exact context.reads_pure _

theorem reads_children {tree : Tree m α} (h : tree.Every (ReadsOnly context)) (line : Line)
    (standing : Standing m α) : context.Reads (walkAll line standing tree.children) :=
  reads_walkAll context fun _ hchild => reads_walk context (h.child hchild) line standing

-- ==================================================== equations of a walk

/-- The walk of a node whose guard refuses finds nothing. -/
theorem ask_walk_of_closed {tree : Tree m α} (h : tree.Every (ReadsOnly context))
    (hclosed : context.ask tree.isOpen = false) (line : Line) (standing : Standing m α) :
    context.ask (tree.walk line standing) = (∅, false) := by
  rw [walk_eq, context.ask_bind (reads_isOpen context h.root)]
  · rw [hclosed]
    exact context.ask_pure _
  · rw [hclosed]
    exact context.reads_pure _

/-- The walk of an open node goes on there. -/
theorem ask_walk_of_open {tree : Tree m α} (h : tree.Every (ReadsOnly context))
    (hopen : context.ask tree.isOpen = true) (line : Line) (standing : Standing m α) :
    context.ask (tree.walk line standing) = context.ask (tree.proceed line standing) := by
  have hreads := reads_proceed context h.root (reads_children context h) line standing
  rw [walk_eq, context.ask_bind (reads_isOpen context h.root)]
  · rw [hopen]
    rfl
  · rw [hopen]
    exact hreads

theorem ask_walkAll_nil (line : Line) (standing : Standing m α) :
    context.ask (walkAll line standing []) = (∅, false) := by
  rw [walkAll]
  exact context.ask_pure _

/-- The walk of several nodes is the walk of the first and of the others. -/
theorem ask_walkAll_cons {tree : Tree m α} {rest : List (Tree m α)}
    (h : ∀ other ∈ tree :: rest, other.Every (ReadsOnly context)) (line : Line)
    (standing : Standing m α) :
    context.ask (walkAll line standing (tree :: rest))
      = ((context.ask (tree.walk line standing)).1
            ++ (context.ask (walkAll line standing rest)).1,
          (context.ask (tree.walk line standing)).2
            || (context.ask (walkAll line standing rest)).2) := by
  have hfirst := reads_walk context (h tree (List.mem_cons_self ..)) line standing
  have hrest : context.Reads (walkAll line standing rest) :=
    reads_walkAll context fun other hother =>
      reads_walk context (h other (List.mem_cons_of_mem _ hother)) line standing
  have hmerge : ∀ first : Outcome m α × Bool, context.Reads (do
      let others ← walkAll line standing rest
      return (first.1 ++ others.1, first.2 || others.2)) :=
    fun first => context.reads_bind hrest (context.reads_pure _)
  rw [walkAll, context.ask_bind hfirst (hmerge _), context.ask_bind hrest]
  · exact context.ask_pure _
  · exact context.reads_pure _

/-- What merging keeps holds of the walk of several nodes if it holds of
the walk of each. -/
theorem ask_walkAll_of_forall {P : Outcome m α → Prop} (hempty : P ∅)
    (happend : ∀ a b, P a → P b → P (a ++ b)) {line : Line} {standing : Standing m α}
    {trees : List (Tree m α)} (hreads : ∀ tree ∈ trees, tree.Every (ReadsOnly context))
    (h : ∀ tree ∈ trees, P (context.ask (tree.walk line standing)).1) :
    P (context.ask (walkAll line standing trees)).1 := by
  induction trees with
  | nil =>
      rw [ask_walkAll_nil]
      exact hempty
  | cons tree rest ih =>
      rw [ask_walkAll_cons context hreads]
      apply happend
      · exact h tree (List.mem_cons_self ..)
      · exact ih (fun other hother => hreads other (List.mem_cons_of_mem _ hother))
          fun other hother => h other (List.mem_cons_of_mem _ hother)

/-- A relation that merging keeps relates the walks of several nodes on two
lines if it relates those of each. -/
theorem ask_walkAll_of_related {R : Outcome m α × Bool → Outcome m α × Bool → Prop}
    (hempty : R (∅, false) (∅, false))
    (hmerge : ∀ {a b c d}, R a b → R c d → R (a.1 ++ c.1, a.2 || c.2) (b.1 ++ d.1, b.2 || d.2))
    {line other : Line} {standing handed : Standing m α} {trees : List (Tree m α)}
    (hreads : ∀ tree ∈ trees, tree.Every (ReadsOnly context))
    (h : ∀ tree ∈ trees,
      R (context.ask (tree.walk line standing)) (context.ask (tree.walk other handed))) :
    R (context.ask (walkAll line standing trees)) (context.ask (walkAll other handed trees)) := by
  induction trees with
  | nil =>
      rw [ask_walkAll_nil, ask_walkAll_nil]
      exact hempty
  | cons tree rest ih =>
      obtain ⟨hfirst, hothers⟩ := List.forall_mem_cons.1 h
      rw [ask_walkAll_cons context hreads, ask_walkAll_cons context hreads]
      exact hmerge hfirst (ih (List.forall_mem_cons.1 hreads).2 hothers)

/-- A refusing chain ends the walk at its node. -/
theorem ask_proceed_of_refused {tree : Tree m α} {line : Line} {standing : Standing m α}
    {found : Outcome m α} {accepted : Bool}
    (harrive : tree.arrive line standing = .refused found accepted) :
    context.ask (tree.proceed line standing) = (found, accepted) := by
  unfold proceed
  rw [harrive]
  exact context.ask_pure _

/-- Behind a match the children are walked, and what none of them
accepts is dealt with at the node. -/
theorem ask_proceed_of_entered {tree : Tree m α} (h : tree.Every (ReadsOnly context))
    {line behind : Line} {standing handed : Standing m α} {found : Outcome m α}
    (harrive : tree.arrive line standing = .entered found behind handed) :
    context.ask (tree.proceed line standing)
      = if (context.ask (walkAll behind handed tree.children)).2 then
          (found ++ (context.ask (walkAll behind handed tree.children)).1, true)
        else
          context.ask (tree.leftover
            (found ++ (context.ask (walkAll behind handed tree.children)).1)
            behind handed (standing.weight < handed.weight)) := by
  have hthen : ∀ below : Outcome m α × Bool, context.Reads
      (if below.2 then return (found ++ below.1, true)
        else tree.leftover (found ++ below.1) behind handed
          (standing.weight < handed.weight)) := by
    intro below
    split
    · exact context.reads_pure _
    · exact reads_leftover context h.root _ _ _ _
  unfold proceed
  rw [harrive]
  refine (context.ask_bind (reads_children context h behind handed) (hthen _)).trans ?_
  split
  · exact context.ask_pure _
  · rfl

/-- Induction along a walk: its answer at a node that is closed, at one whose
chain refuses, and at one that is entered, where the children's are known. -/
theorem ask_walk_induction
    {motive : Tree m α → Line → Standing m α → Outcome m α × Bool → Prop}
    (closed : ∀ tree line standing, context.ask tree.isOpen = false →
      motive tree line standing (∅, false))
    (refused : ∀ tree line standing found accepted, context.ask tree.isOpen = true →
      tree.arrive line standing = .refused found accepted →
      motive tree line standing (found, accepted))
    (entered : ∀ tree line standing found behind handed, tree.Every (ReadsOnly context) →
      context.ask tree.isOpen = true →
      tree.arrive line standing = .entered found behind handed →
      (∀ child ∈ tree.children,
        motive child behind handed (context.ask (child.walk behind handed))) →
      motive tree line standing
        (if (context.ask (walkAll behind handed tree.children)).2 then
          (found ++ (context.ask (walkAll behind handed tree.children)).1, true)
        else
          context.ask (tree.leftover
            (found ++ (context.ask (walkAll behind handed tree.children)).1)
            behind handed (standing.weight < handed.weight))))
    {tree : Tree m α} (hreads : tree.Every (ReadsOnly context)) :
    ∀ line standing, motive tree line standing (context.ask (tree.walk line standing)) := by
  induction tree using Tree.induction with
  | node tree ih =>
      intro line standing
      cases hopen : context.ask tree.isOpen with
      | false =>
          rw [ask_walk_of_closed context hreads hopen]
          exact closed tree line standing hopen
      | true =>
          rw [ask_walk_of_open context hreads hopen]
          cases harrive : tree.arrive line standing with
          | refused found accepted =>
              rw [ask_proceed_of_refused context harrive]
              exact refused tree line standing found accepted hopen harrive
          | entered found behind handed =>
              rw [ask_proceed_of_entered context hreads harrive]
              exact entered tree line standing found behind handed hreads hopen harrive
                fun child hchild => ih child hchild (hreads.child hchild) behind handed

/-- What becomes of words left over does not depend on what was found before. -/
theorem ask_leftover {tree : Tree m α} (h : ReadsOnly context tree) (found : Outcome m α)
    (line : Line) (standing : Standing m α) (accepted : Bool) :
    context.ask (tree.leftover found line standing accepted)
      = (found ++ (context.ask (tree.leftover ∅ line standing false)).1,
          accepted || (context.ask (tree.leftover ∅ line standing false)).2) := by
  unfold leftover
  cases hfallback : tree.handlers.fallback with
  | none =>
      dsimp only
      split <;> simp [context.ask_pure]
  | some fallback =>
      have hreads := h.fallback fallback hfallback ⟨line, standing.bindings, standing.weight⟩
      dsimp only
      split
      · rw [context.ask_bind_pure hreads, context.ask_bind_pure hreads]
        simp
      · simp [context.ask_pure]

theorem reads_parse {tree : Tree m α} (h : tree.Every (ReadsOnly context)) (line : Line) :
    context.Reads (tree.parse line) := by
  unfold parse
  exact context.reads_bind (reads_walk context h line {}) (context.reads_pure _)

theorem ask_parse {tree : Tree m α} (h : tree.Every (ReadsOnly context)) (line : Line) :
    context.ask (tree.parse line) = (context.ask (tree.walk line {})).1 := by
  unfold parse
  rw [context.ask_bind (reads_walk context h line {})]
  · exact context.ask_pure _
  · exact context.reads_pure _

end CommandGrammar.Tree
