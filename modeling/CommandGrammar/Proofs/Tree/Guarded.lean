/-
Nodes behind closed guards cannot be seen. A walk asks the guard of a node
before anything else, and where the guard refuses it finds nothing and
accepts nothing; merging that with what the siblings find changes neither.
So above a closed node it makes no difference what the node is, or whether
it is there at all, with one exception: a node without children lets
suggestions be shown where the line ends, and to lose the last child is to
become such a node.

`SeenAlike` relates lists of nodes, not single nodes, since leaving a closed
node out is a change of the list. The induction over it (`same_walkAll`)
needs no walk of two trees at once: a closed node is a step on its own, and
for the others the two walks meet the line at nodes that differ in their
children only.
-/
import CommandGrammar.Proofs.Outcome
import CommandGrammar.Proofs.Tree.Walk

namespace CommandGrammar

open Relation (ReflTransGen)

variable {m : Type → Type} {α : Type}

-- =============================================================== outcomes

namespace Outcome

/-- Two outcomes are the same, if `whole` holds. Otherwise they may differ
in whether and how suggestions are shown. -/
structure Same (whole : Prop) (a b : Outcome m α) : Prop where
  execution : a.execution = b.execution
  reporting : a.reporting = b.reporting
  refusals : a.refusals = b.refusals
  suggestions : a.suggestions = b.suggestions
  completion : whole → a.completion = b.completion

theorem Same.refl (whole : Prop) (a : Outcome m α) : a.Same whole a :=
  ⟨rfl, rfl, rfl, rfl, fun _ => rfl⟩

theorem Same.append {whole : Prop} {a b c d : Outcome m α} (hab : a.Same whole b)
    (hcd : c.Same whole d) : (a ++ c).Same whole (b ++ d) where
  execution := by simp [hab.execution, hcd.execution]
  reporting := by simp [hab.reporting, hcd.reporting]
  refusals := by simp [hab.refusals, hcd.refusals]
  suggestions := by simp [hab.suggestions, hcd.suggestions]
  completion h := by simp [hab.completion h, hcd.completion h]

theorem eq_of_same {a b : Outcome m α} (h : a.Same True b) : a = b := by
  ext1
  · exact h.execution
  · exact h.reporting
  · exact h.completion trivial
  · exact h.refusals
  · exact h.suggestions

end Outcome

namespace Tree

-- ============================================================== one node

/-- Two meetings do not differ but in what is found at the end of the line. -/
inductive Arrival.Same (whole : Prop) : Arrival m α → Arrival m α → Prop
  | refused (found : Outcome m α) (accepted : Bool) :
      Same whole (.refused found accepted) (.refused found accepted)
  | entered {a b : Outcome m α} (line : Line) (standing : Standing m α) :
      a.Same whole b → Same whole (.entered a line standing) (.entered b line standing)

section Childless

variable {whole : Prop} {chain : Option (Chain α)} {expansion : Option String}
  {handlers : Handlers m α} {children others : List (Tree m α)}

theorem same_atEnd (h : whole → children.isEmpty = others.isEmpty) (line : Line)
    (standing : Standing m α) :
    (atEnd ⟨chain, expansion, handlers, children⟩ line standing).Same whole
      (atEnd ⟨chain, expansion, handlers, others⟩ line standing) := by
  unfold atEnd
  apply (Outcome.Same.refl whole _).append
  by_cases hempty : children.isEmpty = others.isEmpty
  · rw [hempty]
    exact .refl _ _
  · constructor
    case completion => exact fun hwhole => absurd (h hwhole) hempty
    all_goals dsimp only; split <;> split <;> rfl

theorem same_enter (h : whole → children.isEmpty = others.isEmpty) (found : Outcome m α)
    (line : Line) (standing : Standing m α) :
    (enter ⟨chain, expansion, handlers, children⟩ found line standing).Same whole
      (enter ⟨chain, expansion, handlers, others⟩ found line standing) := by
  apply Arrival.Same.entered
  dsimp only
  split
  · exact (Outcome.Same.refl whole found).append (same_atEnd h _ _)
  · exact .refl _ _

/-- A node meets a line by itself: of its children it matters only whether
there are any. -/
theorem same_arrive (h : whole → children.isEmpty = others.isEmpty) (line : Line)
    (standing : Standing m α) :
    (arrive ⟨chain, expansion, handlers, children⟩ line standing).Same whole
      (arrive ⟨chain, expansion, handlers, others⟩ line standing) := by
  unfold arrive
  dsimp only
  split
  · exact same_enter h _ _ _
  · split
    · exact same_enter h _ _ _
    · exact .refused _ _

end Childless

-- ======================================================== closed guards

section Guards

variable [Monad m] (context : Context m)

/-- Lists of nodes that are the same but for closed nodes, at any depth. A
closed node may be another one, or be left out; if `whole` holds, no open
node loses all of its children by that. -/
inductive SeenAlike (whole : Prop) : List (Tree m α) → List (Tree m α) → Prop
  | nil : SeenAlike whole [] []
  | closed {tree other : Tree m α} {trees others : List (Tree m α)} :
      context.ask tree.isOpen = false → context.ask other.isOpen = false →
      SeenAlike whole trees others → SeenAlike whole (tree :: trees) (other :: others)
  | gone {tree : Tree m α} {trees others : List (Tree m α)} :
      context.ask tree.isOpen = false → SeenAlike whole trees others →
      SeenAlike whole (tree :: trees) others
  | node {chain : Option (Chain α)} {expansion : Option String} {handlers : Handlers m α}
      {children below trees others : List (Tree m α)} :
      (whole → children.isEmpty = below.isEmpty) → SeenAlike whole children below →
      SeenAlike whole trees others →
      SeenAlike whole (⟨chain, expansion, handlers, children⟩ :: trees)
        (⟨chain, expansion, handlers, below⟩ :: others)

variable {context}

/-- Two walks found the same, and both accepted words or neither did. -/
def SameFound (whole : Prop) (x y : Outcome m α × Bool) : Prop :=
  x.1.Same whole y.1 ∧ x.2 = y.2

theorem same_leftover {tree : Tree m α} (hreads : ReadsOnly context tree) {whole : Prop}
    {a b : Outcome m α} (h : a.Same whole b) (line : Line) (standing : Standing m α)
    (accepted : Bool) :
    SameFound whole (context.ask (tree.leftover a line standing accepted))
      (context.ask (tree.leftover b line standing accepted)) := by
  rw [ask_leftover context hreads a, ask_leftover context hreads b]
  exact ⟨h.append (.refl _ _), rfl⟩

-- two nodes that meet a line alike go on alike if their children do
theorem same_proceed {whole : Prop} {chain : Option (Chain α)} {expansion : Option String}
    {handlers : Handlers m α} {children below : List (Tree m α)}
    (hempty : whole → children.isEmpty = below.isEmpty)
    (htree : (⟨chain, expansion, handlers, children⟩ : Tree m α).Every (ReadsOnly context))
    (hother : (⟨chain, expansion, handlers, below⟩ : Tree m α).Every (ReadsOnly context))
    (hbelow : ∀ line (standing : Standing m α),
      SameFound whole (context.ask (walkAll line standing children))
        (context.ask (walkAll line standing below)))
    (line : Line) (standing : Standing m α) :
    SameFound whole
      (context.ask (proceed ⟨chain, expansion, handlers, children⟩ line standing))
      (context.ask (proceed ⟨chain, expansion, handlers, below⟩ line standing)) := by
  have harrive : (arrive ⟨chain, expansion, handlers, children⟩ line standing).Same whole
      (arrive ⟨chain, expansion, handlers, below⟩ line standing) :=
    same_arrive hempty line standing
  generalize hfirst : arrive ⟨chain, expansion, handlers, children⟩ line standing = first
    at harrive
  generalize hsecond : arrive ⟨chain, expansion, handlers, below⟩ line standing = second
    at harrive
  cases harrive with
  | refused found accepted =>
      rw [ask_proceed_of_refused context hfirst, ask_proceed_of_refused context hsecond]
      exact ⟨.refl _ _, rfl⟩
  | @entered a b behind handed hfound =>
      obtain ⟨hall, haccepted⟩ := hbelow behind handed
      rw [ask_proceed_of_entered context htree hfirst,
        ask_proceed_of_entered context hother hsecond]
      dsimp only
      rw [haccepted]
      split
      · exact ⟨hfound.append hall, rfl⟩
      · exact same_leftover hother.root (hfound.append hall) behind handed _

/-- Nodes that are seen alike are walked alike. -/
theorem same_walkAll {whole : Prop} {trees others : List (Tree m α)}
    (h : SeenAlike context whole trees others)
    (htrees : ∀ tree ∈ trees, tree.Every (ReadsOnly context))
    (hothers : ∀ other ∈ others, other.Every (ReadsOnly context)) :
    ∀ line (standing : Standing m α),
      SameFound whole (context.ask (walkAll line standing trees))
        (context.ask (walkAll line standing others)) := by
  induction h with
  | nil => exact fun line standing => ⟨.refl _ _, rfl⟩
  | closed htree hother _ ih =>
      intro line standing
      obtain ⟨hreads, hrest⟩ := List.forall_mem_cons.1 htrees
      obtain ⟨hreads', hrest'⟩ := List.forall_mem_cons.1 hothers
      rw [ask_walkAll_cons context htrees, ask_walkAll_cons context hothers,
        ask_walk_of_closed context hreads htree, ask_walk_of_closed context hreads' hother]
      simpa using ih hrest hrest' line standing
  | gone htree _ ih =>
      intro line standing
      obtain ⟨hreads, hrest⟩ := List.forall_mem_cons.1 htrees
      rw [ask_walkAll_cons context htrees, ask_walk_of_closed context hreads htree]
      simpa using ih hrest hothers line standing
  | @node chain expansion handlers children below trees others hempty _ _ ihBelow ihRest =>
      intro line standing
      obtain ⟨hreads, hrest⟩ := List.forall_mem_cons.1 htrees
      obtain ⟨hreads', hrest'⟩ := List.forall_mem_cons.1 hothers
      have hwalk : SameFound whole
          (context.ask (walk line standing ⟨chain, expansion, handlers, children⟩))
          (context.ask (walk line standing ⟨chain, expansion, handlers, below⟩)) := by
        by_cases hopen : context.ask (isOpen ⟨chain, expansion, handlers, children⟩) = true
        · rw [ask_walk_of_open context hreads hopen, ask_walk_of_open context hreads' hopen]
          exact same_proceed hempty hreads hreads' (ihBelow (fun _ hchild => hreads.child hchild)
            fun _ hchild => hreads'.child hchild) line standing
        · have hclosed := eq_false_of_ne_true hopen
          rw [ask_walk_of_closed context hreads hclosed,
            ask_walk_of_closed context hreads' hclosed]
          exact ⟨.refl _ _, rfl⟩
      have hothersWalk := ihRest hrest hrest' line standing
      rw [ask_walkAll_cons context htrees, ask_walkAll_cons context hothers]
      exact ⟨hwalk.1.append hothersWalk.1, congrArg₂ (· || ·) hwalk.2 hothersWalk.2⟩

theorem same_parse {whole : Prop} {tree other : Tree m α}
    (h : SeenAlike context whole [tree] [other]) (htree : tree.Every (ReadsOnly context))
    (hother : other.Every (ReadsOnly context)) (line : Line) :
    (context.ask (tree.parse line)).Same whole (context.ask (other.parse line)) := by
  have hsingle : ∀ {tree : Tree m α}, tree.Every (ReadsOnly context) →
      (context.ask (walkAll line {} [tree])).1 = context.ask (tree.parse line) := by
    intro tree htree
    rw [ask_walkAll_cons context (List.forall_mem_singleton.2 htree), ask_walkAll_nil,
      ask_parse context htree]
    exact Outcome.append_empty _
  rw [← hsingle htree, ← hsingle hother]
  exact (same_walkAll h (List.forall_mem_singleton.2 htree) (List.forall_mem_singleton.2 hother)
    line {}).1

-- =============================================================== pruning

variable (context)

mutual

/-- The tree without the closed nodes below its root. -/
def pruned : Tree m α → Tree m α
  | ⟨chain, expansion, handlers, children⟩ => ⟨chain, expansion, handlers, prunedAll children⟩

/-- The open ones of several nodes, each without the closed nodes below it. -/
def prunedAll : List (Tree m α) → List (Tree m α)
  | [] => []
  | tree :: rest =>
      if context.ask tree.isOpen then pruned tree :: prunedAll rest else prunedAll rest

end

theorem prunedAll_eq (trees : List (Tree m α)) :
    prunedAll context trees
      = (trees.filter fun tree => context.ask tree.isOpen).map (pruned context) := by
  induction trees with
  | nil => rw [prunedAll]; rfl
  | cons tree rest ih =>
      rw [prunedAll, ih, List.filter_cons]
      split <;> rfl

theorem pruned_eq (tree : Tree m α) :
    tree.pruned context
      = { tree with children :=
          (tree.children.filter fun child => context.ask child.isOpen).map (pruned context) } := by
  cases tree
  rw [pruned, prunedAll_eq]

theorem every_pruned {tree : Tree m α} (h : tree.Every (ReadsOnly context)) :
    (tree.pruned context).Every (ReadsOnly context) := by
  induction tree using Tree.induction with
  | node tree ih =>
      rw [pruned_eq]
      refine every_iff.2 ⟨⟨h.root.guard, h.root.fallback⟩, fun child hchild => ?_⟩
      obtain ⟨original, horiginal, rfl⟩ := List.mem_map.1 hchild
      have hmem := (List.mem_filter.1 horiginal).1
      exact ih original hmem (h.child hmem)

/-- The way down to a child that is open. -/
def OpenChild (tree child : Tree m α) : Prop :=
  child ∈ tree.children ∧ context.ask child.isOpen = true

/-- Pruning leaves no node without children that has some: of the nodes
that remain, each one with children has an open one. -/
def KeepsChildren (tree : Tree m α) : Prop :=
  ∀ node, ReflTransGen (OpenChild context) tree node → node.children ≠ [] →
    ∃ child ∈ node.children, context.ask child.isOpen = true

variable {context}

theorem keepsChildren_iff {tree : Tree m α} :
    tree.KeepsChildren context
      ↔ (tree.children ≠ [] → ∃ child ∈ tree.children, context.ask child.isOpen = true)
        ∧ ∀ child ∈ tree.children, context.ask child.isOpen = true →
          child.KeepsChildren context := by
  constructor
  · exact fun h => ⟨h tree .refl, fun child hchild hopen node hnode =>
      h node (.head ⟨hchild, hopen⟩ hnode)⟩
  · rintro ⟨here, below⟩ node hnode
    cases hnode.cases_head with
    | inl heq => exact heq ▸ here
    | inr hstep =>
        obtain ⟨child, ⟨hchild, hopen⟩, hnode⟩ := hstep
        exact below child hchild hopen node hnode

theorem KeepsChildren.isEmpty_eq {tree : Tree m α} (h : tree.KeepsChildren context) :
    tree.children.isEmpty = (tree.pruned context).children.isEmpty := by
  rw [pruned_eq]
  by_cases hnil : tree.children = []
  · simp [hnil]
  · obtain ⟨child, hchild, hopen⟩ := (keepsChildren_iff.1 h).1 hnil
    rw [List.isEmpty_eq_false_iff.2 hnil, eq_comm, List.isEmpty_eq_false_iff, Ne,
      List.map_eq_nil_iff, List.filter_eq_nil_iff]
    exact fun hnone => hnone child hchild hopen

/-- A pruned tree is seen as the tree is. -/
theorem seenAlike_pruned {whole : Prop} {tree : Tree m α}
    (hwhole : whole → tree.KeepsChildren context) {trees others : List (Tree m α)}
    (h : SeenAlike context whole trees others) :
    SeenAlike context whole (tree :: trees) (tree.pruned context :: others) := by
  induction tree using Tree.induction generalizing trees others with
  | node tree ih =>
      have hbelow : ∀ children ⊆ tree.children,
          SeenAlike context whole children (prunedAll context children) := by
        intro children
        induction children with
        | nil => exact fun _ => by rw [prunedAll]; exact .nil
        | cons child rest ihRest =>
            intro hsub
            have hrest := ihRest (List.subset_of_cons_subset hsub)
            have hchild := hsub (List.mem_cons_self ..)
            rw [prunedAll]
            by_cases hopen : context.ask child.isOpen = true
            · rw [if_pos hopen]
              exact ih child hchild
                (fun hw => (keepsChildren_iff.1 (hwhole hw)).2 child hchild hopen) hrest
            · rw [if_neg hopen]
              exact .gone (eq_false_of_ne_true hopen) hrest
      obtain ⟨chain, expansion, handlers, children⟩ := tree
      rw [pruned]
      refine .node (fun hw => ?_) (hbelow children (List.Subset.refl _)) h
      have hempty := (hwhole hw).isEmpty_eq
      rwa [pruned] at hempty

/-- What lies behind closed guards cannot be seen. Without the closed nodes
below its root a tree finds the same, except that a node which loses its
last child may let suggestions be shown; and two trees that differ in closed
nodes only find the same. -/
theorem parse_pruned {tree : Tree m α} (hreads : tree.Every (ReadsOnly context)) (line : Line) :
    let outcome := context.ask (tree.parse line)
    let outcome' := context.ask ((tree.pruned context).parse line)
    outcome'.execution = outcome.execution ∧ outcome'.reporting = outcome.reporting
      ∧ outcome'.refusals = outcome.refusals ∧ outcome'.suggestions = outcome.suggestions
      ∧ (tree.KeepsChildren context → outcome'.completion = outcome.completion)
      ∧ ∀ other : Tree m α, other.Every (ReadsOnly context) →
          SeenAlike context True [tree] [other] → context.ask (other.parse line) = outcome := by
  intro outcome outcome'
  have hsame := same_parse (seenAlike_pruned id .nil) hreads (every_pruned context hreads) line
  refine ⟨hsame.execution.symm, hsame.reporting.symm, hsame.refusals.symm,
    hsame.suggestions.symm, fun hkeeps => (hsame.completion hkeeps).symm, ?_⟩
  intro other hother h
  exact (Outcome.eq_of_same (same_parse h hreads hother line)).symm

end Guards

/-- A door to open and, behind a guard, something else. Words that nobody
takes are left to a fallback. -/
def entrance (hidden : Tree (ReaderM Bool) Unit) : Tree (ReaderM Bool) Unit :=
  let chain (spec : String) : Chain Unit := (Chain.ofSpec .standard spec).toOption.getD ⟨[]⟩
  { handlers :=
      { fallback := some fun pending _ =>
          { refusals := [⟨0, .unknownCommand pending.line.current⟩] } }
    children :=
      [{ chain := some (chain "open")
         children :=
          [{ handlers := { guard := some fun isOpen => isOpen }, children := [hidden] },
           { chain := some (chain "door")
             handlers := { execute := some fun _ => pure (.ok ()) } }] }] }

/-- Something else to open. -/
def vault : Tree (ReaderM Bool) Unit :=
  { chain := some ((Chain.ofSpec .standard "vault").toOption.getD ⟨[]⟩)
    handlers := { execute := some fun _ => pure (.ok ()) } }

/-- Behind the closed guard it is not seen, behind the open one it is. -/
theorem entrance_parse_pruned :
    let context := Context.reader false
    let line : Line := .ofWords ["open", "vault"]
    let outcome := context.ask ((entrance vault).parse line)
    let outcome' := context.ask (((entrance vault).pruned context).parse line)
    (entrance vault).Every (ReadsOnly context) ∧ (entrance vault).KeepsChildren context
      ∧ outcome'.refusals = outcome.refusals ∧ outcome'.completion = outcome.completion
      ∧ outcome.refusals = [⟨1, .invalidOption "vault" ["door"]⟩, ⟨1, .unexpectedInput "vault"⟩]
      ∧ SeenAlike context True [entrance vault] [entrance {}]
      ∧ context.ask ((entrance {}).parse line) = outcome
      ∧ outcome.execution.isSome = false
      ∧ ((Context.reader true).ask ((entrance vault).parse line)).execution.isSome = true := by
  intro context line outcome outcome'
  have hreads : ∀ tree : Tree (ReaderM Bool) Unit, tree.Every (ReadsOnly context) :=
    fun tree _ _ _ => ⟨fun _ _ => trivial, fun _ _ _ => trivial⟩
  have hkeeps : (entrance vault).KeepsChildren context := by
    refine keepsChildren_iff.2 ⟨fun _ => ⟨_, List.mem_singleton_self _, rfl⟩, ?_⟩
    refine List.forall_mem_singleton.2 fun _ => keepsChildren_iff.2 ⟨fun _ => ?_, ?_⟩
    · exact ⟨_, List.mem_cons_of_mem _ (List.mem_singleton_self _), rfl⟩
    · refine List.forall_mem_cons.2 ⟨nofun, List.forall_mem_singleton.2 fun _ => ?_⟩
      exact keepsChildren_iff.2 ⟨fun hnil => absurd rfl hnil, List.forall_mem_nil _⟩
  have halike : SeenAlike context True [entrance vault] [entrance {}] := by
    refine .node (fun _ => rfl) (.node (fun _ => rfl) ?_ .nil) .nil
    exact .closed rfl rfl (.node (fun _ => rfl) .nil .nil)
  obtain ⟨-, -, hrefusals, -, hcompletion, hother⟩ := parse_pruned (hreads (entrance vault)) line
  exact ⟨hreads _, hkeeps, hrefusals, hcompletion hkeeps, by decide +kernel, halike,
    hother _ (hreads _) halike, by decide +kernel, by decide +kernel⟩

end Tree

end CommandGrammar
