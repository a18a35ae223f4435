/-
The order of declaration counts on ties only. A walk merges what it finds
from the left to the right; so its outcome is made of a list of findings,
one or two for every node it enters (`walk_eq_join`), and to declare
children in another order permutes the list (`perm_findingsAll`).

How heavy the heaviest of a list is does not depend on the order of the
list, and which one it is only if several are that heavy. What a list is
strung together from does not depend on it either, up to the order.

Whether words are left over at a node depends on all of its children at
once, so the induction carries along that the children together accept
words in one order if they do in the other.
-/
import CommandGrammar.Proofs.Tree.Walk

namespace CommandGrammar

variable {m : Type → Type} {α : Type}

-- =============================================================== findings

namespace Outcome

/-- One outcome after another, of a whole list. -/
def join (findings : List (Outcome m α)) : Outcome m α :=
  findings.foldr (· ++ ·) ∅

@[simp] theorem join_nil : join ([] : List (Outcome m α)) = ∅ := rfl

@[simp] theorem join_cons (finding : Outcome m α) (rest : List (Outcome m α)) :
    join (finding :: rest) = finding ++ join rest := rfl

@[simp] theorem join_append (a b : List (Outcome m α)) : join (a ++ b) = join a ++ join b := by
  induction a with
  | nil => simp
  | cons finding rest ih => simp [ih, append_assoc]

/-- Of a candidate that merging decides by weight the heaviest is left. -/
theorem heaviest_join {β : Type} {candidate : Outcome m α → Option (Weighted β)}
    (hempty : candidate ∅ = none)
    (happend : ∀ a b, candidate (a ++ b) = Weighted.heavier (candidate a) (candidate b))
    (findings : List (Outcome m α)) :
    candidate (join findings) = Weighted.heaviest (findings.filterMap candidate) := by
  induction findings with
  | nil => exact hempty
  | cons finding rest ih =>
      rw [join_cons, happend, ih]
      cases h : candidate finding with
      | none => rw [List.filterMap_cons_none h, Weighted.heavier_none_left]
      | some found => rw [List.filterMap_cons_some h, Weighted.heaviest_cons]

theorem refusals_join (findings : List (Outcome m α)) :
    (join findings).refusals = findings.flatMap refusals := by
  induction findings with
  | nil => rfl
  | cons finding rest ih => simp [ih]

theorem suggestions_join (findings : List (Outcome m α)) :
    (join findings).suggestions = findings.flatMap suggestions := by
  induction findings with
  | nil => rfl
  | cons finding rest ih => simp [ih]

/-- Two outcomes hold candidates of the same weights, and the same refusals
and suggestions in any order. -/
structure SameWeights (a b : Outcome m α) : Prop where
  execution : a.execution.map Weighted.weight = b.execution.map Weighted.weight
  reporting : a.reporting.map Weighted.weight = b.reporting.map Weighted.weight
  completion : a.completion.map Weighted.weight = b.completion.map Weighted.weight
  bestRefusal : a.bestRefusal.map Weighted.weight = b.bestRefusal.map Weighted.weight
  refusals : a.refusals.Perm b.refusals
  suggestions : a.suggestions.Perm b.suggestions

theorem sameWeights_of_perm {findings others : List (Outcome m α)} (h : findings.Perm others) :
    (join findings).SameWeights (join others) := by
  have hweight : ∀ {β : Type} {candidate : Outcome m α → Option (Weighted β)},
      candidate ∅ = none →
      (∀ a b, candidate (a ++ b) = Weighted.heavier (candidate a) (candidate b)) →
      (candidate (join findings)).map Weighted.weight
        = (candidate (join others)).map Weighted.weight := by
    intro β candidate hempty happend
    rw [heaviest_join hempty happend, heaviest_join hempty happend]
    exact Weighted.weight_heaviest_of_perm (h.filterMap candidate)
  have hrefusals : (join findings).refusals.Perm (join others).refusals := by
    rw [refusals_join, refusals_join]
    exact h.flatMap_right _
  constructor
  · exact hweight execution_empty execution_append
  · exact hweight reporting_empty reporting_append
  · exact hweight completion_empty completion_append
  · exact Weighted.weight_heaviest_of_perm hrefusals
  · exact hrefusals
  · rw [suggestions_join, suggestions_join]
    exact h.flatMap_right _

end Outcome

namespace Tree

-- ============================================================ reordering

/-- Lists of nodes that are the same up to the order of nodes, at any
depth. -/
inductive Reordered : List (Tree m α) → List (Tree m α) → Prop
  | nil : Reordered [] []
  | node {chain : Option (Chain α)} {expansion : Option String} {handlers : Handlers m α}
      {children below trees others : List (Tree m α)} :
      Reordered children below → Reordered trees others →
      Reordered (⟨chain, expansion, handlers, children⟩ :: trees)
        (⟨chain, expansion, handlers, below⟩ :: others)
  | swap (a b : Tree m α) (trees : List (Tree m α)) : Reordered (a :: b :: trees) (b :: a :: trees)
  | trans {trees others more : List (Tree m α)} :
      Reordered trees others → Reordered others more → Reordered trees more

theorem Reordered.length_eq {trees others : List (Tree m α)} (h : Reordered trees others) :
    trees.length = others.length := by
  induction h with
  | nil => rfl
  | node _ _ _ ih => simp [ih]
  | swap a b trees => rfl
  | trans _ _ ih ih' => exact ih.trans ih'

theorem Reordered.isEmpty_eq {trees others : List (Tree m α)} (h : Reordered trees others) :
    trees.isEmpty = others.isEmpty := by
  rw [Bool.eq_iff_iff, List.isEmpty_iff_length_eq_zero, List.isEmpty_iff_length_eq_zero,
    h.length_eq]

-- of its children it matters to a node only whether there are any
theorem arrive_of_isEmpty_eq {chain : Option (Chain α)} {expansion : Option String}
    {handlers : Handlers m α} {children below : List (Tree m α)}
    (h : children.isEmpty = below.isEmpty) (line : Line) (standing : Standing m α) :
    arrive ⟨chain, expansion, handlers, children⟩ line standing
      = arrive ⟨chain, expansion, handlers, below⟩ line standing := by
  simp only [arrive, enter, atEnd, h]

-- =============================================================== the walk

section Findings

variable [Monad m] (context : Context m)

mutual

/-- What a walk finds at a node and below, piece by piece: what the node
finds where it meets the line, what its children find, and, if none of
these accepts words, what becomes of the words left over. -/
def findings (line : Line) (standing : Standing m α) : Tree m α → List (Outcome m α)
  | ⟨chain, expansion, handlers, children⟩ =>
      let tree : Tree m α := ⟨chain, expansion, handlers, children⟩
      if context.ask tree.isOpen then
        match tree.arrive line standing with
        | .refused found _ => [found]
        | .entered found behind handed =>
            found :: (findingsAll behind handed children ++
              if (context.ask (walkAll behind handed children)).2 then []
              else [(context.ask (tree.leftover ∅ behind handed false)).1])
      else []

/-- What the walks of several nodes find. -/
def findingsAll (line : Line) (standing : Standing m α) :
    List (Tree m α) → List (Outcome m α)
  | [] => []
  | tree :: rest => findings line standing tree ++ findingsAll line standing rest

end

variable {context}

theorem findings_of_closed {tree : Tree m α} (hclosed : context.ask tree.isOpen = false)
    (line : Line) (standing : Standing m α) : tree.findings context line standing = [] := by
  cases tree
  rw [findings, if_neg (by simp [hclosed])]

theorem findings_of_refused {tree : Tree m α} (hopen : context.ask tree.isOpen = true)
    {line : Line} {standing : Standing m α} {found : Outcome m α} {accepted : Bool}
    (harrive : tree.arrive line standing = .refused found accepted) :
    tree.findings context line standing = [found] := by
  cases tree
  rw [findings, if_pos hopen, harrive]

theorem findings_of_entered {tree : Tree m α} (hopen : context.ask tree.isOpen = true)
    {line behind : Line} {standing handed : Standing m α} {found : Outcome m α}
    (harrive : tree.arrive line standing = .entered found behind handed) :
    tree.findings context line standing
      = found :: (findingsAll context behind handed tree.children ++
          if (context.ask (walkAll behind handed tree.children)).2 then []
          else [(context.ask (tree.leftover ∅ behind handed false)).1]) := by
  cases tree
  rw [findings, if_pos hopen, harrive]

/-- A walk merges its findings. -/
theorem walk_eq_join {tree : Tree m α} (hreads : tree.Every (ReadsOnly context)) :
    ∀ (line : Line) (standing : Standing m α),
      (context.ask (tree.walk line standing)).1
        = Outcome.join (tree.findings context line standing) := by
  induction tree using Tree.induction with
  | node tree ih =>
      intro line standing
      by_cases hopen : context.ask tree.isOpen = true
      case neg =>
        have hclosed := eq_false_of_ne_true hopen
        rw [ask_walk_of_closed context hreads hclosed, findings_of_closed hclosed]
        rfl
      rw [ask_walk_of_open context hreads hopen]
      cases harrive : tree.arrive line standing with
      | refused found accepted =>
          rw [ask_proceed_of_refused context harrive, findings_of_refused hopen harrive]
          simp
      | entered found behind handed =>
          have hbelow : ∀ children ⊆ tree.children,
              (context.ask (walkAll behind handed children)).1
                = Outcome.join (findingsAll context behind handed children) := by
            intro children
            induction children with
            | nil => simp [ask_walkAll_nil, findingsAll]
            | cons child rest ihRest =>
                intro hsub
                have hchild := hsub (List.mem_cons_self ..)
                rw [ask_walkAll_cons context fun other hother => hreads.child (hsub hother),
                  findingsAll, Outcome.join_append, ih child hchild (hreads.child hchild),
                  ihRest (List.subset_of_cons_subset hsub)]
          rw [ask_proceed_of_entered context hreads harrive, findings_of_entered hopen harrive,
            Outcome.join_cons, Outcome.join_append, ← hbelow _ (List.Subset.refl _)]
          split
          · simp
          · rw [ask_leftover context hreads.root]
            simp [Outcome.append_assoc]

theorem Reordered.every {trees others : List (Tree m α)} (h : Reordered trees others)
    (hreads : ∀ tree ∈ trees, tree.Every (ReadsOnly context)) :
    ∀ other ∈ others, other.Every (ReadsOnly context) := by
  induction h with
  | nil => exact hreads
  | node _ _ ihBelow ihRest =>
      obtain ⟨hnode, hrest⟩ := List.forall_mem_cons.1 hreads
      refine List.forall_mem_cons.2 ⟨every_iff.2 ⟨?_, ?_⟩, ihRest hrest⟩
      · exact ⟨hnode.root.guard, hnode.root.fallback⟩
      · exact ihBelow fun child hchild => hnode.child hchild
  | swap a b trees =>
      intro other hother
      apply hreads other
      exact (List.Perm.swap a b trees).subset hother
  | trans _ _ ih ih' => exact ih' (ih hreads)

-- ======================================================= the induction

section Node

variable {chain : Option (Chain α)} {expansion : Option String} {handlers : Handlers m α}
  {children below : List (Tree m α)}

/-- A walk of one node with its children in two orders finds the same, if
the walks of the children do, and accepts words in both or in neither. -/
theorem perm_findings_node (hempty : children.isEmpty = below.isEmpty)
    (htree : (⟨chain, expansion, handlers, children⟩ : Tree m α).Every (ReadsOnly context))
    (hother : (⟨chain, expansion, handlers, below⟩ : Tree m α).Every (ReadsOnly context))
    (hbelow : ∀ line (standing : Standing m α),
      (findingsAll context line standing children).Perm (findingsAll context line standing below)
        ∧ (context.ask (walkAll line standing children)).2
          = (context.ask (walkAll line standing below)).2)
    (line : Line) (standing : Standing m α) :
    (findings context line standing ⟨chain, expansion, handlers, children⟩).Perm
        (findings context line standing ⟨chain, expansion, handlers, below⟩)
      ∧ (context.ask (walk line standing ⟨chain, expansion, handlers, children⟩)).2
        = (context.ask (walk line standing ⟨chain, expansion, handlers, below⟩)).2 := by
  have harrives : arrive ⟨chain, expansion, handlers, children⟩ line standing
      = arrive ⟨chain, expansion, handlers, below⟩ line standing :=
    arrive_of_isEmpty_eq hempty line standing
  by_cases hopen : context.ask (isOpen ⟨chain, expansion, handlers, children⟩) = true
  case neg =>
    have hclosed := eq_false_of_ne_true hopen
    have hclosed' : context.ask (isOpen ⟨chain, expansion, handlers, below⟩) = false := hclosed
    rw [ask_walk_of_closed context htree hclosed, ask_walk_of_closed context hother hclosed',
      findings_of_closed hclosed, findings_of_closed hclosed']
    exact ⟨.refl _, rfl⟩
  have hopen' : context.ask (isOpen ⟨chain, expansion, handlers, below⟩) = true := hopen
  rw [ask_walk_of_open context htree hopen, ask_walk_of_open context hother hopen']
  cases harrive : arrive ⟨chain, expansion, handlers, children⟩ line standing with
  | refused found accepted =>
      have harrive' := harrives.symm.trans harrive
      rw [ask_proceed_of_refused context harrive, ask_proceed_of_refused context harrive',
        findings_of_refused hopen harrive, findings_of_refused hopen' harrive']
      exact ⟨.refl _, rfl⟩
  | entered found behind handed =>
      have harrive' := harrives.symm.trans harrive
      obtain ⟨hperm, haccepted⟩ := hbelow behind handed
      rw [ask_proceed_of_entered context htree harrive,
        ask_proceed_of_entered context hother harrive', findings_of_entered hopen harrive,
        findings_of_entered hopen' harrive']
      dsimp only
      rw [haccepted]
      constructor
      · exact (hperm.append_right _).cons found
      · split
        · rfl
        · rw [ask_leftover context htree.root, ask_leftover context hother.root]
          rfl

end Node

/-- Reordering permutes what is found, and leaves whether words are
accepted. -/
theorem perm_findingsAll {trees others : List (Tree m α)} (h : Reordered trees others)
    (hreads : ∀ tree ∈ trees, tree.Every (ReadsOnly context)) :
    ∀ line (standing : Standing m α),
      (findingsAll context line standing trees).Perm (findingsAll context line standing others)
        ∧ (context.ask (walkAll line standing trees)).2
          = (context.ask (walkAll line standing others)).2 := by
  induction h with
  | nil => exact fun line standing => ⟨.refl _, rfl⟩
  | @node chain expansion handlers children below trees others hbelow hrest ihBelow ihRest =>
      intro line standing
      have hothers := (Reordered.node hbelow hrest).every hreads
      obtain ⟨htree, htrees⟩ := List.forall_mem_cons.1 hreads
      obtain ⟨hperm, haccepted⟩ := perm_findings_node hbelow.isEmpty_eq htree
        (List.forall_mem_cons.1 hothers).1
        (ihBelow fun child hchild => htree.child hchild) line standing
      obtain ⟨hpermRest, hacceptedRest⟩ := ihRest htrees line standing
      rw [findingsAll, findingsAll, ask_walkAll_cons context hreads,
        ask_walkAll_cons context hothers]
      exact ⟨hperm.append hpermRest, congrArg₂ (· || ·) haccepted hacceptedRest⟩
  | swap a b trees =>
      intro line standing
      have hothers := (Reordered.swap a b trees).every hreads
      have hb := (List.forall_mem_cons.1 hreads).2
      have ha := (List.forall_mem_cons.1 hothers).2
      constructor
      · simp only [findingsAll]
        exact List.perm_append_comm_assoc _ _ _
      · rw [ask_walkAll_cons context hreads, ask_walkAll_cons context hb,
          ask_walkAll_cons context hothers, ask_walkAll_cons context ha]
        exact Bool.or_left_comm _ _ _
  | trans hfirst _ ih ih' =>
      intro line standing
      obtain ⟨hperm, haccepted⟩ := ih hreads line standing
      obtain ⟨hperm', haccepted'⟩ := ih' (hfirst.every hreads) line standing
      exact ⟨hperm.trans hperm', haccepted.trans haccepted'⟩

/-- Trees that are the same up to the order of children find candidates of
the same weights and the same refusals and suggestions up to their order. If
one of the ways to execute the line that are found anywhere is heavier than
all the others, both trees execute it. -/
theorem parse_reordered {tree other : Tree m α} (hreads : tree.Every (ReadsOnly context))
    (h : Reordered [tree] [other]) (line : Line) :
    let outcome := context.ask (tree.parse line)
    let outcome' := context.ask (other.parse line)
    outcome.SameWeights outcome'
      ∧ ∀ best others,
          ((tree.findings context line {}).filterMap Outcome.execution).Perm (best :: others) →
          (∀ execution ∈ others, execution.weight < best.weight) →
          outcome.execution = some best ∧ outcome'.execution = some best := by
  intro outcome outcome'
  have hother : other.Every (ReadsOnly context) :=
    h.every (List.forall_mem_singleton.2 hreads) other (List.mem_singleton_self _)
  have houtcome : outcome = Outcome.join (tree.findings context line {}) :=
    (ask_parse context hreads line).trans (walk_eq_join hreads line {})
  have houtcome' : outcome' = Outcome.join (other.findings context line {}) :=
    (ask_parse context hother line).trans (walk_eq_join hother line {})
  have hperm : (tree.findings context line {}).Perm (other.findings context line {}) := by
    have hall := (perm_findingsAll h (List.forall_mem_singleton.2 hreads) line {}).1
    simpa only [findingsAll, List.append_nil] using hall
  rw [houtcome, houtcome']
  refine ⟨Outcome.sameWeights_of_perm hperm, fun best others hbest hlighter => ?_⟩
  have hexecution := Outcome.heaviest_join (m := m) (α := α) Outcome.execution_empty
    Outcome.execution_append
  rw [hexecution, hexecution]
  constructor
  · exact Weighted.heaviest_eq_some_of_perm hbest hlighter
  · exact Weighted.heaviest_eq_some_of_perm ((hperm.filterMap _).symm.trans hbest) hlighter

end Findings

/-- A way to buy one thing, and another way with a word put in, behind which
others go on. -/
def bazaar (stalls : List (Tree (ReaderM Unit) Unit) → List (Tree (ReaderM Unit) Unit)) :
    Tree (ReaderM Unit) Unit :=
  let node (spec : String) : Tree (ReaderM Unit) Unit :=
    { chain := some ((Chain.ofSpec .standard spec).toOption.getD ⟨[]⟩)
      handlers := { execute := some fun _ => pure (.ok ()) } }
  { children := stalls
      [node "buy @string",
       { node "buy" with expansion := some "one"
                         children := stalls [node "one", node "one|two @string"] }] }

/-- In both orders the way with the word put in is the heavier one, and words
are left over once. -/
theorem bazaar_parse_reordered :
    let context := Context.reader ()
    let line : Line := .ofWords ["buy", "bread"]
    let outcome := context.ask ((bazaar id).parse line)
    let outcome' := context.ask ((bazaar List.reverse).parse line)
    (bazaar id).Every (ReadsOnly context) ∧ Reordered [bazaar id] [bazaar List.reverse]
      ∧ outcome.SameWeights outcome' ∧ outcome.refusals = [⟨2, .unexpectedInput "bread"⟩]
      ∧ ∃ best, outcome.execution = some best ∧ outcome'.execution = some best
        ∧ best.weight = 3 := by
  intro context line outcome outcome'
  have hreads : (bazaar id).Every (ReadsOnly context) :=
    fun _ _ _ => ⟨fun _ _ => trivial, fun _ _ _ => trivial⟩
  have hreordered : Reordered [bazaar id] [bazaar List.reverse] := by
    refine .node ?_ .nil
    refine .trans (.node .nil (.node (.swap _ _ []) .nil)) (.swap _ _ [])
  obtain ⟨hsame, hbest⟩ := parse_reordered hreads hreordered line
  have hweights : (((bazaar id).findings context line {}).filterMap Outcome.execution).map
      Weighted.weight = [2, 3] := by decide +kernel
  obtain ⟨lighter, rest, hcandidates, hlighter, hrest⟩ := List.map_eq_cons_iff.1 hweights
  obtain ⟨best, others, rfl, hweight, hnil⟩ := List.map_eq_cons_iff.1 hrest
  obtain rfl := List.map_eq_nil_iff.1 hnil
  have hperm : (((bazaar id).findings context line {}).filterMap Outcome.execution).Perm
      [best, lighter] := by
    rw [hcandidates]
    exact .swap _ _ []
  obtain ⟨hexecution, hexecution'⟩ := hbest best [lighter] hperm
    (List.forall_mem_singleton.2 (by omega))
  exact ⟨hreads, hreordered, hsame, by decide +kernel, best, hexecution, hexecution', hweight⟩

end Tree

end CommandGrammar
