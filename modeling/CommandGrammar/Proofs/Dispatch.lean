/-
A line is never passed over in silence. Matching it ends with something
to execute or with a refusal, so executing what was found calls a handler
or says what was wrong, and never has nothing to say.

A node tells its children's silence apart from their consent: words that
no child accepted are refused at the node, or are its fallback's to
answer for. So the walk is sound if whatever accepts words also answers
for them, and `answers_walk` proves both at once: an open node answers,
and so does every node that accepts. A closed node does neither.
-/
import CommandGrammar.Proofs.Outcome
import CommandGrammar.Proofs.Tree.Walk
import CommandGrammar.Catalog

namespace CommandGrammar

variable {m : Type → Type} {α : Type}

-- ============================================================== outcomes

namespace Outcome

/-- There is something to execute, or a refusal. -/
def Answers (outcome : Outcome m α) : Prop :=
  outcome.execution.isSome ∨ outcome.refusals ≠ []

theorem answers_append {a b : Outcome m α} (h : a.Answers ∨ b.Answers) : (a ++ b).Answers := by
  unfold Answers at *
  rw [execution_append, Weighted.isSome_heavier, Bool.or_eq_true, refusals_append, Ne,
    List.append_eq_nil_iff, not_and_or]
  rcases h with (h | h) | h | h
  · exact Or.inl (Or.inl h)
  · exact Or.inr (Or.inl h)
  · exact Or.inl (Or.inr h)
  · exact Or.inr (Or.inr h)

theorem answers_offset {outcome : Outcome m α} (h : outcome.Answers) (words : Nat) :
    (outcome.offset words).Answers := by
  unfold Answers offset
  rw [Option.isSome_map, Ne, List.map_eq_nil_iff]
  exact h

theorem answers_ofRefusal (refusal : Refusal) (weight : Nat) (handler : Option (ReportHandler m))
    (input : String) : (ofRefusal refusal weight handler input : Outcome m α).Answers :=
  Or.inr (List.cons_ne_nil _ _)

/-- A handler's answer is its own, not a want of handlers. -/
theorem ofHandler_ne (answer : Except String Unit) : ofHandler answer ≠ .error .notExecutable := by
  rcases answer with message | ⟨⟩
  · intro h
    injection h with h
    cases h
  · intro h
    cases h

/-- Executing an outcome that answers calls a handler or names a refusal. -/
theorem execute_ne {σ : Type} {outcome : Outcome (StateM σ) α} (h : outcome.Answers) (s : σ) :
    (outcome.execute s).1 ≠ .error .notExecutable := by
  unfold execute
  rcases hexecution : outcome.execution with - | found
  · rcases outcome.reporting with - | found
    · rcases h with h | h
      · rw [hexecution] at h
        cases h
      · rcases hbest : outcome.bestRefusal with - | best
        · exact absurd (Weighted.heaviest_eq_none_iff.1 hbest) h
        · intro h
          injection h with h
          cases h
    · exact ofHandler_ne
        (found.item.handler ⟨found.item.refusal, found.weight, found.item.input⟩ s).1
  · exact ofHandler_ne (found.item.handler found.item.arguments s).1

end Outcome

-- ============================================================== one node

namespace Tree

/-- A meeting answers, unless the node is entered and words are left. -/
def Arrival.Answers : Arrival m α → Prop
  | .refused outcome _ => outcome.Answers
  | .entered outcome line _ => line.isEnd = true → outcome.Answers

/-- The end of a line is executed or asks for more. -/
theorem answers_atEnd (tree : Tree m α) (line : Line) (standing : Standing m α) :
    (tree.atEnd line standing).Answers := by
  refine Outcome.answers_append (Or.inl ?_)
  split
  · exact Or.inl rfl
  · exact Outcome.answers_ofRefusal _ _ _ _

theorem answers_enter (tree : Tree m α) (found : Outcome m α) (line : Line)
    (standing : Standing m α) : (tree.enter found line standing).Answers := by
  intro hend
  rw [if_pos hend]
  exact Outcome.answers_append (Or.inr (answers_atEnd tree _ standing))

theorem answers_arrive (tree : Tree m α) (line : Line) (standing : Standing m α) :
    (tree.arrive line standing).Answers := by
  unfold arrive
  dsimp only
  split
  · exact answers_enter tree _ _ _
  · split
    · exact answers_enter tree _ _ _
    · exact Outcome.answers_append (Or.inr (Outcome.answers_ofRefusal _ _ _ _))

-- ============================================================== the walk

section Walk

variable [Monad m] (context : Context m)

/-- What a fallback takes over it answers for. -/
def FallbackAnswers (node : Tree m α) : Prop :=
  ∀ fallback, node.handlers.fallback = some fallback →
    ∀ pending, (context.ask (fallback pending)).Answers

/-- Words that no child accepted are answered for at the node. -/
theorem answers_leftover {node : Tree m α} (hreads : ReadsOnly context node)
    (hfallback : node.FallbackAnswers context) {found : Outcome m α} {line : Line}
    (hfound : line.isEnd = true → found.Answers) (standing : Standing m α) (accepted : Bool) :
    (context.ask (node.leftover found line standing accepted)).1.Answers := by
  unfold leftover
  cases hnode : node.handlers.fallback with
  | none =>
      dsimp only
      split <;> rw [context.ask_pure]
      case isTrue hend => exact hfound hend
      case isFalse => exact Outcome.answers_append (Or.inr (Outcome.answers_ofRefusal _ _ _ _))
  | some fallback =>
      dsimp only
      split
      case isTrue =>
        rw [context.ask_bind (hreads.fallback fallback hnode _), context.ask_pure]
        · exact Outcome.answers_append
            (Or.inr (Outcome.answers_offset (hfallback fallback hnode _) _))
        · exact context.reads_pure _
      case isFalse hdone =>
        rw [context.ask_pure]
        refine hfound ?_
        rw [Bool.or_eq_true, not_or, Bool.not_eq_true, Bool.not_eq_false'] at hdone
        exact hdone.1

variable {context}

/-- Nodes of which one accepts answer together, if each that accepts
does. -/
theorem answers_walkAll {line : Line} {standing : Standing m α} {trees : List (Tree m α)}
    (hreads : ∀ tree ∈ trees, tree.Every (ReadsOnly context))
    (h : ∀ tree ∈ trees, (context.ask (tree.walk line standing)).2 = true →
      (context.ask (tree.walk line standing)).1.Answers)
    (haccepted : (context.ask (walkAll line standing trees)).2 = true) :
    (context.ask (walkAll line standing trees)).1.Answers := by
  induction trees with
  | nil =>
      rw [ask_walkAll_nil] at haccepted
      cases haccepted
  | cons tree rest ih =>
      rw [ask_walkAll_cons context hreads] at haccepted ⊢
      rcases (Bool.or_eq_true _ _).mp haccepted with hfirst | hothers
      · exact Outcome.answers_append (Or.inl (h tree (List.mem_cons_self ..) hfirst))
      · refine Outcome.answers_append (Or.inr (ih ?_ ?_ hothers))
        · exact fun other hother => hreads other (List.mem_cons_of_mem _ hother)
        · exact fun other hother => h other (List.mem_cons_of_mem _ hother)

/-- The walk of an open node answers, and so does that of a node that
accepts words. -/
theorem answers_walk {tree : Tree m α} (hreads : tree.Every (ReadsOnly context))
    (hfallback : tree.Every (FallbackAnswers context)) (line : Line) (standing : Standing m α)
    (h : context.ask tree.isOpen = true ∨ (context.ask (tree.walk line standing)).2 = true) :
    (context.ask (tree.walk line standing)).1.Answers := by
  revert hfallback h
  refine ask_walk_induction context (motive := fun tree _ _ answer =>
    tree.Every (FallbackAnswers context) → context.ask tree.isOpen = true ∨ answer.2 = true →
      answer.1.Answers) ?closed ?refused ?entered hreads line standing
  case closed =>
    intro tree line standing hclosed _ h
    rw [hclosed] at h
    rcases h with h | h <;> cases h
  case refused =>
    intro tree line standing found accepted _ harrive _ _
    have harrives := answers_arrive tree line standing
    rwa [harrive] at harrives
  case entered =>
    intro tree line standing found behind handed hreads _ harrive ih hfallback _
    have harrives := answers_arrive tree line standing
    rw [harrive] at harrives
    split
    case isTrue haccepted =>
      refine Outcome.answers_append (Or.inr (answers_walkAll ?_ ?_ haccepted))
      · exact fun child hchild => hreads.child hchild
      · exact fun child hchild hchildAccepts =>
          ih child hchild (hfallback.child hchild) (Or.inr hchildAccepts)
    case isFalse =>
      exact answers_leftover context hreads.root hfallback.root
        (fun hend => Outcome.answers_append (Or.inl (harrives hend))) _ _

end Walk

-- ============================================================ whole trees

/-- A tree that answers for every line: its root is open, and every
fallback answers for what it takes over. -/
structure Answering [Monad m] (context : Context m) (tree : Tree m α) : Prop where
  /-- What its handlers do on the way leaves the context as it is. -/
  reads : tree.Every (ReadsOnly context)
  /-- The root's guard, if it has one, accepts the context. -/
  guard : ∀ guard, tree.handlers.guard = some guard → context.ask guard = true
  /-- Every fallback answers with something to execute or a refusal. -/
  fallback : tree.Every (FallbackAnswers context)

theorem answers_parse [Monad m] {context : Context m} {tree : Tree m α}
    (h : tree.Answering context) (line : Line) :
    (context.ask (tree.parse line)).Answers := by
  rw [ask_parse context h.reads]
  exact answers_walk h.reads h.fallback line {} (Or.inl ((ask_isOpen context tree).2 h.guard))

end Tree

-- ============================================================== dispatch

/-- A name that is not known is answered for, too. -/
theorem Catalog.answers_parse [Monad m] {context : Context m} {catalog : Catalog m α}
    (h : ∀ command ∈ catalog.commands, command.tree.Answering context) (input : String) :
    (context.ask (catalog.parse input)).Answers := by
  unfold parse
  dsimp only
  split
  · next tree htree =>
    obtain ⟨command, hcommand, rfl⟩ := Option.map_eq_some_iff.1 htree
    exact Tree.answers_parse (h command (List.mem_of_find?_eq_some hcommand)) _
  · rw [context.ask_pure]
    exact Or.inr (List.cons_ne_nil _ _)

/-- Matching any line against a tree leaves something to execute or a
refusal, if its root is open and its fallbacks do. Executing such an
outcome never finds that there is nothing to execute, and neither does
dispatching any text to a catalog of such trees. -/
theorem dispatch_answers {α : Type} :
    (∀ {m : Type → Type} [Monad m] (context : Context m) (tree : Tree m α),
        tree.Answering context → ∀ line : Line,
          (context.ask (tree.parse line)).execution.isSome
            ∨ (context.ask (tree.parse line)).refusals ≠ [])
      ∧ (∀ {σ : Type} (outcome : Outcome (StateM σ) α),
          outcome.execution.isSome ∨ outcome.refusals ≠ [] →
          ∀ s, (outcome.execute s).1 ≠ .error .notExecutable)
      ∧ ∀ {σ : Type} (Holds : σ → Prop) (s : σ) (hs : Holds s) (catalog : Catalog (StateM σ) α),
          (∀ command ∈ catalog.commands, command.tree.Answering (.state Holds s hs)) →
          ∀ input : String, (catalog.dispatch input s).1 ≠ .error .notExecutable := by
  refine ⟨fun context tree h line => Tree.answers_parse h line,
    fun outcome h s => Outcome.execute_ne h s, fun Holds s hs catalog h input => ?_⟩
  have hanswers : ((Context.state Holds s hs).ask (catalog.parse input)).Answers :=
    Catalog.answers_parse h input
  exact Outcome.execute_ne hanswers _

/-- A tree behind a guard that reads the state. It knows one word, and its
fallback takes over any other with a handler that fails. -/
def gated : Tree (StateM Bool) Unit :=
  let listed : Argument Unit :=
    { node := ⟨"list", ∅⟩, reader := (Choice.literal ⟨"list", ∅⟩).reader, required := true
      preset := none, suppressed := false, switch := none }
  { handlers :=
      { guard := some fun s => (s, s)
        fallback := some fun pending => pure <|
          .ofExecution (fun _ => pure (.error ("no " ++ pending.line.current))) [] 0 }
    children := [{ chain := some ⟨[listed]⟩ }] }

/-- Its words, a word that the fallback takes over, and the name of no
command are all answered for. -/
theorem gated_dispatch_answers :
    let context := Context.state (fun s : Bool => s = true) true rfl
    let catalog : Catalog (StateM Bool) Unit := ⟨[{ names := ["run"], tree := gated }]⟩
    gated.Answering context
      ∧ (context.ask (gated.parse (.ofWords ["list"]))).Answers
      ∧ (catalog.dispatch "run all" true).1 ≠ .error .notExecutable
      ∧ (catalog.dispatch "run list" true).1 = .error (.refused .inputExpected)
      ∧ (catalog.dispatch "run all" true).1 = .error (.handler "no all")
      ∧ (catalog.dispatch "all" true).1 = .error (.refused (.unknownCommand "all")) := by
  intro context catalog
  have hnodes : gated.Every fun node =>
      node.ReadsOnly context ∧ node.FallbackAnswers context := by
    refine Tree.every_iff.2 ⟨⟨⟨?_, ?_⟩, ?_⟩, List.forall_mem_singleton.2 ?_⟩
    · rintro guard ⟨⟩ s hs
      exact ⟨hs, hs⟩
    · rintro fallback ⟨⟩ pending s hs
      exact ⟨rfl, hs⟩
    · rintro fallback ⟨⟩ pending
      exact Or.inl rfl
    · refine Tree.every_iff.2 ⟨⟨Tree.readsOnly_of_none context rfl rfl, ?_⟩, List.forall_mem_nil _⟩
      rintro fallback ⟨⟩
  have hgated : gated.Answering context := by
    refine ⟨hnodes.imp fun _ hnode => hnode.1, ?_, hnodes.imp fun _ hnode => hnode.2⟩
    rintro guard ⟨⟩
    rfl
  refine ⟨hgated, dispatch_answers.1 context gated hgated _, ?_, by decide +kernel,
    by decide +kernel, by decide +kernel⟩
  exact dispatch_answers.2.2 (fun s => s = true) true rfl catalog
    (List.forall_mem_singleton.2 hgated) "run all"

end CommandGrammar
