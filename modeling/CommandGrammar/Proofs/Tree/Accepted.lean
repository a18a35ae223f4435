/-
What it means for the outcome that words were accepted. A node asks of its
children whether they accepted words, and of what its fallback finds whether
that outweighs the node: whether it holds an execution or a refusal heavier
than the words consumed up to the node. Of a tree without fallbacks these are
one question (`walk_accepts_iff`), so words are judged alike whether a tree gets
them as a child or behind a fallback.

If something outweighs the node then words were accepted
(`accepted_of_outweighs`), in any tree: a node that consumes no words finds
nothing heavier than its parent does, so there is a node below that consumed
some. If words were accepted then something outweighs the node
(`outweighs_of_accepted`), because behind the words something is always found:
where the line ends, what can be executed or that more is expected; where a
word is left, what a child finds that accepts it, or that nobody does. Here a
fallback makes a difference, since it may take the words and find nothing.
-/
import CommandGrammar.Proofs.Outcome.Merging
import CommandGrammar.Proofs.Tree.Meeting

namespace CommandGrammar

variable {m : Type → Type} {α : Type}

-- ============================================================ heavier finds

theorem Weighted.any_heavier {β : Type} (a b : Option (Weighted β)) (weight : Nat) :
    (heavier a b).any (weight < ·.weight)
      = (a.any (weight < ·.weight) || b.any (weight < ·.weight)) := by
  cases a with
  | none => rw [heavier_none_left, Option.any_none, Bool.false_or]
  | some a =>
      cases b with
      | none => rw [heavier_none_right, Option.any_none, Bool.or_false]
      | some b =>
          rw [heavier, Option.any_some, Option.any_some, ← Bool.decide_or]
          by_cases h : a.weight < b.weight
          · rw [if_pos h, Option.any_some]
            exact decide_eq_decide.2 (by omega)
          · rw [if_neg h, Option.any_some]
            exact decide_eq_decide.2 (by omega)

namespace Outcome

theorem outweighs_iff (outcome : Outcome m α) (weight : Nat) :
    outcome.outweighs weight = true
      ↔ (∃ execution, outcome.execution = some execution ∧ weight < execution.weight)
        ∨ ∃ refusal ∈ outcome.refusals, weight < refusal.weight := by
  simp [outweighs, Option.any_eq_true]

/-- Merged outcomes outweigh what one of them does. -/
theorem outweighs_append (a b : Outcome m α) (weight : Nat) :
    (a ++ b).outweighs weight = (a.outweighs weight || b.outweighs weight) := by
  unfold outweighs
  rw [execution_append, refusals_append, Weighted.any_heavier, List.any_append]
  ac_rfl

theorem outweighs_offset (outcome : Outcome m α) (weight words : Nat) :
    (outcome.offset words).outweighs (weight + words) = outcome.outweighs weight := by
  unfold outweighs offset
  cases outcome.execution <;> simp [Weighted.offset, Function.comp_def]

theorem outweighs_of_le {outcome : Outcome m α} {less weight : Nat} (hle : less ≤ weight)
    (h : outcome.outweighs weight = true) : outcome.outweighs less = true := by
  rw [outweighs_iff] at h ⊢
  obtain ⟨execution, hexecution, hlt⟩ | ⟨refusal, hrefusal, hlt⟩ := h
  · exact Or.inl ⟨execution, hexecution, Nat.lt_of_le_of_lt hle hlt⟩
  · exact Or.inr ⟨refusal, hrefusal, Nat.lt_of_le_of_lt hle hlt⟩

end Outcome

namespace Tree

-- ============================================================== one node

theorem outweighs_refusedAt (tree : Tree m α) (line : Line) (standing : Standing m α)
    (shortfall : Shortfall) :
    (tree.refusedAt line standing shortfall).outweighs standing.weight
      = decide (0 < shortfall.consumed) := by
  simp [Outcome.outweighs, execution_refusedAt, refusals_refusedAt]

/-- What a node finds of its own weighs as much as the words consumed up to and
with its chain. -/
theorem outweighs_foundAt (tree : Tree m α) (line : Line) (standing : Standing m α)
    (matched : Match α) (weight : Nat) :
    (tree.foundAt line standing matched).outweighs weight
      = ((tree.behind matched).isEnd
          && decide (weight < (tree.handedDown standing matched).weight)) := by
  unfold Outcome.outweighs
  rw [execution_foundAt, refusals_foundAt]
  cases (tree.behind matched).isEnd with
  | false => rfl
  | true =>
      unfold isExecutable
      cases tree.handlers.execute <;> simp

theorem outweighs_surplus (accepted : Bool) (line : Line) (standing : Standing m α)
    (weight : Nat) :
    (surplus accepted line standing).outweighs weight
      = (!accepted && !line.isEnd && decide (weight < standing.weight)) := by
  unfold Outcome.outweighs
  rw [execution_surplus, refusals_surplus]
  cases accepted <;> cases line.isEnd <;> simp

variable [Monad m] {context : Context m}

/-- Of what becomes of words that no child accepted, the weights say whether
they were accepted. -/
theorem accepted_leftover {tree : Tree m α} (h : ReadsOnly context tree) (line : Line)
    (standing : Standing m α) :
    let left := context.ask (tree.leftover ∅ line standing false)
    left.2 = left.1.outweighs standing.weight := by
  have hrefusal : ∀ (refusal : Refusal) (text : String),
      (Outcome.ofRefusal refusal standing.weight standing.report text : Outcome m α).outweighs
        standing.weight = false := by
    intro refusal text
    simp [Outcome.outweighs, Outcome.ofRefusal]
  unfold leftover
  cases hfallback : tree.handlers.fallback with
  | none =>
      dsimp only
      split
      · rw [context.ask_pure]
        rfl
      · rw [context.ask_pure, Outcome.empty_append, hrefusal]
  | some fallback =>
      have hreads := h.fallback fallback hfallback ⟨line, standing.bindings, standing.weight⟩
      dsimp only
      split
      · rw [context.ask_bind_pure hreads, Outcome.empty_append, Bool.false_or]
      · rw [context.ask_pure]
        rfl

-- ============================================================= whole trees

/-- Several nodes outweigh what one of them does, and accept words if one of
them does. -/
theorem judged_walkAll {line : Line} {standing : Standing m α} {trees : List (Tree m α)}
    (hreads : ∀ tree ∈ trees, tree.Every (ReadsOnly context)) (weight : Nat) :
    let found (tree : Tree m α) := context.ask (tree.walk line standing)
    (context.ask (walkAll line standing trees)).1.outweighs weight
        = trees.any (fun tree => (found tree).1.outweighs weight)
      ∧ (context.ask (walkAll line standing trees)).2 = trees.any fun tree => (found tree).2 := by
  intro found
  induction trees with
  | nil =>
      rw [ask_walkAll_nil]
      exact ⟨rfl, rfl⟩
  | cons tree rest ih =>
      obtain ⟨houtweighs, haccepted⟩ := ih (List.forall_mem_cons.1 hreads).2
      rw [ask_walkAll_cons context hreads, Outcome.outweighs_append, houtweighs, haccepted]
      exact ⟨rfl, rfl⟩

/-- What outweighs a node was found behind words accepted there or below. -/
theorem accepted_of_outweighs {tree : Tree m α} (hreads : tree.Every (ReadsOnly context)) :
    ∀ (line : Line) (standing : Standing m α),
      (context.ask (tree.walk line standing)).1.outweighs standing.weight = true →
        (context.ask (tree.walk line standing)).2 = true := by
  induction tree using Tree.induction with
  | node tree ih =>
      intro line standing
      cases tree.meets context line with
      | closed hclosed =>
          rw [ask_walk_of_closed context hreads hclosed]
          exact id
      | fallsShort hopen hchain hparse =>
          rw [ask_walk_of_shortfall context hreads hopen hchain hparse, outweighs_refusedAt]
          exact id
      | @enters matched hmatch =>
          let handed := tree.handedDown standing matched
          have hbelow :
              (context.ask (walkAll (tree.behind matched) handed tree.children)).1.outweighs
                handed.weight = true →
              (context.ask (walkAll (tree.behind matched) handed tree.children)).2 = true := by
            obtain ⟨houtweighs, haccepted⟩ := judged_walkAll
              (fun child hchild => hreads.child hchild) handed.weight
            rw [houtweighs, haccepted, List.any_eq_true, List.any_eq_true]
            rintro ⟨child, hchild, h⟩
            exact ⟨child, hchild, ih child hchild (hreads.child hchild) _ _ h⟩
          rw [ask_walk_of_open context hreads (hmatch.isOpen context),
            ask_proceed_of_entered context hreads (arrive_of_matches context hmatch standing)]
          split
          · exact fun _ => rfl
          · next hrefused =>
            rw [ask_leftover context hreads.root, accepted_leftover hreads.root,
              decide_lt_handedDown]
            by_cases hconsumed : 0 < matched.consumed
            · exact fun _ => by rw [decide_eq_true hconsumed, Bool.true_or]
            · -- the node hands down what it was handed, so what counts is found below
              have hweight : handed.weight = standing.weight := by
                show standing.weight + matched.consumed = _
                omega
              rw [Outcome.outweighs_append, Outcome.outweighs_append, outweighs_foundAt, ← hweight,
                decide_eq_false (Nat.lt_irrefl _), Bool.and_false, Bool.false_or,
                eq_false_of_ne_true (mt hbelow hrefused), Bool.false_or,
                decide_eq_false hconsumed, Bool.false_or]
              exact id

/-- Behind words that were accepted something is found, unless a fallback takes
over. -/
theorem outweighs_of_accepted {tree : Tree m α} (hreads : tree.Every (ReadsOnly context))
    (hnone : tree.Every fun node => node.handlers.fallback = none) :
    ∀ (line : Line) (standing : Standing m α),
      (context.ask (tree.walk line standing)).2 = true →
        (context.ask (tree.walk line standing)).1.outweighs standing.weight = true := by
  induction tree using Tree.induction with
  | node tree ih =>
      intro line standing
      cases tree.meets context line with
      | closed hclosed =>
          rw [ask_walk_of_closed context hreads hclosed]
          exact id
      | fallsShort hopen hchain hparse =>
          rw [ask_walk_of_shortfall context hreads hopen hchain hparse, outweighs_refusedAt]
          exact id
      | @enters matched hmatch =>
          let handed := tree.handedDown standing matched
          have hbelow :
              (context.ask (walkAll (tree.behind matched) handed tree.children)).2 = true →
              (context.ask (walkAll (tree.behind matched) handed tree.children)).1.outweighs
                handed.weight = true := by
            obtain ⟨houtweighs, haccepted⟩ := judged_walkAll
              (fun child hchild => hreads.child hchild) handed.weight
            rw [houtweighs, haccepted, List.any_eq_true, List.any_eq_true]
            rintro ⟨child, hchild, h⟩
            exact ⟨child, hchild, ih child hchild (hreads.child hchild) (hnone.child hchild) _ _ h⟩
          rw [ask_walk_of_matches context hreads hnone.root hmatch, Outcome.outweighs_append,
            Outcome.outweighs_append, outweighs_foundAt, outweighs_surplus]
          dsimp only
          cases haccepted :
              (context.ask (walkAll (tree.behind matched) handed tree.children)).2 with
          | true =>
              intro _
              have hle : standing.weight ≤ handed.weight := Nat.le_add_right _ _
              rw [Outcome.outweighs_of_le hle (hbelow haccepted), Bool.or_true, Bool.true_or]
          | false =>
              -- at the end of the line the node itself finds something, before it a word is left
              rw [decide_lt_handedDown, Bool.or_false]
              intro hconsumed
              rw [hconsumed]
              cases (tree.behind matched).isEnd <;> simp

/-- Words were accepted in a tree without fallbacks exactly if what was found
there outweighs the words consumed before. So a node that leaves the words to a
tree judges what that finds as it would judge the tree as a child. -/
theorem walk_accepts_iff {tree : Tree m α} (hreads : tree.Every (ReadsOnly context))
    (hnone : tree.Every fun node => node.handlers.fallback = none) (line : Line)
    (standing : Standing m α) :
    let found := context.ask (tree.walk line standing)
    (found.2 = true
        ↔ (∃ execution, found.1.execution = some execution ∧ standing.weight < execution.weight)
          ∨ ∃ refusal ∈ found.1.refusals, standing.weight < refusal.weight)
      ∧ ∀ words, ((context.ask (tree.parse line)).offset words).outweighs words = found.2 := by
  have hjudged : ∀ standing : Standing m α,
      (context.ask (tree.walk line standing)).2 = true
        ↔ (context.ask (tree.walk line standing)).1.outweighs standing.weight = true := by
    intro standing
    constructor
    · exact outweighs_of_accepted hreads hnone line standing
    · exact accepted_of_outweighs hreads line standing
  intro found
  refine ⟨(hjudged standing).trans (Outcome.outweighs_iff _ _), fun words => ?_⟩
  have hstart : (context.ask (tree.walk line {})).2 = found.2 := by
    rw [accepts_walk hreads hnone, accepts_walk hreads hnone]
  have hoffset := Outcome.outweighs_offset (context.ask (tree.parse line)) 0 words
  rw [Nat.zero_add] at hoffset
  rw [hoffset, ask_parse context hreads, ← hstart]
  exact (Bool.eq_iff_iff.2 (hjudged {})).symm

/-- Two ways into a harbour, one behind a guard. The other one matches without
any words. -/
def docks : Tree (ReaderM Bool) Unit :=
  let chain (spec : String) : Chain Unit := (Chain.ofSpec .standard spec).toOption.getD ⟨[]⟩
  { children :=
      [{ chain := some (chain "load @int"), handlers := { guard := some fun isOpen => isOpen }
         children :=
          [{ chain := some (chain "now")
             handlers := { execute := some fun _ => pure (.ok ()) } }] },
       { chain := some (chain "@int(switch=n,required=false)")
         handlers := { execute := some fun _ => pure (.ok ()) } }] }

/-- A chain that falls short behind its first word has accepted it. Words that
no chain takes weigh as much as those before them. -/
theorem docks_accept :
    let context := Context.reader true
    let standing : Standing (ReaderM Bool) Unit := { weight := 2 }
    let found := context.ask (docks.walk (.ofWords ["load", "far"]) standing)
    let other := context.ask (docks.walk (.ofWords ["sail"]) standing)
    docks.Every (ReadsOnly context)
      ∧ (docks.Every fun node => node.handlers.fallback = none)
      ∧ found.2 = true
      ∧ ((∃ execution, found.1.execution = some execution ∧ 2 < execution.weight)
        ∨ ∃ refusal ∈ found.1.refusals, 2 < refusal.weight)
      ∧ (((context.ask (docks.parse (.ofWords ["load", "far"]))).offset 7).outweighs 7 = true)
      ∧ found.1.refusals.map (·.weight) = [3, 2]
      ∧ other.2 = false
      ∧ (¬∃ refusal ∈ other.1.refusals, 2 < refusal.weight)
      ∧ other.1.refusals.map (·.weight) = [2, 2, 2] := by
  intro context standing found other
  have hdocks : docks.Every fun node => ReadsOnly context node ∧ node.handlers.fallback = none := by
    refine every_iff.2 ⟨⟨readsOnly_of_none context rfl rfl, rfl⟩,
      List.forall_mem_cons.2 ⟨?_, List.forall_mem_singleton.2 ?_⟩⟩
    · refine every_iff.2 ⟨⟨⟨fun _ _ => trivial, nofun⟩, rfl⟩, List.forall_mem_singleton.2 ?_⟩
      exact every_iff.2 ⟨⟨readsOnly_of_none context rfl rfl, rfl⟩, List.forall_mem_nil _⟩
    · exact every_iff.2 ⟨⟨readsOnly_of_none context rfl rfl, rfl⟩, List.forall_mem_nil _⟩
  have hreads : docks.Every (ReadsOnly context) := hdocks.imp fun _ hnode => hnode.1
  have hnone : docks.Every fun node => node.handlers.fallback = none :=
    hdocks.imp fun _ hnode => hnode.2
  have hfound : found.2 = true := by decide +kernel
  have hother : other.2 = false := by decide +kernel
  obtain ⟨hiff, hbehind⟩ := walk_accepts_iff hreads hnone (.ofWords ["load", "far"]) standing
  obtain ⟨hotherIff, -⟩ := walk_accepts_iff hreads hnone (.ofWords ["sail"]) standing
  refine ⟨hreads, hnone, hfound, hiff.1 hfound, (hbehind 7).trans hfound, by decide +kernel, hother,
    fun hheavier => ?_, by decide +kernel⟩
  exact Bool.false_ne_true (hother.symm.trans (hotherIff.2 (Or.inr hheavier)))

/-- A fallback may take words that were accepted, and find nothing. -/
example :
    let tree : Tree (ReaderM Bool) Unit :=
      { chain := some ((Chain.ofSpec .standard "load").toOption.getD ⟨[]⟩)
        handlers := { fallback := some fun _ => pure ∅ } }
    let found := (Context.reader true).ask (tree.walk (.ofWords ["load", "far"]) {})
    found.2 = true ∧ found.1.outweighs 0 = false := by
  decide +kernel

end Tree

end CommandGrammar
