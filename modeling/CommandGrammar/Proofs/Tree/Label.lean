/-
Walking a line under another label. No reader matches against the label,
so a node meets the line as before, and of all that is found the label
reaches only the text that a report shows. With one text in the reports of
both walks, their outcomes are equal (`walk_withLabel`). A fallback is
given the line itself and may do with the label what it likes, so none is
allowed.
-/
import CommandGrammar.Proofs.Chain.Label
import CommandGrammar.Proofs.Tree.Meeting

namespace CommandGrammar

variable {m : Type → Type} {α : Type}

-- ============================================================== outcomes

namespace Outcome

/-- The outcome with its report showing another input text. -/
def withInput (input : String) (outcome : Outcome m α) : Outcome m α :=
  { outcome with
    reporting := outcome.reporting.map fun found => ⟨found.weight, { found.item with input }⟩ }

variable (input : String)

theorem withInput_append (a b : Outcome m α) :
    (a ++ b).withInput input = a.withInput input ++ b.withInput input := by
  ext1
  case reporting =>
    let f (found : Weighted (Reporting m)) : Weighted (Reporting m) :=
      ⟨found.weight, { found.item with input }⟩
    exact (Weighted.heavier_map (f := f) (fun _ _ => Iff.rfl) _ _).symm
  all_goals rfl

/-- The text that a refusal came with is gone. -/
theorem withInput_ofRefusal (refusal : Refusal) (weight : Nat)
    (handler : Option (ReportHandler m)) (own : String) :
    (ofRefusal refusal weight handler own : Outcome m α).withInput input
      = ofRefusal refusal weight handler input := by
  cases handler <;> rfl

end Outcome

namespace Tree

-- ============================================================== one node

/-- A node that never matches against the label. -/
def IgnoresLabel (node : Tree m α) : Prop :=
  ∀ chain, node.chain = some chain → chain.IgnoresLabel

section Node

variable {tree : Tree m α} (line : Line) (label input : String) (standing : Standing m α)

theorem proposals_withLabel (h : tree.IgnoresLabel) :
    tree.proposals (line.withLabel label) = tree.proposals line := by
  unfold proposals
  cases hchain : tree.chain with
  | none => rfl
  | some chain => exact chain.suggest_withLabel line label (h chain hchain)

theorem behind_withLabel (matched : Match α) :
    tree.behind (matched.withLabel label) = (tree.behind matched).withLabel label := by
  unfold behind
  cases tree.expansion <;> rfl

theorem atEnd_withLabel :
    (tree.atEnd (line.withLabel label) standing).withInput input
      = (tree.atEnd line standing).withInput input := by
  unfold atEnd
  rw [Outcome.withInput_append, Outcome.withInput_append]
  cases tree.handlers.execute with
  | none => dsimp only; rw [Outcome.withInput_ofRefusal, Outcome.withInput_ofRefusal]
  | some handler => rfl

theorem foundAt_withLabel (h : tree.IgnoresLabel) (matched : Match α) :
    (tree.foundAt (line.withLabel label) standing (matched.withLabel label)).withInput input
      = (tree.foundAt line standing matched).withInput input := by
  unfold foundAt
  rw [proposals_withLabel line label h, behind_withLabel, Outcome.withInput_append,
    Outcome.withInput_append]
  congr 1
  show Outcome.withInput input (if (tree.behind matched).isEnd then _ else _) = _
  split
  · exact atEnd_withLabel ..
  · rfl

theorem refusedAt_withLabel (h : tree.IgnoresLabel) (shortfall : Shortfall) :
    (tree.refusedAt (line.withLabel label) standing shortfall).withInput input
      = (tree.refusedAt line standing shortfall).withInput input := by
  unfold refusedAt
  rw [proposals_withLabel line label h, Outcome.withInput_append, Outcome.withInput_append,
    Outcome.withInput_ofRefusal, Outcome.withInput_ofRefusal]

theorem surplus_withLabel (accepted : Bool) :
    (surplus accepted (line.withLabel label) standing).withInput input
      = (surplus accepted line standing).withInput input := by
  unfold surplus
  show Outcome.withInput input (if !accepted && !line.isEnd then _ else _) = _
  split
  · rw [Outcome.withInput_ofRefusal, Outcome.withInput_ofRefusal]
    rfl
  · rfl

end Node

-- ============================================================== the walk

variable [Monad m] {context : Context m} {tree : Tree m α} (label input : String)

theorem Matches.withLabel {line : Line} {matched : Match α}
    (hmatch : tree.Matches context line matched) (h : tree.IgnoresLabel) :
    tree.Matches context (line.withLabel label) (matched.withLabel label) where
  guard := hmatch.guard
  chain chain hchain := by
    rw [chain.parse_withLabel line label (h chain hchain), hmatch.chain chain hchain]
    rfl
  noChain hchain := by
    rw [hmatch.noChain hchain]
    rfl

/-- Under another label a walk finds the same, up to the text of the report,
and accepts the same words. -/
theorem walk_withLabel (hreads : tree.Every (ReadsOnly context))
    (hnone : tree.Every fun node => node.handlers.fallback = none)
    (hlabel : tree.Every IgnoresLabel) :
    ∀ (line : Line) (standing : Standing m α),
      (context.ask (tree.walk (line.withLabel label) standing)).1.withInput input
          = (context.ask (tree.walk line standing)).1.withInput input
        ∧ (context.ask (tree.walk (line.withLabel label) standing)).2
          = (context.ask (tree.walk line standing)).2 := by
  induction tree using Tree.induction with
  | node tree ih =>
      intro line standing
      cases tree.meets context line with
      | closed hclosed =>
          rw [ask_walk_of_closed context hreads hclosed, ask_walk_of_closed context hreads hclosed]
          exact ⟨rfl, rfl⟩
      | @fallsShort chain shortfall hopen hchain hparse =>
          have hother : chain.parse (line.withLabel label) = .error shortfall := by
            rw [chain.parse_withLabel line label (hlabel.root chain hchain), hparse]
            rfl
          rw [ask_walk_of_shortfall context hreads hopen hchain hparse,
            ask_walk_of_shortfall context hreads hopen hchain hother]
          exact ⟨refusedAt_withLabel line label input standing hlabel.root shortfall, rfl⟩
      | @enters matched hmatch =>
          have hhanded : tree.handedDown standing (matched.withLabel label)
              = tree.handedDown standing matched := rfl
          obtain ⟨hfound, haccepted⟩ := ask_walkAll_of_related context
            (R := fun x y => x.1.withInput input = y.1.withInput input ∧ x.2 = y.2) ⟨rfl, rfl⟩
            (fun hfirst hrest => ⟨by simp only [Outcome.withInput_append, hfirst.1, hrest.1],
              congrArg₂ (· || ·) hfirst.2 hrest.2⟩)
            (fun child hchild => hreads.child hchild) fun child hchild =>
              ih child hchild (hreads.child hchild) (hnone.child hchild) (hlabel.child hchild)
                (tree.behind matched) (tree.handedDown standing matched)
          rw [ask_walk_of_matches context hreads hnone.root hmatch,
            ask_walk_of_matches context hreads hnone.root (hmatch.withLabel label hlabel.root),
            behind_withLabel, hhanded, haccepted]
          refine ⟨?_, rfl⟩
          simp only [Outcome.withInput_append]
          rw [foundAt_withLabel line label input standing hlabel.root, surplus_withLabel, hfound]

/-- So does matching. -/
theorem parse_withLabel (hreads : tree.Every (ReadsOnly context))
    (hnone : tree.Every fun node => node.handlers.fallback = none)
    (hlabel : tree.Every IgnoresLabel) (line : Line) :
    (context.ask (tree.parse (line.withLabel label))).withInput input
      = (context.ask (tree.parse line)).withInput input := by
  rw [ask_parse context hreads, ask_parse context hreads]
  exact (walk_withLabel label input hreads hnone hlabel line {}).1

end Tree

end CommandGrammar
