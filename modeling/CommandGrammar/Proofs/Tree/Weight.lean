/-
A weight is a number of words. On the way down a tree no word gets lost:
what the chains above a node consumed and what is left at the node are
together the words that were given and the words that the nodes above put
in (`conserves_of_reached`). So a weight says how far a path got, and it
can be read off without looking at the path's chains:

- where the line can be executed, or should go on, no word is left, and
  the weight is the whole sum;
- where a word is left over, the weight falls short of it;
- a chain that is refused counts words of what was left, so it does not
  exceed it.

One step of the rule that says which nodes a line reaches keeps the sum
(`Conserves.step`): a chain counts the words it takes, and a text put in is
counted on both sides. That every refusal of a walk is made at a node that
the line reaches is an induction over the tree (`exists_refuses_of_mem_walk`).
-/
import CommandGrammar.Proofs.Chain.Account
import CommandGrammar.Proofs.Chain.Refusing
import CommandGrammar.Proofs.Tree.Completion

namespace CommandGrammar

open Relation (ReflTransGen)

variable {m : Type → Type} {α : Type}

-- ============================================================ words put in

namespace Tree

/-- How many words the node's own text puts into the line. -/
def inserted (tree : Tree m α) : Nat :=
  tree.expansion.elim 0 fun text => (Line.words text.toList).1.length

/-- How many words the nodes on a path put into the line, the one at its
end included. -/
def insertedOn (tree : Tree m α) : Path → Nat
  | [] => tree.inserted
  | place :: rest =>
      tree.inserted + (tree.children[place]?).elim 0 fun child => child.insertedOn rest

theorem size_behind (tree : Tree m α) (matched : Match α) :
    (tree.behind matched).size = matched.rest.size + tree.inserted := by
  unfold behind inserted
  cases tree.expansion with
  | none => rfl
  | some text =>
      show (((Line.words text.toList).1.map String.ofList) ++ matched.rest.ahead).length = _
      rw [List.length_append, List.length_map, Nat.add_comm]
      rfl

-- a path goes on to a child
theorem insertedOn_append {tree node child : Tree m α} {place : Nat}
    (hchild : node.children[place]? = some child) :
    ∀ {path : Path}, tree.at? path = some node →
      tree.insertedOn (path ++ [place]) = tree.insertedOn path + child.inserted := by
  intro path
  induction path generalizing tree with
  | nil =>
      intro hnode
      injection hnode with hnode
      subst hnode
      simp [insertedOn, hchild]
  | cons first rest ih =>
      intro hnode
      obtain ⟨next, hnext, hbelow⟩ := Option.bind_eq_some_iff.1 hnode
      simp [insertedOn, hnext, ih hbelow, Nat.add_assoc]

theorem insertedOn_eq_zero {tree : Tree m α} :
    ∀ {path : Path}, (tree.Every fun node => node.expansion = none) →
      tree.insertedOn path = 0 := by
  intro path
  induction path generalizing tree with
  | nil =>
      intro h
      simp [insertedOn, inserted, h.root]
  | cons place rest ih =>
      intro h
      cases hchild : tree.children[place]? with
      | none => simp [insertedOn, inserted, h.root, hchild]
      | some child =>
          simp [insertedOn, inserted, h.root, hchild, ih (h.child (List.mem_of_getElem? hchild))]

end Tree

-- ================================================================ the sum

section Sum

variable [Monad m] {context : Context m}

namespace Tree

-- what a matching node consumes and what it leaves is what it was given
theorem consumed_add_size {node : Tree m α} (hplain : node.Plain context) {line : Line}
    {matched : Match α} (hmatch : node.Matches context line matched) :
    matched.consumed + matched.rest.size = line.size := by
  cases hchain : node.chain with
  | none => simp [hmatch.noChain hchain]
  | some chain =>
      apply Chain.consumed_add_size_of_parse
      · exact standard_of_plain hplain chain hchain
      · exact hmatch.chain chain hchain

end Tree

namespace Visit

/-- No word was lost on the way to a visit. -/
structure Conserves (tree : Tree m α) (line : Line) (visit : Visit m α) : Prop where
  /-- Its path leads to its node. -/
  here : tree.at? visit.path = some visit.node
  /-- What was consumed and what is left, the node's own text included, are
  the words given and those put in. -/
  sum : consumed visit.trail + visit.line.size + visit.node.inserted
    = line.size + tree.insertedOn visit.path

theorem consumed_append (trail : List (Match α)) (matched : Match α) :
    consumed (trail ++ [matched]) = consumed trail + matched.consumed := by
  simp [consumed]

-- behind a match the same words are accounted for
theorem Conserves.behind {tree : Tree m α} {line : Line} {visit : Visit m α}
    (h : visit.Conserves tree line) (hplain : visit.node.Plain context) {matched : Match α}
    (hmatch : visit.node.Matches context visit.line matched) :
    consumed (visit.trail ++ [matched]) + (visit.node.behind matched).size
      = line.size + tree.insertedOn visit.path := by
  have hsize := Tree.consumed_add_size hplain hmatch
  have hsum := h.sum
  rw [consumed_append, Tree.size_behind]
  omega

theorem Conserves.step {tree : Tree m α} {line : Line} {visit next : Visit m α}
    (h : visit.Conserves tree line) (hplain : visit.node.Plain context)
    (hstep : Step context visit next) : next.Conserves tree line := by
  cases hstep with
  | @down matched place child hmatch hchild =>
      refine ⟨Tree.at?_of_child h.here hchild, ?_⟩
      show consumed (visit.trail ++ [matched]) + (visit.node.behind matched).size + child.inserted
        = line.size + tree.insertedOn (visit.path ++ [place])
      rw [h.behind hplain hmatch, Tree.insertedOn_append hchild h.here]
      omega

/-- No word is lost on the way to any node that the line reaches. -/
theorem conserves_of_reached {tree : Tree m α} (hplain : tree.Every (Tree.Plain context))
    {line : Line} {visit : Visit m α} (h : Reached context tree line visit) :
    visit.node.Every (Tree.Plain context) ∧ visit.Conserves tree line := by
  induction h with
  | refl => exact ⟨hplain, rfl, by simp [start, consumed, Tree.insertedOn]⟩
  | tail _ hstep ih =>
      obtain ⟨hnode, hconserves⟩ := ih
      refine ⟨?_, hconserves.step hnode.root hstep⟩
      cases hstep with
      | down _ hchild => exact hnode.child (List.mem_of_getElem? hchild)

-- =============================================================== refusals

variable (context) in
/-- The refusals that a visit can make, with the words consumed so far. -/
inductive Refuses (visit : Visit m α) : Weighted Refusal → Prop
  /-- The node's chain does not match; the words that it did consume count. -/
  | shortfall {chain : Chain α} {shortfall : Shortfall} :
      context.ask visit.node.isOpen = true → visit.node.chain = some chain →
      chain.parse visit.line = .error shortfall →
      Refuses visit ⟨consumed visit.trail + shortfall.consumed, shortfall.refusal⟩
  /-- The node matches and the line ends, but it has nothing to execute. -/
  | inputExpected {matched : Match α} :
      visit.node.Matches context visit.line matched → visit.node.handlers.execute = none →
      (visit.node.behind matched).ahead = [] →
      Refuses visit ⟨consumed (visit.trail ++ [matched]), .inputExpected⟩
  /-- The node matches and a word is left. -/
  | unexpectedInput {matched : Match α} {word : String} {rest : List String} :
      visit.node.Matches context visit.line matched →
      (visit.node.behind matched).ahead = word :: rest →
      Refuses visit ⟨consumed (visit.trail ++ [matched]), .unexpectedInput word⟩

/-- What a refusal weighs on a path that `total` words lead along. -/
def Weighs (total : Nat) (refusal : Weighted Refusal) : Prop :=
  match refusal.item with
  | .inputExpected => refusal.weight = total
  | .unexpectedInput _ => refusal.weight < total
  | _ => refusal.weight ≤ total

theorem weighs_of_not_isOfNode {total : Nat} {refusal : Weighted Refusal}
    (hform : ¬refusal.item.IsOfNode) (h : refusal.weight ≤ total) : Weighs total refusal := by
  unfold Weighs
  split
  · next hitem => exact absurd (by rw [hitem]; trivial) hform
  · next hitem => exact absurd (by rw [hitem]; trivial) hform
  · exact h

theorem le_of_weighs {total : Nat} {refusal : Weighted Refusal} (h : Weighs total refusal) :
    refusal.weight ≤ total := by
  unfold Weighs at h
  split at h
  · exact Nat.le_of_eq h
  · exact Nat.le_of_lt h
  · exact h

theorem weighs_of_refuses {tree : Tree m α} {line : Line} {visit : Visit m α}
    (hplain : visit.node.Plain context) (h : visit.Conserves tree line)
    {refusal : Weighted Refusal} (hrefuses : visit.Refuses context refusal) :
    Weighs (line.size + tree.insertedOn visit.path) refusal := by
  cases hrefuses with
  | @shortfall chain shortfall _ hchain hparse =>
      have hle := Chain.consumed_le_of_parse (Tree.standard_of_plain hplain chain hchain) hparse
      have hsum := h.sum
      obtain ⟨nodes, hnodes⟩ := hplain.chain chain hchain
      apply weighs_of_not_isOfNode
      · exact Chain.not_isOfNode_of_parse hnodes hparse
      · show consumed visit.trail + shortfall.consumed ≤ _
        omega
  | @inputExpected matched hmatch _ hend =>
      have hsum := h.behind hplain hmatch
      rwa [Line.size, hend] at hsum
  | @unexpectedInput matched word rest hmatch hahead =>
      have hsum := h.behind hplain hmatch
      rw [Line.size, hahead, List.length_cons] at hsum
      show consumed (visit.trail ++ [matched]) < _
      omega

end Visit

-- =============================================================== the walk

namespace Tree

/-- Every refusal of a walk is made at a node that the line reaches. -/
theorem exists_refuses_of_mem_walk {tree : Tree m α} (hreads : tree.Every (ReadsOnly context))
    (hnone : tree.Every fun node => node.handlers.fallback = none) :
    ∀ (path : Path) (line : Line) (trail : List (Match α)) (standing : Standing m α),
      standing.Of trail →
      ∀ refusal ∈ (context.ask (tree.walk line standing)).1.refusals,
        ∃ visit, ReflTransGen (Visit.Step context) ⟨path, tree, line, trail⟩ visit
          ∧ visit.Refuses context refusal := by
  induction tree using Tree.induction with
  | node tree ih =>
      intro path line trail standing hof refusal hrefusal
      let here : Visit m α := ⟨path, tree, line, trail⟩
      have hhere : here.Refuses context refusal → ∃ visit,
          ReflTransGen (Visit.Step context) here visit ∧ visit.Refuses context refusal :=
        fun h => ⟨here, .refl, h⟩
      cases tree.meets context line with
      | closed hclosed =>
          rw [ask_walk_of_closed context hreads hclosed] at hrefusal
          cases hrefusal
      | fallsShort hopen hchain hparse =>
          rw [ask_walk_of_shortfall context hreads hopen hchain hparse, refusals_refusedAt,
            List.mem_singleton] at hrefusal
          apply hhere
          rw [hrefusal, hof.weight]
          exact .shortfall hopen hchain hparse
      | @enters matched hmatches =>
          have hhanded := hof.handedDown tree matched
          rw [ask_walk_of_matches context hreads hnone.root hmatches, Outcome.refusals_append,
            Outcome.refusals_append, refusals_foundAt, refusals_surplus, hhanded.weight] at hrefusal
          rcases List.mem_append.1 hrefusal with hrefusal | hover
          rcases List.mem_append.1 hrefusal with hfound | hbelow
          · -- the line ends, and nothing can be executed
            split at hfound
            case isFalse => cases hfound
            case isTrue h =>
              obtain ⟨hend, hexecute⟩ := Bool.and_eq_true_iff.1 h
              apply hhere
              rw [List.mem_singleton.1 hfound]
              exact .inputExpected hmatches (by simpa [isExecutable] using hexecute)
                (List.isEmpty_iff.1 hend)
          · refine ask_walkAll_of_forall (P := fun outcome => refusal ∈ outcome.refusals → _)
              context (fun h => by cases h) ?_ (fun child hchild => hreads.child hchild) ?_ hbelow
            · exact fun a b ha hb h => (List.mem_append.1 h).elim ha hb
            · intro child hchild h
              obtain ⟨place, hplace⟩ := List.mem_iff_getElem?.1 hchild
              obtain ⟨visit, hvisit, hrefuses⟩ := ih child hchild (hreads.child hchild)
                (hnone.child hchild) (path ++ [place]) _ _ _ hhanded refusal h
              have hstep : Visit.Step context here (here.down matched place child) :=
                .down hmatches hplace
              exact ⟨visit, .head hstep hvisit, hrefuses⟩
          · -- a word is left that nobody accepts
            split at hover
            case isFalse => cases hover
            case isTrue h =>
              obtain ⟨-, hleft⟩ := Bool.and_eq_true_iff.1 h
              obtain ⟨rest, hahead⟩ := Line.exists_ahead_eq (by simpa using hleft)
              apply hhere
              rw [List.mem_singleton.1 hover]
              exact .unexpectedInput hmatches hahead

/-- The weight of what can be executed is the number of words given and of
words put in on the way to its node, and so is that of a node where the
line ends too early. A line that goes on too long weighs less, and nothing
else that is refused weighs more. -/
theorem parse_weights {tree : Tree m α} (hplain : tree.Every (Plain context)) (line : Line) :
    let outcome := context.ask (tree.parse line)
    (∀ execution, outcome.execution = some execution →
        ∃ visit, Visit.Reached context tree line visit
          ∧ visit.execution? context = some execution
          ∧ execution.weight = line.size + tree.insertedOn visit.path)
      ∧ (∀ refusal ∈ outcome.refusals,
          ∃ visit, Visit.Reached context tree line visit
            ∧ visit.Refuses context refusal
            ∧ Visit.Weighs (line.size + tree.insertedOn visit.path) refusal)
      ∧ ((tree.Every fun node => node.expansion = none) →
          (∀ execution, outcome.execution = some execution → execution.weight = line.size)
            ∧ ∀ refusal ∈ outcome.refusals, refusal.weight ≤ line.size) := by
  intro outcome
  have hreads : tree.Every (ReadsOnly context) := hplain.imp fun _ hnode => hnode.reads
  have hnone := hplain.imp fun _ hnode => hnode.fallback
  have houtcome : outcome = (context.ask (tree.walk line {})).1 := ask_parse context hreads line
  have hexecution : ∀ execution, outcome.execution = some execution →
      ∃ visit, Visit.Reached context tree line visit
        ∧ visit.execution? context = some execution
        ∧ execution.weight = line.size + tree.insertedOn visit.path := by
    intro execution h
    rw [houtcome, (gather_walk context hreads hnone [] line [] {} ⟨rfl, rfl⟩).execution] at h
    obtain ⟨before, visit, behind, hsplit, hoffers, -, -⟩ :=
      Visit.exists_of_best_eq_some context h
    have hreached : Visit.Reached context tree line visit := by
      apply (mem_visits context).1
      rw [hsplit]
      exact List.mem_append_right _ (List.mem_cons_self ..)
    obtain ⟨hnode, hconserves⟩ := Visit.conserves_of_reached hplain hreached
    obtain ⟨matched, handler, hexecutes, rfl⟩ := (Visit.execution?_eq_some_iff context).1 hoffers
    refine ⟨visit, hreached, hoffers, ?_⟩
    have hsum := hconserves.behind hnode.root hexecutes.matching
    rwa [Line.size, hexecutes.noneLeft] at hsum
  have hrefusal : ∀ refusal ∈ outcome.refusals,
      ∃ visit, Visit.Reached context tree line visit
        ∧ visit.Refuses context refusal
        ∧ Visit.Weighs (line.size + tree.insertedOn visit.path) refusal := by
    intro refusal h
    rw [houtcome] at h
    obtain ⟨visit, hreached, hrefuses⟩ :=
      exists_refuses_of_mem_walk hreads hnone [] line [] {} ⟨rfl, rfl⟩ refusal h
    obtain ⟨hnode, hconserves⟩ := Visit.conserves_of_reached hplain hreached
    exact ⟨visit, hreached, hrefuses, Visit.weighs_of_refuses hnode.root hconserves hrefuses⟩
  refine ⟨hexecution, hrefusal, fun htexts => ⟨fun execution h => ?_, fun refusal h => ?_⟩⟩
  · obtain ⟨visit, -, -, hweight⟩ := hexecution execution h
    simpa [insertedOn_eq_zero htexts] using hweight
  · obtain ⟨visit, -, -, hweighs⟩ := hrefusal refusal h
    simpa [insertedOn_eq_zero htexts] using Visit.le_of_weighs hweighs

end Tree

end Sum

namespace Tree

/-- A way that needs a number. -/
def errand : Tree (ReaderM Bool) Unit :=
  { chain := some ((Chain.ofSpec .standard "go @int").toOption.getD ⟨[]⟩) }

/-- Another one puts two words in front of the number, and of these a node
behind a guard takes one only. -/
def errands : Tree (ReaderM Bool) Unit :=
  let chain (spec : String) : Chain Unit := (Chain.ofSpec .standard spec).toOption.getD ⟨[]⟩
  { children :=
      [{ chain := some (chain "go"), expansion := some "by road"
         children :=
          [{ chain := some (chain "by road|sea @int")
             handlers := { execute := some fun _ => pure (.ok ()) } },
           { chain := some (chain "by"), handlers := { guard := some fun isOpen => isOpen } }] },
       errand] }

/-- The two words put in count where they are taken. -/
theorem errands_parse_weights :
    let context := Context.reader true
    let line : Line := .ofWords ["go", "3"]
    let outcome := context.ask (errands.parse line)
    errands.Every (Plain context)
      ∧ (∃ visit, Visit.Reached context errands line visit
          ∧ outcome.execution.map (·.weight) = some (line.size + errands.insertedOn visit.path))
      ∧ outcome.execution.map (·.weight) = some 4
      ∧ (∀ refusal ∈ outcome.refusals, ∃ visit, Visit.Reached context errands line visit
          ∧ Visit.Weighs (line.size + errands.insertedOn visit.path) refusal)
      ∧ outcome.refusals = [⟨2, .unexpectedInput "road"⟩, ⟨2, .inputExpected⟩]
      ∧ (∀ refusal ∈ (context.ask (errand.parse (.ofWords ["go", "far"]))).refusals,
          refusal.weight ≤ 2)
      ∧ (context.ask (errand.parse (.ofWords ["go", "far"]))).refusals.map (·.weight) = [1] := by
  intro context line outcome
  have herrand : errand.Every (Plain context) := by
    refine every_iff.2 ⟨⟨readsOnly_of_none context rfl rfl, rfl, ?_⟩, List.forall_mem_nil _⟩
    rintro chain ⟨⟩
    exact ⟨_, Chain.ofNodes_of_isOk (by decide +kernel)⟩
  have hplain : errands.Every (Plain context) := by
    refine every_iff.2 ⟨⟨readsOnly_of_none context rfl rfl, rfl, nofun⟩,
      List.forall_mem_cons.2 ⟨?_, List.forall_mem_singleton.2 herrand⟩⟩
    refine every_iff.2 ⟨⟨readsOnly_of_none context rfl rfl, rfl, ?_⟩,
      List.forall_mem_cons.2 ⟨?_, List.forall_mem_singleton.2 ?_⟩⟩
    · rintro chain ⟨⟩
      exact ⟨_, Chain.ofNodes_of_isOk (by decide +kernel)⟩
    · refine every_iff.2 ⟨⟨readsOnly_of_none context rfl rfl, rfl, ?_⟩, List.forall_mem_nil _⟩
      rintro chain ⟨⟩
      exact ⟨_, Chain.ofNodes_of_isOk (by decide +kernel)⟩
    · refine every_iff.2 ⟨⟨⟨fun guard _ => trivial, nofun⟩, rfl, ?_⟩, List.forall_mem_nil _⟩
      rintro chain ⟨⟩
      exact ⟨_, Chain.ofNodes_of_isOk (by decide +kernel)⟩
  obtain ⟨hexecution, hrefusals, -⟩ := parse_weights hplain line
  have hfour : outcome.execution.map (·.weight) = some 4 := by decide +kernel
  refine ⟨hplain, ?_, hfour, ?_, by decide +kernel, ?_, by decide +kernel⟩
  · obtain ⟨execution, hsome, -⟩ := Option.map_eq_some_iff.1 hfour
    obtain ⟨visit, hreached, -, hweight⟩ := hexecution execution hsome
    exact ⟨visit, hreached, by rw [hsome, Option.map_some, hweight]⟩
  · intro refusal h
    obtain ⟨visit, hreached, -, hweighs⟩ := hrefusals refusal h
    exact ⟨visit, hreached, hweighs⟩
  · exact ((parse_weights herrand (.ofWords ["go", "far"])).2.2
      (every_iff.2 ⟨rfl, List.forall_mem_nil _⟩)).2

end Tree

end CommandGrammar
