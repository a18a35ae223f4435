/-
The line that a handler for refusals is shown. It is the line of the node
that refuses, not the one that was given: every chain that has matched on
the way took its switches out, and every node entered put its own text in.
`editsAbove` lists what was done on the way to a node, and a visit's line is
the given one after these changes (`line_of_reached`, by induction on the
steps that lead to the visit).

A node whose chain falls short refuses the line as it was reached; a node
that matches refuses the line behind its own changes. So the text that is
shown is known for every refusal (`input_of_made`), and for the one that is
told (`report_input`). Where no change puts words in or takes any out, it is
the text of the line that was given.
-/
import CommandGrammar.Proofs.Chain.Editing
import CommandGrammar.Proofs.Tree.Report

namespace CommandGrammar

variable {m : Type → Type} {α : Type}

-- ================================================================ changes

namespace Edit

theorem run_append (edits more : List (Edit α)) (line : Line) :
    run (edits ++ more) line = run more (run edits line) := by
  induction edits generalizing line with
  | nil => rfl
  | cons edit rest ih => exact ih (edit.apply line)

/-- A change that keeps the words of a line as they are: a text without words
is put in, or a chain is matched that finds no switch given. -/
def Spares : Edit α → Line → Prop
  | .insert text, _ => (Line.words text.toList).1 = []
  | .parse chain, line => chain.given none line = []
  | _, _ => True

/-- So do all of several changes, each on the line that it finds. -/
def SparesAll : List (Edit α) → Line → Prop
  | [], _ => True
  | edit :: rest, line => edit.Spares line ∧ SparesAll rest (edit.apply line)

end Edit

theorem Line.text_eq {a b : Line} (hlabel : a.label = b.label) (hwords : a.allWords = b.allWords) :
    a.text = b.text := by
  rw [text, text, hlabel, hwords]

/-- A chain that finds no switch given shows the line as it was. -/
theorem Chain.text_lineAfter {chain : Chain α} (hstandard : chain.Standard) {line : Line}
    (h : chain.given none line = []) : (chain.lineAfter line).text = line.text := by
  unfold lineAfter
  cases hparse : chain.parse line with
  | error shortfall => rfl
  | ok matched =>
      obtain ⟨taken, haccounts⟩ := accounts_of_parse hstandard hparse
      have hnone : chain.taken line = [] := by
        rw [Chain.taken, h, List.flatMap_nil]
      have hwords := (onward_of_parse hstandard hparse).words
      rw [Line.allWords_remove fun _ => within_of_mem_taken, hnone, Line.keep_nil] at hwords
      exact Line.text_eq haccounts.label hwords

namespace Edit

/-- A change that keeps the words keeps the text that is shown. -/
theorem text_apply {edit : Edit α} (hstandard : edit.Standard) {line : Line}
    (h : edit.Spares line) : (edit.apply line).text = line.text := by
  cases edit with
  | next =>
      have hlabel : (pass line).label = line.label := by
        unfold pass Line.next
        cases line.ahead <;> rfl
      exact Line.text_eq hlabel (onward_pass line).words
  | moveTo index => exact Line.text_eq rfl (List.take_append_drop _ _)
  | insert text =>
      have hwords : (line.insert text).allWords = line.allWords := by
        have hnone : (Line.words text.toList).1 = [] := h
        show line.passed ++ ((Line.words text.toList).1.map String.ofList ++ line.ahead) = _
        rw [hnone]
        rfl
      exact Line.text_eq (a := line.insert text) rfl hwords
  | parse chain =>
      obtain ⟨nodes, hnodes⟩ := hstandard
      exact Chain.text_lineAfter (Chain.standard_of_ofNodes hnodes) h

theorem text_run {edits : List (Edit α)} :
    ∀ {line : Line}, (∀ edit ∈ edits, edit.Standard) → SparesAll edits line →
      (run edits line).text = line.text := by
  induction edits with
  | nil => exact fun _ _ => rfl
  | cons edit rest ih =>
      intro line hstandard h
      obtain ⟨hedit, hrest⟩ := List.forall_mem_cons.1 hstandard
      exact (ih hrest h.2).trans (text_apply hedit h.1)

end Edit

-- =========================================================== on the way down

namespace Tree

/-- What a node does to a line that it matches. -/
def edits (node : Tree m α) : List (Edit α) :=
  (node.chain.map Edit.parse).toList ++ (node.expansion.map Edit.insert).toList

/-- What the nodes above the end of a path do. -/
def editsAbove (tree : Tree m α) : Path → List (Edit α)
  | [] => []
  | place :: rest =>
      tree.edits ++ (tree.children[place]?).elim [] fun child => child.editsAbove rest

-- one node further down, the changes of the node come last
theorem editsAbove_append {tree node child : Tree m α} {place : Nat}
    (hchild : node.children[place]? = some child) :
    ∀ {path : Path}, tree.at? path = some node →
      tree.editsAbove (path ++ [place]) = tree.editsAbove path ++ node.edits := by
  intro path
  induction path generalizing tree with
  | nil =>
      intro hnode
      obtain rfl := Option.some.inj hnode
      simp [editsAbove, hchild]
  | cons first rest ih =>
      intro hnode
      obtain ⟨next, hnext, hbelow⟩ := Option.bind_eq_some_iff.1 hnode
      rw [List.cons_append, editsAbove, editsAbove, hnext, Option.elim_some, Option.elim_some,
        ih hbelow, List.append_assoc]

variable [Monad m] {context : Context m}

/-- The line behind a matching node is the one that its changes make. -/
theorem behind_eq_run {node : Tree m α} {line : Line} {matched : Match α}
    (h : node.Matches context line matched) : node.behind matched = Edit.run node.edits line := by
  have hrest : Edit.run (node.chain.map Edit.parse).toList line = matched.rest := by
    cases hchain : node.chain with
    | none => rw [h.noChain hchain]; rfl
    | some chain =>
        show chain.lineAfter line = matched.rest
        rw [Chain.lineAfter, h.chain chain hchain]
  rw [edits, Edit.run_append, hrest, behind]
  cases node.expansion <;> rfl

/-- A node is reached with the given line after the changes of the nodes above. -/
theorem line_of_reached {tree : Tree m α} {line : Line} {visit : Visit m α}
    (h : Visit.Reached context tree line visit) :
    tree.at? visit.path = some visit.node
      ∧ visit.line = Edit.run (tree.editsAbove visit.path) line := by
  induction h with
  | refl => exact ⟨rfl, rfl⟩
  | tail _ hstep ih =>
      obtain ⟨hnode, hline⟩ := ih
      cases hstep with
      | @down matched place child hmatch hchild =>
          refine ⟨at?_of_child hnode hchild, ?_⟩
          show Tree.behind _ matched = Edit.run (tree.editsAbove (_ ++ [place])) line
          rw [editsAbove_append hchild hnode, Edit.run_append, ← hline, behind_eq_run hmatch]

end Tree

-- ================================================================= refusals

namespace Objection

variable [Monad m] (context : Context m)

/-- What has been done to a line that a node refuses: what the nodes above did,
and what the node did itself if it matches. -/
def edits (tree : Tree m α) (objection : Objection m α) : List (Edit α) :=
  tree.editsAbove objection.visit.path
    ++ (objection.visit.node.match? context objection.visit.line).elim [] fun _ =>
      objection.visit.node.edits

variable {context}

/-- A refusal is shown with the line after these changes. -/
theorem input_of_made {tree : Tree m α} {line : Line} {objection : Objection m α}
    (hreached : Visit.Reached context tree line objection.visit)
    (hmade : objection.Made context) :
    objection.input = (Edit.run (objection.edits context tree) line).text := by
  obtain ⟨-, hline⟩ := Tree.line_of_reached hreached
  have hbehind : ∀ matched, objection.visit.node.Matches context objection.visit.line matched →
      objection.visit.node.behind matched = Edit.run (objection.edits context tree) line := by
    intro matched hmatch
    rw [edits, (Tree.match?_eq_some_iff context).2 hmatch, Option.elim_some, Edit.run_append,
      ← hline, Tree.behind_eq_run hmatch]
  cases hmade with
  | @shortfall visit chain shortfall hopen hchain hparse =>
      have hnone : visit.node.match? context visit.line = none :=
        Tree.match?_of_shortfall context hopen hchain hparse
      rw [edits, hnone, Option.elim_none, List.append_nil, ← hline]
  | @inputExpected visit matched hmatch _ _ => rw [← hbehind matched hmatch]
  | @unexpectedInput visit matched _ _ hmatch _ _ => rw [← hbehind matched hmatch]

end Objection

-- ================================================================== reports

namespace Tree

variable [Monad m] {context : Context m}

/-- What a handler is told is a refusal of a node that the line reaches, and it
is shown the line as the nodes on the way and the refusing node have left it.
That is the line that was given if none of them has put words in or taken
any out. -/
theorem report_input {tree : Tree m α} (hreads : tree.Every (ReadsOnly context))
    (hnone : tree.Every fun node => node.handlers.fallback = none) {line : Line} {report : Report}
    (hreport : (context.ask (tree.parse line)).report = some report) :
    ∃ objection : Objection m α, Visit.Reached context tree line objection.visit
      ∧ objection.Made context
      ∧ objection.refusal = ⟨report.weight, report.refusal⟩
      ∧ report.input = (Edit.run (objection.edits context tree) line).text
      ∧ ((∀ edit ∈ objection.edits context tree, edit.Standard) →
          Edit.SparesAll (objection.edits context tree) line → report.input = line.text) := by
  have hrecorded : ∃ objections, Recorded tree
      (Objection.Below context (Visit.start tree line)) objections
      (context.ask (tree.walk line {})).1 :=
    record_walk hreads hnone [] line [] {} ⟨rfl, rfl⟩ rfl
      ((report_under _ _).trans (Option.or_none ..))
  obtain ⟨objections, hrecorded⟩ := hrecorded
  rw [← ask_parse context hreads] at hrecorded
  obtain ⟨told, htold, rfl⟩ := Option.map_eq_some_iff.1 hreport
  rw [hrecorded.reporting] at htold
  obtain ⟨before, objection, behind, rfl, hobjection, -, -⟩ :=
    Weighted.exists_of_heaviest_filterMap htold
  obtain ⟨hreached, hmade⟩ :=
    (hrecorded.mem_iff objection).1 (List.mem_append_right _ (List.mem_cons_self ..))
  obtain ⟨handler, -, rfl⟩ := Option.map_eq_some_iff.1 hobjection
  have hinput := Objection.input_of_made hreached hmade
  refine ⟨objection, hreached, hmade, rfl, hinput, fun hstandard hspares => ?_⟩
  exact hinput.trans (Edit.text_run hstandard hspares)

/-- The chain of a spec that can be built. -/
def spelled (spec : String) : Chain Unit :=
  (Chain.ofSpec .standard spec).toOption.getD ⟨[]⟩

/-- A node that is told of refusals itself. -/
def outpost (spec : String) (expansion : Option String) : Tree (ReaderM Bool) Unit :=
  { chain := some (spelled spec)
    expansion := expansion
    handlers := { report := some fun _ => pure (.ok ()) } }

/-- Where the switch is not given, the line that is shown is the one that was
given. -/
theorem outpost_report_input :
    let context := Context.reader true
    let tree := outpost "go @int(switch=n,required=false)" none
    let line : Line := .ofText "go far"
    tree.Every (ReadsOnly context)
      ∧ (tree.Every fun node => node.handlers.fallback = none)
      ∧ ∃ report, (context.ask (tree.parse line)).report = some report
        ∧ report.refusal = .unexpectedInput "far" ∧ report.input = line.text := by
  intro context tree line
  have hreads : tree.Every (ReadsOnly context) :=
    every_iff.2 ⟨readsOnly_of_none context rfl rfl, List.forall_mem_nil _⟩
  have hnone : tree.Every fun node => node.handlers.fallback = none :=
    every_iff.2 ⟨rfl, List.forall_mem_nil _⟩
  obtain ⟨report, hreport⟩ : ∃ report, (context.ask (tree.parse line)).report = some report :=
    Option.isSome_iff_exists.1 (by decide +kernel)
  have hrefusal : ∀ report ∈ (context.ask (tree.parse line)).report,
      report.refusal = .unexpectedInput "far" := by decide +kernel
  refine ⟨hreads, hnone, report, hreport, hrefusal report hreport, ?_⟩
  obtain ⟨objection, hreached, -, -, -, hsame⟩ := report_input hreads hnone hreport
  -- the root is the only node, and nobody is above it
  obtain ⟨hnode, -⟩ := line_of_reached hreached
  have hroot : objection.visit.path = [] := by
    cases hpath : objection.visit.path with
    | nil => rfl
    | cons place rest => rw [hpath] at hnode; cases hnode
  rw [hroot] at hnode
  have hsole : objection.visit.node = tree := (Option.some.inj hnode).symm
  have hedits : objection.edits context tree = []
      ∨ objection.edits context tree = [.parse (spelled "go @int(switch=n,required=false)")] := by
    unfold Objection.edits
    rw [hroot, hsole]
    cases tree.match? context objection.visit.line with
    | none => exact Or.inl rfl
    | some matched => exact Or.inr rfl
  have hstandard : ∃ nodes, Chain.ofNodes .standard nodes
      = .ok (spelled "go @int(switch=n,required=false)") :=
    ⟨_, Chain.ofNodes_of_isOk (by decide +kernel)⟩
  have hgiven : ((spelled "go @int(switch=n,required=false)").given none line).isEmpty = true := by
    decide +kernel
  rcases hedits with hedits | hedits
  · rw [hedits] at hsame
    exact hsame (List.forall_mem_nil _) trivial
  · rw [hedits] at hsame
    exact hsame (List.forall_mem_singleton.2 hstandard) ⟨List.isEmpty_iff.1 hgiven, trivial⟩

/-- A line that is shown is not the one that was given: the flag and its value
are gone where the chain has matched, and a text put in is there. -/
theorem report_input_ne :
    let context := Context.reader true
    let switched := outpost "go @int(switch=n,required=false)" none
    let expanded := outpost "tp" (some "teleport to")
    ((context.ask (switched.parse (.ofText "go -n 3 far"))).report.map (·.input) = some "go far"
        ∧ (Line.ofText "go -n 3 far").text = "go -n 3 far")
      ∧ (context.ask (expanded.parse (.ofText "tp home"))).report.map (·.input)
          = some "tp teleport to home"
        ∧ (Line.ofText "tp home").text = "tp home" := by
  decide +kernel

end Tree

end CommandGrammar
