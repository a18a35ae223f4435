/-
A node with a text of its own matches what the node without it matches
when the text is typed behind its word. Behind the match the two lines
have the same words ahead, and these are all that a walk sees, as far as
it executes or refuses (`alike_walk`). If the word being completed is not
the node's own, it moves with the text, so the two lines are even equal
behind the match, and the walks propose the same (`parse_expansion`).

On a line that ends with the node's own word, that word is being
completed, and the text put in behind it does not change that; but typed
out, the text has a last word of its own to complete. There the
suggestions differ, and the executions and refusals do not.
-/
import CommandGrammar.Proofs.Chain.Asking
import CommandGrammar.Proofs.Chain.Building
import CommandGrammar.Proofs.Tree.Completion

namespace CommandGrammar

variable {m : Type → Type} {α : Type}

-- ============================================================== findings

namespace Outcome

/-- Two outcomes execute the same and refuse the same. -/
structure Agrees (a b : Outcome m α) : Prop where
  execution : a.execution = b.execution
  refusals : a.refusals = b.refusals

theorem Agrees.append {a b c d : Outcome m α} (hab : a.Agrees b) (hcd : c.Agrees d) :
    (a ++ c).Agrees (b ++ d) where
  execution := by rw [execution_append, execution_append, hab.execution, hcd.execution]
  refusals := by rw [refusals_append, refusals_append, hab.refusals, hcd.refusals]

/-- Suggestions do not count. -/
theorem agrees_ofSuggestions (groups others : List SuggestionGroup)
    (handler other : Option (CompleteHandler m)) (weight weight' : Nat) :
    (ofSuggestions groups handler weight : Outcome m α).Agrees
      (ofSuggestions others other weight') := by
  cases groups <;> cases others <;> exact ⟨rfl, rfl⟩

/-- Of a refusal its reason and its weight count, but not who is told. -/
theorem agrees_ofRefusal (refusal : Refusal) (weight : Nat)
    (handler other : Option (ReportHandler m)) (input input' : String) :
    (ofRefusal refusal weight handler input : Outcome m α).Agrees
      (ofRefusal refusal weight other input') :=
  ⟨rfl, rfl⟩

end Outcome

namespace Tree

/-- The same values and the same weight are handed down; the handlers may
differ. -/
structure Standing.Agrees (s t : Standing m α) : Prop where
  bindings : s.bindings = t.bindings
  weight : s.weight = t.weight

/-- Two meetings agree: what they found agrees, and so does what they hand
down, with the same words ahead. -/
inductive Arrival.Agrees : Arrival m α → Arrival m α → Prop
  | refused {a b : Outcome m α} (accepted : Bool) :
      a.Agrees b → Agrees (.refused a accepted) (.refused b accepted)
  | entered {a b : Outcome m α} {line other : Line} {s t : Standing m α} :
      a.Agrees b → line.ahead = other.ahead → s.Agrees t →
      Agrees (.entered a line s) (.entered b other t)

/-- Two walks agree: what they found agrees, and both accepted words or
neither did. -/
def Alike (x y : Outcome m α × Bool) : Prop :=
  x.1.Agrees y.1 ∧ x.2 = y.2

-- ============================================================== one node

theorem agrees_atEnd {tree other : Tree m α} (hhandlers : tree.handlers = other.handlers)
    (a b : Line) {s t : Standing m α} (hstanding : s.Agrees t) :
    (tree.atEnd a s).Agrees (other.atEnd b t) where
  execution := by
    rw [execution_atEnd, execution_atEnd, hhandlers, hstanding.bindings, hstanding.weight]
  refusals := by
    rw [refusals_atEnd, refusals_atEnd, isExecutable, hhandlers, hstanding.weight]
    rfl

/-- Nodes with the same handlers are entered alike if they leave the same
words ahead, each behind its own text. -/
theorem agrees_enter {tree other : Tree m α} (hhandlers : tree.handlers = other.handlers)
    {found found' : Outcome m α} (hfound : found.Agrees found') {a b : Line}
    (hahead : (tree.expansion.elim a a.insert).ahead = (other.expansion.elim b b.insert).ahead)
    {s t : Standing m α} (hstanding : s.Agrees t) :
    (tree.enter found a s).Agrees (other.enter found' b t) := by
  refine .entered ?_ hahead hstanding
  unfold Line.isEnd
  rw [hahead]
  split
  · exact hfound.append (agrees_atEnd hhandlers _ _ hstanding)
  · exact hfound

theorem ahead_expansion (tree : Tree m α) {a b : Line} (h : a.ahead = b.ahead) :
    (tree.expansion.elim a a.insert).ahead = (tree.expansion.elim b b.insert).ahead := by
  cases tree.expansion with
  | none => exact h
  | some text => exact congrArg (_ ++ ·) h

/-- A node meets two lines with the same words ahead alike. -/
theorem agrees_arrive {tree : Tree m α}
    (hstandard : ∀ chain, tree.chain = some chain → chain.Standard) {a b : Line}
    (hahead : a.ahead = b.ahead) {s t : Standing m α} (hstanding : s.Agrees t) :
    (tree.arrive a s).Agrees (tree.arrive b t) := by
  have hunder : (s.under tree.handlers).Agrees (t.under tree.handlers) :=
    ⟨hstanding.bindings, hstanding.weight⟩
  unfold arrive
  cases hchain : tree.chain with
  | none => exact agrees_enter rfl ⟨rfl, rfl⟩ (tree.ahead_expansion hahead) hunder
  | some chain =>
      dsimp only
      have hsame := Chain.parse_same (hstandard chain hchain) hahead
      generalize chain.parse a = first at hsame ⊢
      generalize chain.parse b = second at hsame ⊢
      cases hsame with
      | fail shortfall =>
          rw [hunder.weight]
          exact .refused _ ((Outcome.agrees_ofSuggestions _ _ _ _ _ _).append
            (Outcome.agrees_ofRefusal _ _ _ _ _ _))
      | succeed hbindings hconsumed hrest =>
          refine agrees_enter rfl (Outcome.agrees_ofSuggestions _ _ _ _ _ _)
            (tree.ahead_expansion hrest) ⟨?_, ?_⟩
          · exact congrArg₂ (· ++ ·) hunder.bindings hbindings
          · exact congrArg₂ (· + ·) hunder.weight hconsumed

-- =============================================================== the walk

section Walk

variable [Monad m] {context : Context m}

theorem agrees_leftover {tree other : Tree m α} (htree : tree.handlers.fallback = none)
    (hother : other.handlers.fallback = none) {found found' : Outcome m α}
    (hfound : found.Agrees found') {a b : Line} (hahead : a.ahead = b.ahead)
    {s t : Standing m α} (hstanding : s.Agrees t) (accepted : Bool) :
    Alike (context.ask (tree.leftover found a s accepted))
      (context.ask (other.leftover found' b t accepted)) := by
  unfold leftover Line.isEnd Line.current
  rw [htree, hother, hahead, hstanding.weight]
  dsimp only
  split <;> rw [context.ask_pure, context.ask_pure]
  · exact ⟨hfound, rfl⟩
  · exact ⟨hfound.append (Outcome.agrees_ofRefusal _ _ _ _ _ _), rfl⟩

/-- Two nodes with the same handlers and the same children go on alike if
they are met alike, and the children are walked alike. -/
theorem alike_proceed {tree other : Tree m α} (htree : tree.Every (ReadsOnly context))
    (hother : other.Every (ReadsOnly context)) (hnone : tree.handlers.fallback = none)
    (hhandlers : tree.handlers = other.handlers) (hchildren : tree.children = other.children)
    {a b : Line} {s t : Standing m α} (hstanding : s.Agrees t)
    (harrive : (tree.arrive a s).Agrees (other.arrive b t))
    (hbelow : ∀ child ∈ tree.children, ∀ {a b : Line} {s t : Standing m α}, a.ahead = b.ahead →
      s.Agrees t → Alike (context.ask (child.walk a s)) (context.ask (child.walk b t))) :
    Alike (context.ask (tree.proceed a s)) (context.ask (other.proceed b t)) := by
  rcases hfirst : tree.arrive a s with ⟨found, accepted⟩ | ⟨found, behind, handed⟩ <;>
    rcases hsecond : other.arrive b t with ⟨found', accepted'⟩ | ⟨found', behind', handed'⟩ <;>
    rw [hfirst, hsecond] at harrive <;> cases harrive
  case refused.refused.refused hfound =>
    rw [ask_proceed_of_refused context hfirst, ask_proceed_of_refused context hsecond]
    exact ⟨hfound, rfl⟩
  case entered.entered.entered hfound hahead hhanded =>
    have hall := ask_walkAll_of_related context (R := Alike) ⟨⟨rfl, rfl⟩, rfl⟩
      (fun hfirst hrest => ⟨hfirst.1.append hrest.1, congrArg₂ (· || ·) hfirst.2 hrest.2⟩)
      (fun child hchild => htree.child hchild) fun child hchild =>
        hbelow child hchild hahead hhanded
    rw [ask_proceed_of_entered context htree hfirst, ask_proceed_of_entered context hother hsecond,
      ← hchildren, ← hall.2, hstanding.weight, hhanded.weight]
    split
    · exact ⟨hfound.append hall.1, rfl⟩
    · exact agrees_leftover hnone (hhandlers ▸ hnone) (hfound.append hall.1) hahead hhanded _

/-- Lines with the same words ahead are walked alike. -/
theorem alike_walk {tree : Tree m α} (hplain : tree.Every (Plain context)) :
    ∀ {a b : Line} {s t : Standing m α}, a.ahead = b.ahead → s.Agrees t →
      Alike (context.ask (tree.walk a s)) (context.ask (tree.walk b t)) := by
  induction tree using Tree.induction with
  | node tree ih =>
      intro a b s t hahead hstanding
      have hreads : tree.Every (ReadsOnly context) := hplain.imp fun _ hnode => hnode.reads
      cases hopen : context.ask tree.isOpen with
      | false =>
          rw [ask_walk_of_closed context hreads hopen, ask_walk_of_closed context hreads hopen]
          exact ⟨⟨rfl, rfl⟩, rfl⟩
      | true =>
          rw [ask_walk_of_open context hreads hopen, ask_walk_of_open context hreads hopen]
          exact alike_proceed hreads hreads hplain.root.fallback rfl rfl hstanding
            (agrees_arrive (standard_of_plain hplain.root) hahead hstanding)
            fun child hchild => ih child hchild (hplain.child hchild)

end Walk

end Tree

-- ========================================================= the own word

namespace Line

/-- The line of words typed with or without a space behind them. -/
def ofTyped (words : List String) (trailing : Bool) : Line :=
  (ofWords words).withTrailingSpace trailing

/-- The word being completed lies behind the first one if there are other
words, or a space. -/
theorem completion_ofTyped (word : String) {rest : List String} {trailing : Bool}
    (hbehind : rest ≠ [] ∨ trailing = true) :
    ∃ typing, (ofTyped (word :: rest) trailing).completion = some typing ∧ 0 < typing := by
  refine ⟨_, rfl, ?_⟩
  split
  · exact Nat.succ_pos _
  · next hnot => exact List.length_pos_iff.2 (hbehind.resolve_right hnot)

theorem insert_of_le {line : Line} (text : String) {typing : Nat}
    (hcompletion : line.completion = some typing) (h : line.index ≤ typing) :
    line.insert text
      = { line with
          ahead := (ofText text).ahead ++ line.ahead
          completion := some (typing + (ofText text).ahead.length) } := by
  unfold insert
  simp only [hcompletion, Option.map_some, if_pos h]
  rfl

/-- Then the words of a text put in behind the first one and the same
words typed there leave one line. -/
theorem insert_ofTyped (text word : String) {rest : List String} {trailing : Bool}
    (hbehind : rest ≠ [] ∨ trailing = true) :
    ({ ofTyped (word :: rest) trailing with
        passed := (ofTyped (word :: rest) trailing).passed ++ [word], ahead := rest } : Line).insert
        text
      = { ofTyped (word :: ((ofText text).ahead ++ rest)) trailing with
          passed := (ofTyped (word :: ((ofText text).ahead ++ rest)) trailing).passed ++ [word]
          ahead := (ofText text).ahead ++ rest } := by
  obtain ⟨typing, htyping, hpositive⟩ := completion_ofTyped word hbehind
  have hmoved : (ofTyped (word :: ((ofText text).ahead ++ rest)) trailing).completion
      = some (typing + (ofText text).ahead.length) := by
    injection htyping with htyping
    unfold ofTyped withTrailingSpace
    rw [← htyping]
    simp only [ofWords, allWords, List.nil_append, List.length_cons, List.length_append]
    congr 1
    split <;> omega
  refine Eq.trans (insert_of_le text htyping hpositive) ?_
  rw [← hmoved]
  rfl

end Line

/-- A single argument offers nothing for a word behind its own. -/
theorem Chain.suggest_singleton_eq_nil {argument : Argument α}
    (hstandard : argument.reader.Standard) (hswitch : argument.switch = none) {line : Line}
    {word : String} {rest : List String} (hahead : line.ahead = word :: rest) {typing : Nat}
    (hcompletion : line.completion = some typing) (hbehind : line.index < typing) :
    suggest ⟨[argument]⟩ line = [] := by
  have hswitchless : Switchless (⟨[argument]⟩ : Chain α) := List.forall_mem_singleton.2 hswitch
  have hgiven : given ⟨[argument]⟩ (some typing) line = [] := hswitchless.scan_eq_nil _ _ _ _
  have hline := hswitchless.withoutGiven_eq (some typing) line
  rw [hgiven] at hline
  have hflags : ∀ typed, flagSuggestions ⟨[argument]⟩ [] typed = [] := by
    intro typed
    unfold flagSuggestions
    split
    · simp [hswitch]
    · rfl
  have hat : line.atCompletion = false := by
    unfold Line.atCompletion
    rw [hcompletion]
    exact beq_false_of_ne fun h => Nat.ne_of_gt hbehind (Option.some.inj h)
  have hplace : [argument].filter (·.switch.isNone) = [argument] := by
    rw [List.filter_singleton, hswitch]
    rfl
  unfold suggest
  rw [hcompletion]
  dsimp only
  rw [if_neg (Nat.not_lt_of_gt hbehind), hgiven, hline, hplace,
    suggestAmong_cons hahead hat hstandard]
  dsimp only [List.find?_nil]
  rcases argument.reader.readWord word with refusal | value
  · rfl
  · show suggestAmong _ _ [] = []
    rw [suggestAmong, hflags]
    split <;> rfl

namespace Tree

/-- The node without its own text. -/
def bare (tree : Tree m α) : Tree m α :=
  { tree with expansion := none }

section Own

variable {tree : Tree m α} {argument : Argument α} {text : String} (word : String)
  (rest : List String) (trailing : Bool)

/-- Met with its own word, a node with a text and the node without it,
the text typed, find and hand down what agrees. -/
theorem agrees_arrive_bare (hchain : tree.chain = some ⟨[argument]⟩)
    (hstandard : argument.reader.Standard) (hswitch : argument.switch = none)
    (hexpansion : tree.expansion = some text) :
    (tree.arrive (.ofTyped (word :: rest) trailing) {}).Agrees
      (tree.bare.arrive (.ofTyped (word :: ((Line.ofText text).ahead ++ rest)) trailing) {}) := by
  have hbare : tree.bare.chain = some ⟨[argument]⟩ := hchain
  unfold arrive
  rw [hchain, hbare]
  dsimp only
  rw [Chain.parse_singleton hstandard hswitch rfl, Chain.parse_singleton hstandard hswitch rfl]
  rcases argument.reader.readWord word with refusal | value <;> dsimp only
  · exact .refused _ ((Outcome.agrees_ofSuggestions _ _ _ _ _ _).append
      (Outcome.agrees_ofRefusal _ _ _ _ _ _))
  · have hhandlers : tree.handlers = tree.bare.handlers := rfl
    refine agrees_enter hhandlers (Outcome.agrees_ofSuggestions _ _ _ _ _ _) ?_ ⟨rfl, rfl⟩
    rw [hexpansion]
    rfl

/-- Two meetings do not differ in what may be proposed: both are refusals
without a suggestion, or they are one. -/
inductive Arrival.Proposes : Arrival m α → Arrival m α → Prop
  | refused {a b : Outcome m α} (accepted : Bool) : a.suggestions = [] → b.suggestions = [] →
      a.completion = none → b.completion = none →
      Proposes (.refused a accepted) (.refused b accepted)
  | same (arrival : Arrival m α) : Proposes arrival arrival

/-- If the word being completed lies behind, the two meetings do not
differ in what may be proposed either. -/
theorem proposes_arrive_bare (hchain : tree.chain = some ⟨[argument]⟩)
    (hstandard : argument.reader.Standard) (hswitch : argument.switch = none)
    (hexpansion : tree.expansion = some text) (hbehind : rest ≠ [] ∨ trailing = true) :
    (tree.arrive (.ofTyped (word :: rest) trailing) {}).Proposes
      (tree.bare.arrive (.ofTyped (word :: ((Line.ofText text).ahead ++ rest)) trailing) {}) := by
  have hbare : tree.bare.chain = some ⟨[argument]⟩ := hchain
  have hsilent : ∀ words, words ≠ [] ∨ trailing = true →
      Chain.suggest ⟨[argument]⟩ (.ofTyped (word :: words) trailing) = [] := by
    intro words hwords
    obtain ⟨typing, htyping, hpositive⟩ := Line.completion_ofTyped word hwords
    exact Chain.suggest_singleton_eq_nil hstandard hswitch rfl htyping hpositive
  unfold arrive
  rw [hchain, hbare]
  dsimp only
  rw [hsilent _ hbehind, hsilent _ (hbehind.imp_left (List.append_ne_nil_of_right_ne_nil _)),
    Chain.parse_singleton hstandard hswitch rfl, Chain.parse_singleton hstandard hswitch rfl]
  rcases argument.reader.readWord word with refusal | value <;> dsimp only
  · exact .refused _ rfl rfl rfl rfl
  · unfold enter
    rw [hexpansion]
    dsimp only [bare, Option.elim_some, Option.elim_none]
    rw [Line.insert_ofTyped text word hbehind]
    exact .same _

/-- Then going on from the two meetings proposes the same. -/
theorem proposed_of_proposes [Monad m] {context : Context m} {a b : Line} {s t : Standing m α}
    (h : (tree.arrive a s).Proposes (tree.bare.arrive b t)) (hweight : s.weight = t.weight) :
    (context.ask (tree.proceed a s)).1.suggestions
        = (context.ask (tree.bare.proceed b t)).1.suggestions
      ∧ (context.ask (tree.proceed a s)).1.completion
        = (context.ask (tree.bare.proceed b t)).1.completion := by
  generalize hfirst : tree.arrive a s = first at h
  generalize hsecond : tree.bare.arrive b t = second at h
  cases h with
  | refused accepted hgroups hgroups' hnone hnone' =>
      rw [ask_proceed_of_refused context hfirst, ask_proceed_of_refused context hsecond]
      exact ⟨hgroups.trans hgroups'.symm, hnone.trans hnone'.symm⟩
  | same =>
      have hsame : (tree.proceed a s : m (Outcome m α × Bool)) = tree.bare.proceed b t := by
        unfold proceed
        rw [hfirst, hsecond, hweight]
        rfl
      rw [hsame]
      exact ⟨rfl, rfl⟩

/-- A node with a text of its own is left with what the same node without
it is left with when the text is typed behind its word: the same handler
is executed with the same arguments and the same weight, and the same is
refused. Behind the word, the same is proposed too. -/
theorem parse_expansion [Monad m] {context : Context m} {node : Spec.Node} {chain : Chain α}
    (hbuilt : Chain.ofNodes .standard [node] = .ok chain)
    (hswitch : node.parameters.get? "switch" = none) (hchain : tree.chain = some chain)
    (hexpansion : tree.expansion = some text) (hplain : tree.Every (Plain context)) :
    let expanded := context.ask (tree.parse (.ofTyped (word :: rest) trailing))
    let written := context.ask
      (tree.bare.parse (.ofTyped (word :: ((Line.ofText text).ahead ++ rest)) trailing))
    expanded.execution = written.execution ∧ expanded.refusals = written.refusals
      ∧ (rest ≠ [] ∨ trailing = true →
          expanded.suggestions = written.suggestions
            ∧ expanded.completion = written.completion) := by
  obtain ⟨argument, rfl, -, hargument⟩ := Chain.exists_of_ofNodes_singleton hbuilt
  rw [hswitch] at hargument
  have hstandard : argument.reader.Standard :=
    Chain.standard_of_ofNodes hbuilt argument (List.mem_singleton_self _)
  have hreads : tree.Every (ReadsOnly context) := hplain.imp fun _ hnode => hnode.reads
  have hbare : tree.bare.Every (ReadsOnly context) :=
    every_iff.2 ⟨⟨hreads.root.guard, hreads.root.fallback⟩, fun child hchild => hreads.child hchild⟩
  intro expanded written
  have hexpanded : expanded = _ := ask_parse context hreads _
  have hwritten : written = _ := ask_parse context hbare _
  rw [hexpanded, hwritten]
  cases hopen : context.ask tree.isOpen with
  | false =>
      have hclosed : context.ask tree.bare.isOpen = false := hopen
      rw [ask_walk_of_closed context hreads hopen, ask_walk_of_closed context hbare hclosed]
      exact ⟨rfl, rfl, fun _ => ⟨rfl, rfl⟩⟩
  | true =>
      have hentered : context.ask tree.bare.isOpen = true := hopen
      rw [ask_walk_of_open context hreads hopen, ask_walk_of_open context hbare hentered]
      have halike := alike_proceed hreads hbare hplain.root.fallback rfl rfl ⟨rfl, rfl⟩
        (agrees_arrive_bare word rest trailing hchain hstandard hargument hexpansion)
        fun child hchild => alike_walk (hplain.child hchild)
      refine ⟨halike.1.execution, halike.1.refusals, fun hbehind => ?_⟩
      exact proposed_of_proposes
        (proposes_arrive_bare word rest trailing hchain hstandard hargument hexpansion hbehind) rfl

end Own

/-- A short way to write a command and the flag of its switch, below which
the command is behind a guard. -/
def shortcut : Tree (ReaderM Bool) Unit :=
  let chain (spec : String) : Chain Unit := (Chain.ofSpec .standard spec).toOption.getD ⟨[]⟩
  { chain := some (chain "tp"), expansion := some "teleport -n"
    children :=
      [{ chain := some (chain "teleport @int home|hut(switch=n,required=false)")
         handlers :=
          { execute := some fun _ => pure (.ok ()), guard := some fun isOpen => isOpen } }] }

/-- The flag that is put in takes the word behind the short one, on a line
that is executed and on one that is being completed. -/
theorem shortcut_parse_expansion :
    let context := Context.reader true
    let expanded (words : List String) :=
      context.ask (shortcut.parse (.ofTyped ("tp" :: words) false))
    let written (words : List String) :=
      context.ask (shortcut.bare.parse
        (.ofTyped ("tp" :: ((Line.ofText "teleport -n").ahead ++ words)) false))
    shortcut.Every (Plain context)
      ∧ (expanded ["home", "12"]).execution = (written ["home", "12"]).execution
      ∧ (expanded ["home", "12"]).execution.map (·.weight) = some 5
      ∧ (expanded ["h"]).suggestions = (written ["h"]).suggestions
      ∧ (expanded ["h"]).suggestions.flatMap SuggestionGroup.values = ["home", "hut"] := by
  intro context expanded written
  have hown : Spec.nodes "tp" = [⟨"tp", ∅⟩] := by decide +kernel
  have hbuilt : Chain.ofNodes .standard [⟨"tp", ∅⟩]
      = .ok ((Chain.ofSpec .standard "tp").toOption.getD (⟨[]⟩ : Chain Unit)) := by
    rw [← hown]
    exact Chain.ofNodes_of_isOk (by decide +kernel)
  have hplain : shortcut.Every (Plain context) := by
    refine every_iff.2 ⟨⟨readsOnly_of_none context rfl rfl, rfl, ?_⟩,
      List.forall_mem_singleton.2 ?_⟩
    · rintro chain ⟨⟩
      exact ⟨_, hbuilt⟩
    · refine every_iff.2 ⟨⟨⟨fun guard _ => trivial, ?_⟩, rfl, ?_⟩, List.forall_mem_nil _⟩
      · rintro fallback ⟨⟩
      rintro chain ⟨⟩
      exact ⟨_, Chain.ofNodes_of_isOk (by decide +kernel)⟩
  have hsame := fun words => parse_expansion "tp" words false hbuilt rfl rfl rfl hplain
  exact ⟨hplain, (hsame _).1, by decide +kernel, ((hsame ["h"]).2.2 (.inl (by simp))).1,
    by decide +kernel⟩

end Tree

end CommandGrammar
