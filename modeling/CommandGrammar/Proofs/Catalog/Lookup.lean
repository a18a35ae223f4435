/-
Looking a command up. Registering keeps the names of different commands
apart and takes no empty one (`Registered.named`), so every name of a
command finds its tree (`find?_of_mem`). The catalog splits the whole text
and drops the first word. A plain name is that word, and the space behind
it belongs to the separators in front of the others; so the words left, and
whether a space ends them, are those of the text behind the name, and the
tree is matched against the line of that text under the name
(`parse_behind_name`).

Under which of its names a command is looked up shows in that label only;
and where there are no fallbacks, nothing but a report tells of the label.
-/
import CommandGrammar.Catalog
import CommandGrammar.Proofs.Line.Words
import CommandGrammar.Proofs.Tree.Label

namespace CommandGrammar

open Text

variable {m : Type → Type} {α : Type}

-- ================================================================ the line

/-- A plain name and a space go in front of the line of a text as one more
word. -/
theorem Line.ofText_behind_name {name rest : String} (hname : Plain name) (hrest : rest ≠ "") :
    ofText (name ++ " " ++ rest)
      = (ofWords (name :: (ofText rest).ahead)).withTrailingSpace (ofText rest).trailingSpace := by
  have htext : (name ++ " " ++ rest).toList = name.toList ++ ' ' :: rest.toList := by
    rw [String.toList_append, String.toList_append, List.append_assoc]
    rfl
  have hgap : words (' ' :: rest.toList) = words rest.toList :=
    words_of_separators (List.forall_mem_singleton.2 (by decide))
      fun hnil => hrest (String.toList_eq_nil_iff.1 hnil)
  have hsplit : words (name ++ " " ++ rest).toList
      = (words rest.toList).map (name.toList :: ·) id := by
    rw [htext, words_of_plain hname (ends_cons (by decide) _), hgap]
  show (ofWords ((words _).1.map String.ofList)).withTrailingSpace (words _).2
    = (ofWords (name :: (words rest.toList).1.map String.ofList)).withTrailingSpace
      (words rest.toList).2
  rw [hsplit, Prod.map_fst, Prod.map_snd, List.map_cons, String.ofList_toList]
  rfl

namespace Catalog

-- =============================================================== the names

/-- The catalogs that are reached by registering commands and changing their
trees. -/
inductive Registered : Catalog m α → Prop
  | empty : Registered {}
  | register {catalog : Catalog m α} (names : String) :
      Registered catalog → Registered (catalog.register names).1
  | changeTree {catalog : Catalog m α} (place : Nat) (change : Tree m α → Tree m α) :
      Registered catalog → Registered (catalog.changeTree place change)

/-- No name is empty, and no two commands share one. -/
structure Named (catalog : Catalog m α) : Prop where
  nonempty : ∀ names ∈ catalog.commands.map Command.names, "" ∉ names
  apart : (catalog.commands.map Command.names).Pairwise List.Disjoint

theorem empty_notMem_namesOf (text : String) : "" ∉ namesOf text := by
  intro h
  obtain ⟨name, hname, hempty⟩ := List.mem_map.1 h
  have hnil : name = [] := by
    rw [← String.toList_ofList (l := name), hempty]
    rfl
  rw [hnil] at hname
  exact absurd (List.mem_filter.1 hname).2 (by decide)

theorem map_names_changeTree (catalog : Catalog m α) (place : Nat)
    (change : Tree m α → Tree m α) :
    (catalog.changeTree place change).commands.map Command.names
      = catalog.commands.map Command.names := by
  refine List.ext_getElem? fun i => ?_
  show ((catalog.commands.modify place _).map Command.names)[i]? = _
  rw [List.getElem?_map, List.getElem?_modify, List.getElem?_map]
  cases catalog.commands[i]? with
  | none => rfl
  | some command =>
      show some (Command.names (if place = i then _ else _)) = _
      split <;> rfl

theorem Named.register {catalog : Catalog m α} (h : catalog.Named) (text : String) :
    (catalog.register text).1.Named := by
  unfold Catalog.register
  dsimp only
  split
  case h_1 place hplace => exact h
  case h_2 hnone =>
    -- none of the names belongs to a command registered before
    have hfresh : ∀ names ∈ catalog.commands.map Command.names,
        names.Disjoint (namesOf text) := by
      intro names hnames name hname hother
      obtain ⟨command, hcommand, rfl⟩ := List.mem_map.1 hnames
      have hno := List.findIdx?_eq_none_iff.1 hnone command hcommand
      rw [List.any_eq_false] at hno
      exact hno name hname (List.contains_iff_mem.2 hother)
    constructor
    case nonempty =>
      rw [List.map_append]
      intro names hnames
      rcases List.mem_append.1 hnames with hnames | hnames
      · exact h.nonempty names hnames
      · rw [List.mem_singleton.1 hnames]
        exact empty_notMem_namesOf text
    case apart =>
      rw [List.map_append, List.pairwise_append]
      exact ⟨h.apart, List.pairwise_singleton _ _, fun names hnames others hothers =>
        List.mem_singleton.1 hothers ▸ hfresh names hnames⟩

theorem Registered.named {catalog : Catalog m α} (h : catalog.Registered) : catalog.Named := by
  induction h with
  | empty => exact ⟨nofun, List.Pairwise.nil⟩
  | register names _ ih => exact ih.register names
  | changeTree place change _ ih =>
      constructor <;> rw [map_names_changeTree]
      · exact ih.nonempty
      · exact ih.apart

/-- Every name of a command finds its tree. -/
theorem Named.find?_of_mem {catalog : Catalog m α} (h : catalog.Named) {command : Command m α}
    (hcommand : command ∈ catalog.commands) {name : String} (hname : name ∈ command.names) :
    catalog.find? name = some command.tree := by
  obtain ⟨commands⟩ := catalog
  have hfind : commands.find? (·.names.contains name) = some command := by
    have hapart : (commands.map Command.names).Pairwise List.Disjoint := h.apart
    clear h
    induction commands with
    | nil => cases hcommand
    | cons first rest ih =>
        obtain ⟨hfirst, hrest⟩ := List.pairwise_cons.1 hapart
        rcases List.mem_cons.1 hcommand with rfl | hcommand
        · exact List.find?_cons_of_pos (List.contains_iff_mem.2 hname)
        · have hother : name ∉ first.names := fun hmem =>
            hfirst _ (List.mem_map_of_mem hcommand) hmem hname
          rw [List.find?_cons_of_neg (by simpa using hother)]
          exact ih hcommand hrest
  exact congrArg (Option.map Command.tree) hfind

-- ============================================================== the lookup

variable [Monad m]

theorem parse_of_find? {catalog : Catalog m α} {name rest : String} {tree : Tree m α}
    (hfind : catalog.find? name = some tree) (hname : Line.Plain name) (hrest : rest ≠ "") :
    catalog.parse (name ++ " " ++ rest) = tree.parse ((Line.ofText rest).withLabel name) := by
  have hline := Line.ofText_behind_name hname hrest
  have hcurrent : (Line.ofText (name ++ " " ++ rest)).current = name := by rw [hline]; rfl
  unfold parse
  simp only [hcurrent, hfind]
  rw [hline]
  rfl

/-- Looking a command up does not change how its arguments match. Behind any
of its names that is written without separators, quotes and backslashes, a
text that is not empty is matched as the tree matches the text itself, under
that name. Under two of them the outcomes differ at most in the input text
of the report, if the tree has no fallback and reads arguments of the
standard kinds, or of others that never match against the label. -/
theorem parse_behind_name {catalog : Catalog m α} (hregistered : catalog.Registered)
    {command : Command m α} (hcommand : command ∈ catalog.commands) {rest : String}
    (hrest : rest ≠ "") :
    let plain (name : String) : Prop :=
      ∀ c ∈ name.toList, isSeparator c = false ∧ isQuote c = false ∧ c ≠ '\\'
    (∀ name ∈ command.names, plain name →
      catalog.find? name = some command.tree
        ∧ catalog.parse (name ++ " " ++ rest)
          = command.tree.parse ((Line.ofText rest).withLabel name))
      ∧ ∀ context : Context m, command.tree.Every (Tree.ReadsOnly context) →
        (command.tree.Every fun node => node.handlers.fallback = none) →
        (command.tree.Every fun node => ∀ chain, node.chain = some chain →
          (∃ nodes, Chain.ofNodes .standard nodes = .ok chain) ∨ chain.IgnoresLabel) →
        ∀ name ∈ command.names, ∀ other ∈ command.names, plain name → plain other →
          ∀ input, (context.ask (catalog.parse (name ++ " " ++ rest))).withInput input
            = (context.ask (catalog.parse (other ++ " " ++ rest))).withInput input := by
  intro plain
  have hnamed := hregistered.named
  have hnonempty : "" ∉ command.names := hnamed.nonempty _ (List.mem_map_of_mem hcommand)
  have hlookup : ∀ name ∈ command.names, plain name →
      catalog.parse (name ++ " " ++ rest)
        = command.tree.parse ((Line.ofText rest).withLabel name) := fun name hname hplain =>
    parse_of_find? (hnamed.find?_of_mem hcommand hname)
      ⟨fun hempty => hnonempty (hempty ▸ hname), hplain⟩ hrest
  refine ⟨fun name hname hplain => ⟨hnamed.find?_of_mem hcommand hname, hlookup name hname hplain⟩,
    fun context hreads hnone hkinds name hname other hother hplain hplain' input => ?_⟩
  have hlabel : command.tree.Every Tree.IgnoresLabel := hkinds.imp fun node hnode chain hchain =>
    (hnode chain hchain).elim (fun ⟨_, hbuilt⟩ => Chain.ignoresLabel_of_ofNodes hbuilt) id
  rw [hlookup name hname hplain, hlookup other hother hplain',
    Tree.parse_withLabel _ _ hreads hnone hlabel, Tree.parse_withLabel _ _ hreads hnone hlabel]

/-- A tree that asks for a name and a number behind a guard. -/
def travel : Tree (ReaderM Bool) Unit :=
  { handlers := { report := some fun _ => pure (.ok ()) }
    children :=
      [{ chain := some ((Chain.ofSpec .standard "@string @int").toOption.getD ⟨[]⟩)
         handlers :=
          { execute := some fun _ => pure (.ok ())
            guard := some fun isOpen => isOpen } }] }

/-- A catalog that knows it under two names. -/
def journeys : Catalog (ReaderM Bool) Unit :=
  ((Catalog.register {} "list").1.register " warp | w |").1.changeTree 1 fun _ => travel

/-- A quoted name and a word with an escaped space, which is no number, are
refused alike under both names; the reports show the name used. -/
theorem journeys_parse_behind_name :
    let context := Context.reader true
    let rest := "'the end' x\\ y"
    ∃ command ∈ journeys.commands, command.names = ["warp", "w"]
      ∧ journeys.find? "w" = some command.tree
      ∧ journeys.parse ("w" ++ " " ++ rest) = command.tree.parse ((Line.ofText rest).withLabel "w")
      ∧ (∀ input, (context.ask (journeys.parse ("warp" ++ " " ++ rest))).withInput input
        = (context.ask (journeys.parse ("w" ++ " " ++ rest))).withInput input)
      ∧ ((context.ask (journeys.parse ("warp" ++ " " ++ rest))).report.map Report.input,
          (context.ask (journeys.parse ("w" ++ " " ++ rest))).report.map Report.input)
        = (some "warp the end x y", some "w the end x y") := by
  intro context rest
  have hregistered : journeys.Registered := .changeTree _ _ (.register _ (.register _ .empty))
  have hcommand : ⟨["warp", "w"], travel⟩ ∈ journeys.commands :=
    List.mem_of_getElem? (show journeys.commands[1]? = _ from rfl)
  have hall : (["warp", "w"].all fun name => name.toList.all fun c =>
      decide (isSeparator c = false ∧ isQuote c = false ∧ c ≠ '\\')) = true := by decide +kernel
  have hplain : ∀ name ∈ ["warp", "w"], ∀ c ∈ name.toList,
      isSeparator c = false ∧ isQuote c = false ∧ c ≠ '\\' := fun name hname c hc =>
    of_decide_eq_true (List.all_eq_true.1 (List.all_eq_true.1 hall name hname) c hc)
  have hbuilt : ∃ nodes, Chain.ofNodes .standard nodes
      = .ok ((Chain.ofSpec .standard "@string @int").toOption.getD (⟨[]⟩ : Chain Unit)) :=
    ⟨_, Chain.ofNodes_of_isOk (by decide +kernel)⟩
  have htravel : travel.Every fun node => Tree.ReadsOnly context node
      ∧ node.handlers.fallback = none
      ∧ ∀ chain, node.chain = some chain → ∃ nodes, Chain.ofNodes .standard nodes = .ok chain := by
    refine Tree.every_iff.2 ⟨⟨⟨nofun, nofun⟩, rfl, nofun⟩, List.forall_mem_singleton.2 ?_⟩
    refine Tree.every_iff.2 ⟨⟨⟨fun _ _ => trivial, nofun⟩, rfl, ?_⟩, List.forall_mem_nil _⟩
    rintro chain ⟨⟩
    exact hbuilt
  obtain ⟨hlookup, hsame⟩ := parse_behind_name hregistered hcommand (by decide : rest ≠ "")
  obtain ⟨hfind, hparse⟩ := hlookup "w" (by decide) (hplain "w" (by decide))
  refine ⟨_, hcommand, rfl, hfind, hparse, ?_, by decide +kernel⟩
  exact hsame context (htravel.imp fun _ h => h.1) (htravel.imp fun _ h => h.2.1)
    (htravel.imp fun _ h chain hchain => .inl (h.2.2 chain hchain)) "warp" (by decide) "w"
    (by decide) (hplain "warp" (by decide)) (hplain "w" (by decide))

end Catalog

end CommandGrammar
