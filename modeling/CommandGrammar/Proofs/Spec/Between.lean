/-
Between two nodes the scanner holds nothing of what it has read but the nodes
themselves. So a spec with a space or a tab behind it is read as if it ended
there, and what stands behind as if it stood alone (`nodes_apart`), unless a
list is still open.

What the scanner may hold depends on the stage, and `Tidy` says at each stage
what is gone by then: a value when a key begins, a backslash when its character
was taken, and when a node is complete all that it was made of. Every character
keeps this (`Tidy.feed`), so it holds after every text (`Tidy.scan`), and a
separator outside a list leaves the scanner as it was before the spec, but for
the nodes (`feed_separator`) and for the quote of the last quoted value. That
one is not asked for before another quoted value replaces it.
-/
import CommandGrammar.Proofs.Spec.Scanner

namespace CommandGrammar.Spec

open Text

namespace Scanner

variable {s : Scanner}

-- ========================================================= what may be held

/-- What the scanner does not hold any more, stage by stage. -/
inductive Tidy (s : Scanner) : Prop
  /-- In a name, or before one: an entry, or parameters. -/
  | name : s.stage = .name → s.Clean → s.parameters = ∅ → Tidy s
  /-- In a key: the value of the entry before. -/
  | key : s.stage = .key → s.value = [] → s.escaped = false → Tidy s
  /-- In a value that is not quoted: a backslash. -/
  | value : s.stage = .value → s.escaped = false → Tidy s
  /-- Between quotes there may be all of it. -/
  | quoted : s.stage = .quoted → Tidy s
  /-- Behind the closing quote: a backslash. -/
  | behindQuote : s.stage = .behindQuote → s.escaped = false → Tidy s
  /-- Just behind a list: its node. -/
  | closed : s.stage = .closed → s.Clean → s.parameters = ∅ → s.name = [] → Tidy s

/-- Where an entry ends nothing is left of it, whatever was held. -/
theorem tidy_endEntry (s : Scanner) (quoted : Bool) (c : Char) : (s.endEntry quoted c).Tidy := by
  unfold endEntry
  split
  · exact .key rfl rfl rfl
  · exact .closed rfl ⟨rfl, rfl, rfl⟩ rfl rfl

theorem tidy_inName (h : s.stage = .name) (hclean : s.Clean) (hparameters : s.parameters = ∅)
    (c : Char) : (s.inName c).Tidy := by
  unfold inName
  split
  · exact .name h ⟨hclean.key, hclean.value, hclean.escaped⟩ rfl
  · split
    · exact .key rfl hclean.value hclean.escaped
    · exact .name h ⟨hclean.key, hclean.value, hclean.escaped⟩ hparameters

theorem tidy_inKey (h : s.stage = .key) (hvalue : s.value = []) (hescaped : s.escaped = false)
    (c : Char) : (s.inKey c).Tidy := by
  unfold inKey
  split
  · exact .value rfl hescaped
  · split
    · exact .key h hvalue hescaped
    · exact tidy_endEntry s false c

theorem tidy_inValue (h : s.stage = .value) (hescaped : s.escaped = false) (c : Char) :
    (s.inValue c).Tidy := by
  unfold inValue
  split
  · exact .quoted rfl
  · split
    · exact .value h hescaped
    · exact tidy_endEntry s false c

/-- A backslash is never left behind the closing quote: the quote would be the
character that it takes. -/
theorem tidy_inQuotes (h : s.stage = .quoted) (c : Char) : (s.inQuotes c).Tidy := by
  unfold inQuotes
  split
  · exact .quoted h
  · next hescaped =>
    split
    · exact .quoted h
    · split
      · exact .behindQuote rfl (eq_false_of_ne_true hescaped)
      · exact .quoted h

/-- One character keeps a scanner tidy. -/
theorem Tidy.feed (h : s.Tidy) (c : Char) : (s.feed c).Tidy := by
  unfold Scanner.feed
  cases h with
  | name hstage hclean hparameters =>
      rw [hstage]
      exact tidy_inName hstage hclean hparameters c
  | key hstage hvalue hescaped =>
      rw [hstage]
      exact tidy_inKey hstage hvalue hescaped c
  | value hstage hescaped =>
      rw [hstage]
      exact tidy_inValue hstage hescaped c
  | quoted hstage =>
      rw [hstage]
      exact tidy_inQuotes hstage c
  | behindQuote hstage hescaped =>
      rw [hstage]
      dsimp only
      split
      · exact .behindQuote hstage hescaped
      · exact tidy_endEntry s true c
  | closed hstage hclean hparameters _ =>
      have hclean : ({ s with stage := .name } : Scanner).Clean :=
        ⟨hclean.key, hclean.value, hclean.escaped⟩
      rw [hstage]
      dsimp only
      split
      · exact .name rfl hclean hparameters
      · exact tidy_inName rfl hclean hparameters c

/-- So does a text. -/
theorem Tidy.scan (h : s.Tidy) (text : List Char) : (s.scan text).Tidy := by
  induction text generalizing s with
  | nil => exact h
  | cons c rest ih => exact ih (h.feed c)

/-- A text is read part by part. -/
theorem scan_append (s : Scanner) (text more : List Char) :
    s.scan (text ++ more) = (s.scan text).scan more :=
  List.foldl_append

/-- The scanner before a spec. -/
def start : Scanner := { stage := .name }

theorem tidy_start : start.Tidy :=
  .name rfl ⟨rfl, rfl, rfl⟩ rfl

theorem nodes_eq_start (spec : String) : Spec.nodes spec = (start.scan spec.toList).finish.nodes :=
  nodes_eq_scan spec

-- =========================================================== between nodes

/-- Where a node is complete, of a clean scanner only the nodes and the quote
of a value before are left. -/
theorem emit_of_clean (h : s.Clean) :
    s.emit = { stage := s.stage, quote := s.quote, nodes := s.emit.nodes } := by
  obtain ⟨hkey, hvalue, hescaped⟩ := h
  cases s
  subst hkey hvalue hescaped
  rfl

/-- A separator outside a list leaves the nodes that the end of the text would
have completed. -/
theorem feed_separator (h : s.Tidy) (houtside : s.stage = .name ∨ s.stage = .closed) {c : Char}
    (hc : isSeparator c = true) :
    s.feed c = { stage := .name, quote := s.quote, nodes := s.finish.nodes } := by
  cases h with
  | name hstage hclean _ =>
      have hfeed : s.feed c = s.emit := by
        rw [feed, hstage]
        exact if_pos hc
      have hfinish : s.finish = s.emit := by rw [finish, hstage]
      rw [hfeed, hfinish, ← hstage]
      exact emit_of_clean hclean
  | closed hstage hclean hparameters hname =>
      have hfeed : s.feed c = { s with stage := .name } := by
        rw [feed, hstage]
        exact if_pos hc
      have hemit : s.emit = s := emit_of_nothing hname hparameters
      have hfinish : s.finish = s.emit := by rw [finish, hstage]
      rw [hfeed, hfinish]
      conv_lhs => rw [← hemit, emit_of_clean hclean]
  -- within a list the stage is another one
  | key hstage => simp [hstage] at houtside
  | value hstage => simp [hstage] at houtside
  | quoted hstage => simp [hstage] at houtside
  | behindQuote hstage => simp [hstage] at houtside

/-- From there a spec is read as it is read alone, whatever the quote. -/
theorem nodes_scan_separated (quote : Char) (before : List Node) (spec : String) :
    (({ stage := .name, quote, nodes := before } : Scanner).scan spec.toList).finish.nodes
      = before ++ Spec.nodes spec :=
  nodes_scan rfl ⟨rfl, rfl, rfl⟩ rfl rfl (List.forall_mem_nil _) spec.toList

end Scanner

/-- A spec that does not end in an open list may be followed by a space or a
tab and by any other spec: the nodes are those of the one and of the other.
Whatever was read on the way, behind the separator the scanner holds the nodes
of the first spec and no name, key, value, backslash or parameters. -/
theorem nodes_apart {a : String}
    (h : (Scanner.start.scan a.toList).stage = .name
      ∨ (Scanner.start.scan a.toList).stage = .closed) (b : String) :
    nodes (a ++ " " ++ b) = nodes a ++ nodes b
      ∧ nodes (a ++ "\t" ++ b) = nodes a ++ nodes b
      ∧ ∀ c, isSeparator c = true →
        ∃ quote, Scanner.start.scan (a.toList ++ [c])
          = { stage := .name, quote, nodes := nodes a } := by
  have hseparated : ∀ c, isSeparator c = true →
      ∃ quote, Scanner.start.scan (a.toList ++ [c])
        = { stage := .name, quote, nodes := nodes a } := by
    intro c hc
    refine ⟨(Scanner.start.scan a.toList).quote, ?_⟩
    rw [Scanner.nodes_eq_start, Scanner.scan_append]
    exact Scanner.feed_separator (Scanner.tidy_start.scan _) h hc
  have hjoined : ∀ (c : Char) (between : String), between.toList = [c] → isSeparator c = true →
      nodes (a ++ between ++ b) = nodes a ++ nodes b := by
    intro c between hbetween hc
    obtain ⟨quote, hscan⟩ := hseparated c hc
    rw [Scanner.nodes_eq_start, String.toList_append, String.toList_append, hbetween,
      Scanner.scan_append, hscan]
    exact Scanner.nodes_scan_separated quote (nodes a) b
  exact ⟨hjoined ' ' " " rfl (by decide), hjoined '\t' "\t" rfl (by decide), hseparated⟩

/-- A stray quote, an entry without a key, a backslash before a quote, a node
glued to a list and a list without a name, and all of it stays in its place. -/
theorem knotty_nodes_apart :
    let knotty := "it's(=v,say='a\\'b'zz\"c,)next (n=1)"
    let other := "to(k='x' y)"
    (Scanner.start.scan knotty.toList).stage = .closed
      ∧ nodes (knotty ++ " " ++ other) = nodes knotty ++ nodes other
      ∧ nodes (knotty ++ "\t" ++ other) = nodes knotty ++ nodes other
      ∧ (∃ quote, Scanner.start.scan (knotty.toList ++ ['\t'])
        = { stage := .name, quote, nodes := nodes knotty })
      ∧ nodes knotty = [⟨"it's", .ofList [("say", "a'b")]⟩, ⟨"next", ∅⟩, ⟨"", .ofList [("n", "1")]⟩]
      ∧ nodes other = [⟨"to", .ofList [("k", "x")]⟩] := by
  intro knotty other
  have hclosed : (Scanner.start.scan knotty.toList).stage = .closed := by decide +kernel
  obtain ⟨hspace, htab, hheld⟩ := nodes_apart (Or.inr hclosed) other
  exact ⟨hclosed, hspace, htab, hheld '\t' (by decide), by decide +kernel, by decide +kernel⟩

end CommandGrammar.Spec
