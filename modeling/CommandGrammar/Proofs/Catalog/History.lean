/-
Histories of registration. A call lists names and is given a tree: that of
the first command with one of the names, or of a new command behind all
others (`register_cases`). Nothing is taken out, moved or renamed, so the
lists of names only grow at the end (`prefix_lists`), and whatever name
finds a command finds it ever after (`place?_enterAll`); that is what makes
the answers of `registrations_settle` last.

A known name makes the call reuse its command and enter nothing. The names
listed beside it that nobody knows are dropped: `listed_found_iff` says that
exactly these are not found at the place that the call returned, and that a
name is found at all exactly if it was listed in a call that knew none of
its names. `alias_dropped` is the shortest history that loses an alias.
-/
import CommandGrammar.Proofs.Catalog.Lookup

namespace CommandGrammar

open Text

variable {m : Type → Type} {α : Type}

/-- A command has one of some names. -/
def Command.Shares (command : Command m α) (names : List String) : Prop :=
  ∃ name ∈ names, name ∈ command.names

/-- A call that registers a command, and what its caller makes of the tree. -/
structure Registration (m : Type → Type) (α : Type) where
  /-- The names, parted by bars. -/
  names : String
  /-- What becomes of the tree that the call returns. -/
  change : Tree m α → Tree m α := id

namespace Catalog

/-- The place of the first command that has a name. -/
def place? (catalog : Catalog m α) (name : String) : Option Nat :=
  catalog.commands.findIdx? (·.names.contains name)

/-- The catalog after a call. -/
def enter (catalog : Catalog m α) (call : Registration m α) : Catalog m α :=
  (catalog.register call.names).1.changeTree (catalog.register call.names).2 call.change

/-- The catalog after several calls. -/
def enterAll (catalog : Catalog m α) (calls : List (Registration m α)) : Catalog m α :=
  calls.foldl enter catalog

/-- The names of each command. -/
def lists (catalog : Catalog m α) : List (List String) :=
  catalog.commands.map Command.names

-- ============================================================= the places

section Place

variable {catalog : Catalog m α} {name : String} {place : Nat}

/-- The tree of a name is the one at its place. -/
theorem find?_eq_treeAt? (catalog : Catalog m α) (name : String) :
    catalog.find? name = (catalog.place? name).bind catalog.treeAt? := by
  unfold find? place? treeAt?
  rw [List.find?_eq_bind_findIdx?_getElem?, Option.map_bind]
  rfl

theorem place?_eq_findIdx? (catalog : Catalog m α) (name : String) :
    catalog.place? name = catalog.lists.findIdx? (·.contains name) :=
  (List.findIdx?_map ..).symm

theorem place?_eq_none_iff :
    catalog.place? name = none ↔ ∀ command ∈ catalog.commands, name ∉ command.names := by
  simp [place?, List.findIdx?_eq_none_iff]

theorem find?_eq_none_iff : catalog.find? name = none ↔ catalog.place? name = none := by
  rw [find?, Option.map_eq_none_iff, List.find?_eq_none, place?_eq_none_iff]
  simp only [List.contains_iff_mem]

/-- A name is listed at its place. -/
theorem mem_of_place? (h : catalog.place? name = some place) :
    ∃ names, catalog.lists[place]? = some names ∧ name ∈ names := by
  rw [place?_eq_findIdx?] at h
  obtain ⟨hlt, hmem, -⟩ := List.findIdx?_eq_some_iff_getElem.1 h
  exact ⟨_, List.getElem?_eq_getElem hlt, List.contains_iff_mem.1 hmem⟩

/-- Where names are kept apart it is listed nowhere else. -/
theorem Named.place_eq (h : catalog.Named) {i j : Nat} {first second : List String}
    (hfirst : catalog.lists[i]? = some first) (hsecond : catalog.lists[j]? = some second)
    (hi : name ∈ first) (hj : name ∈ second) : i = j := by
  have hapart := List.pairwise_iff_getElem.1 h.apart
  obtain ⟨hilt, rfl⟩ := List.getElem?_eq_some_iff.1 hfirst
  obtain ⟨hjlt, rfl⟩ := List.getElem?_eq_some_iff.1 hsecond
  rcases Nat.lt_trichotomy i j with hlt | heq | hgt
  · exact absurd hj (hapart i j hilt hjlt hlt hi)
  · exact heq
  · exact absurd hi (hapart j i hjlt hilt hgt hj)

theorem Named.place?_of_mem (h : catalog.Named) {names : List String}
    (hplace : catalog.lists[place]? = some names) (hname : name ∈ names) :
    catalog.place? name = some place := by
  cases hfound : catalog.place? name with
  | none =>
      obtain ⟨command, hcommand, rfl⟩ := List.mem_map.1 (List.mem_of_getElem? hplace)
      exact absurd hname (place?_eq_none_iff.1 hfound command hcommand)
  | some other =>
      obtain ⟨others, hothers, hmem⟩ := mem_of_place? hfound
      rw [h.place_eq hothers hplace hmem hname]

end Place

-- =============================================================== one call

theorem mem_namesOf_iff {text name : String} :
    name ∈ namesOf text ↔ name ≠ "" ∧ ∃ part ∈ alternatives text, trim part = name.toList := by
  unfold namesOf
  rw [List.mem_map]
  constructor
  · rintro ⟨chars, hchars, rfl⟩
    obtain ⟨hmem, hne⟩ := List.mem_filter.1 hchars
    obtain ⟨part, hpart, rfl⟩ := List.mem_map.1 hmem
    refine ⟨fun hempty => ?_, part, hpart, String.toList_ofList.symm⟩
    rw [← String.toList_eq_nil_iff, String.toList_ofList] at hempty
    rw [hempty] at hne
    cases hne
  · rintro ⟨hne, part, hpart, htrim⟩
    refine ⟨trim part, List.mem_filter.2 ⟨List.mem_map_of_mem hpart, ?_⟩, ?_⟩
    · rw [htrim]
      simpa using hne
    · rw [htrim, String.ofList_toList]

/-- What a call does: it returns the first command that shares one of its
names and leaves the catalog, or it puts a command with all of them behind
the others and returns that. -/
theorem register_cases (catalog : Catalog m α) (text : String) :
    (∃ place command, catalog.register text = (catalog, place)
        ∧ catalog.commands[place]? = some command ∧ command.Shares (namesOf text)
        ∧ ∀ i < place, ∀ earlier, catalog.commands[i]? = some earlier →
            ¬earlier.Shares (namesOf text))
      ∨ (catalog.register text
            = (⟨catalog.commands ++ [{ names := namesOf text }]⟩, catalog.commands.length)
          ∧ ∀ command ∈ catalog.commands, ¬command.Shares (namesOf text)) := by
  have hshares : ∀ command : Command m α,
      command.names.any (namesOf text).contains = true ↔ command.Shares (namesOf text) := by
    intro command
    simp only [List.any_eq_true, List.contains_iff_mem, Command.Shares]
    exact exists_congr fun name => And.comm
  unfold register
  dsimp only
  split
  case h_1 place hplace =>
    obtain ⟨hlt, hhere, hbefore⟩ := List.findIdx?_eq_some_iff_getElem.1 hplace
    refine Or.inl ⟨place, catalog.commands[place], rfl, List.getElem?_eq_getElem hlt,
      (hshares _).1 hhere, fun i hi earlier hearlier hshared => ?_⟩
    obtain ⟨_, rfl⟩ := List.getElem?_eq_some_iff.1 hearlier
    exact hbefore i hi ((hshares _).2 hshared)
  case h_2 hnone =>
    refine Or.inr ⟨rfl, fun command hcommand hshared => ?_⟩
    have hno := List.findIdx?_eq_none_iff.1 hnone command hcommand
    rw [(hshares command).2 hshared] at hno
    cases hno

/-- The same for the names: those of an old command that has one of them stay
as they are, or all of them are new and make up a list of their own. -/
theorem lists_enter_cases (catalog : Catalog m α) (call : Registration m α) :
    (∃ names name, catalog.lists[(catalog.register call.names).2]? = some names
        ∧ name ∈ namesOf call.names ∧ name ∈ names
        ∧ (catalog.enter call).lists = catalog.lists)
      ∨ ((∀ name ∈ namesOf call.names, catalog.place? name = none)
          ∧ (catalog.register call.names).2 = catalog.lists.length
          ∧ (catalog.enter call).lists = catalog.lists ++ [namesOf call.names]) := by
  have hlists : (catalog.enter call).lists = (catalog.register call.names).1.lists :=
    map_names_changeTree ..
  rw [hlists]
  rcases register_cases catalog call.names with
    ⟨place, command, hregister, hcommand, ⟨name, hlisted, hname⟩, -⟩ | ⟨hregister, hfresh⟩
  · rw [hregister]
    refine Or.inl ⟨command.names, name, ?_, hlisted, hname, rfl⟩
    rw [lists, List.getElem?_map, hcommand]
    rfl
  · rw [hregister]
    refine Or.inr ⟨fun name hlisted => ?_, (List.length_map ..).symm, List.map_append⟩
    exact place?_eq_none_iff.2 fun command hcommand hname =>
      hfresh command hcommand ⟨name, hlisted, hname⟩

theorem prefix_lists_enter (catalog : Catalog m α) (call : Registration m α) :
    catalog.lists <+: (catalog.enter call).lists := by
  rcases lists_enter_cases catalog call with ⟨-, -, -, -, -, hsame⟩ | ⟨-, -, hmore⟩
  · rw [hsame]
  · rw [hmore]
    exact List.prefix_append ..

theorem Registered.enter {catalog : Catalog m α} (h : catalog.Registered)
    (call : Registration m α) : (catalog.enter call).Registered :=
  .changeTree _ _ (.register _ h)

-- ============================================================ many calls

theorem Registered.enterAll {catalog : Catalog m α} (h : catalog.Registered)
    (calls : List (Registration m α)) : (catalog.enterAll calls).Registered := by
  induction calls generalizing catalog with
  | nil => exact h
  | cons call rest ih => exact ih (h.enter call)

theorem prefix_lists (catalog : Catalog m α) (calls : List (Registration m α)) :
    catalog.lists <+: (catalog.enterAll calls).lists := by
  induction calls generalizing catalog with
  | nil => exact List.prefix_rfl
  | cons call rest ih => exact (prefix_lists_enter catalog call).trans (ih _)

/-- A name that finds a command finds it after any calls. -/
theorem place?_enterAll {catalog : Catalog m α} {name : String} {place : Nat}
    (h : catalog.place? name = some place) (calls : List (Registration m α)) :
    (catalog.enterAll calls).place? name = some place := by
  obtain ⟨more, hmore⟩ := prefix_lists catalog calls
  rw [place?_eq_findIdx?] at h ⊢
  rw [← hmore, List.findIdx?_append, h]
  rfl

/-- The names that a command has stay the same. -/
theorem getElem?_lists_enterAll {catalog : Catalog m α} {names : List String} {place : Nat}
    (h : catalog.lists[place]? = some names) (calls : List (Registration m α)) :
    (catalog.enterAll calls).lists[place]? = some names := by
  obtain ⟨more, hmore⟩ := prefix_lists catalog calls
  rw [← hmore, List.getElem?_append_left (List.getElem?_eq_some_iff.1 h).1, h]

theorem names_eq_filterMap (catalog : Catalog m α) :
    catalog.names = catalog.lists.filterMap List.head? := by
  unfold names lists
  rw [List.filterMap_map]
  rfl

theorem prefix_names (catalog : Catalog m α) (calls : List (Registration m α)) :
    catalog.names <+: (catalog.enterAll calls).names := by
  rw [names_eq_filterMap, names_eq_filterMap]
  exact (prefix_lists catalog calls).filterMap _

/-- However commands are registered, no name belongs to two of them. A name
that finds a command finds the same one after any further calls, whatever is
made of the trees. A call returns the first command that has one of the
names it lists, and a new one behind all others if there is none. The
primary names change by appending only. -/
theorem registrations_settle (calls later : List (Registration m α)) :
    let catalog : Catalog m α := enterAll {} calls
    let after := catalog.enterAll later
    (∀ (i j : Nat) (first second : Command m α) (name : String),
        catalog.commands[i]? = some first → catalog.commands[j]? = some second →
        name ∈ first.names → name ∈ second.names → i = j)
      ∧ (∀ name place, catalog.place? name = some place →
          catalog.find? name = catalog.treeAt? place
          ∧ after.place? name = some place ∧ after.find? name = after.treeAt? place
          ∧ after.lists[place]? = catalog.lists[place]?)
      ∧ (∀ text : String,
          let place := (catalog.register text).2
          (∃ command, catalog.commands[place]? = some command
              ∧ command.Shares (namesOf text)
              ∧ (∀ i < place, ∀ earlier, catalog.commands[i]? = some earlier →
                  ¬earlier.Shares (namesOf text))
              ∧ (catalog.register text).1 = catalog)
            ∨ ((∀ command ∈ catalog.commands, ¬command.Shares (namesOf text))
              ∧ place = catalog.commands.length
              ∧ (catalog.register text).1.commands
                = catalog.commands ++ [{ names := namesOf text, tree := {} }]))
      ∧ catalog.names <+: after.names := by
  intro catalog after
  have hnamed : catalog.Named := (Registered.empty.enterAll _).named
  refine ⟨fun i j first second name hfirst hsecond hi hj => ?_, fun name place hplace => ?_,
    fun text => ?_, prefix_names catalog later⟩
  · refine hnamed.place_eq (i := i) (j := j) ?_ ?_ hi hj
    · rw [lists, List.getElem?_map, hfirst]
      rfl
    · rw [lists, List.getElem?_map, hsecond]
      rfl
  · have hafter : after.place? name = some place := place?_enterAll hplace later
    obtain ⟨names, hnames, -⟩ := mem_of_place? hplace
    refine ⟨?_, hafter, ?_, ?_⟩
    · rw [find?_eq_treeAt?, hplace, Option.bind_some]
    · rw [find?_eq_treeAt?, hafter, Option.bind_some]
    · rw [hnames]
      exact getElem?_lists_enterAll hnames later
  · rcases register_cases catalog text with
      ⟨place, command, hregister, hcommand, hshares, hbefore⟩ | ⟨hregister, hfresh⟩
    · rw [hregister]
      exact Or.inl ⟨command, hcommand, hshares, hbefore, rfl⟩
    · rw [hregister]
      exact Or.inr ⟨hfresh, rfl, rfl⟩

/-- A command under two names, a nameless one and a second one. -/
def arrivals : List (Registration (ReaderM Bool) Unit) :=
  [{ names := " warp | w|| w" }, { names := " | " }, { names := "list", change := fun _ => travel }]

/-- Calls that list their names again, beside new ones and beside each other. -/
def returns : List (Registration (ReaderM Bool) Unit) :=
  [{ names := "home|w", change := fun _ => travel }, { names := "list|warp" },
    { names := "wp|home" }]

/-- The short name finds its command at the first place throughout, though its
tree is another one in the end; the call that lists the names of both
commands returns the first of them; and only names that are new to a call
make up a third command. -/
theorem arrivals_settle :
    let catalog := enterAll {} arrivals
    let after := catalog.enterAll returns
    (∀ first ∈ catalog.commands[0]?, "w" ∈ first.names → ∀ (j : Nat) (second : Command _ _),
        catalog.commands[j]? = some second → "w" ∈ second.names → 0 = j)
      ∧ catalog.place? "w" = some 0 ∧ after.place? "w" = some 0
      ∧ after.find? "w" = after.treeAt? 0
      ∧ (catalog.register "list|warp").2 = 0
      ∧ (∃ command, catalog.commands[0]? = some command ∧ command.Shares (namesOf "list|warp"))
      ∧ catalog.names <+: after.names
      ∧ (catalog.names, after.names) = (["warp", "list"], ["warp", "list", "wp"]) := by
  intro catalog after
  obtain ⟨hapart, hkept, hcall, hnames⟩ := registrations_settle arrivals returns
  have hplace : catalog.place? "w" = some 0 := by decide +kernel
  have hreturned : (catalog.register "list|warp").2 = 0 := by decide +kernel
  obtain ⟨-, hafter, hfind, -⟩ := hkept "w" 0 hplace
  refine ⟨fun first hfirst hname j second hsecond =>
      hapart 0 j first second "w" hfirst hsecond hname,
    hplace, hafter, hfind, hreturned, ?_, hnames, by decide +kernel⟩
  have hlength : catalog.commands.length = 3 := by decide +kernel
  have htext := hcall "list|warp"
  dsimp only at htext
  rw [hreturned] at htext
  rcases htext with ⟨found, hfound, hshares, -⟩ | ⟨-, hlast, -⟩
  · exact ⟨found, hfound, hshares⟩
  · rw [hlength] at hlast
    cases hlast

-- ======================================================== what is dropped

theorem isSome_place?_iff {catalog : Catalog m α} {name : String} :
    (catalog.place? name).isSome ↔ ∃ names ∈ catalog.lists, name ∈ names := by
  rw [place?_eq_findIdx?, List.findIdx?_isSome, List.any_eq_true]
  simp only [List.contains_iff_mem]

/-- A call makes those names known that it lists where it knows none. -/
theorem isSome_place?_enter_iff {catalog : Catalog m α} {call : Registration m α}
    {name : String} :
    ((catalog.enter call).place? name).isSome
      ↔ (catalog.place? name).isSome
        ∨ name ∈ namesOf call.names
          ∧ ∀ other ∈ namesOf call.names, catalog.place? other = none := by
  rw [isSome_place?_iff, isSome_place?_iff]
  rcases lists_enter_cases catalog call with
    ⟨names, shared, hplace, hlisted, hshared, hsame⟩ | ⟨hfresh, -, hmore⟩
  · have hknown : catalog.place? shared ≠ none := Option.isSome_iff_ne_none.1
      (isSome_place?_iff.2 ⟨names, List.mem_of_getElem? hplace, hshared⟩)
    rw [hsame]
    exact (or_iff_left fun h => hknown (h.2 shared hlisted)).symm
  · rw [hmore]
    simp only [List.mem_append, List.mem_singleton, or_and_right, exists_or, exists_eq_left]
    exact or_congr_right (and_iff_left hfresh).symm

/-- After several calls a name is known if it was known at first, or was
listed in a call none of whose names was known then. -/
theorem isSome_place?_enterAll_iff {name : String} {calls : List (Registration m α)} :
    ∀ {catalog : Catalog m α}, ((catalog.enterAll calls).place? name).isSome
      ↔ (catalog.place? name).isSome
        ∨ ∃ i call, calls[i]? = some call ∧ name ∈ namesOf call.names
          ∧ ∀ other ∈ namesOf call.names,
              (catalog.enterAll (calls.take i)).place? other = none := by
  induction calls with
  | nil =>
      intro catalog
      exact (or_iff_left fun ⟨i, call, hcall, _⟩ => by cases hcall).symm
  | cons first rest ih =>
      intro catalog
      show (((catalog.enter first).enterAll rest).place? name).isSome ↔ _
      rw [ih, isSome_place?_enter_iff, or_assoc]
      refine or_congr_right ⟨?_, ?_⟩
      · rintro (hfirst | ⟨i, call, hcall, hlisted⟩)
        · exact ⟨0, first, rfl, hfirst⟩
        · exact ⟨i + 1, call, hcall, hlisted⟩
      · rintro ⟨i, call, hcall, hlisted⟩
        cases i with
        | zero =>
            obtain rfl := Option.some.inj hcall
            exact Or.inl hlisted
        | succ i => exact Or.inr ⟨i, call, hcall, hlisted⟩

theorem enterAll_eq {calls : List (Registration m α)} {call : Registration m α} {i : Nat}
    (hcall : calls[i]? = some call) (catalog : Catalog m α) :
    catalog.enterAll calls
      = ((catalog.enterAll (calls.take i)).enter call).enterAll (calls.drop (i + 1)) := by
  obtain ⟨hlt, rfl⟩ := List.getElem?_eq_some_iff.1 hcall
  have hsplit : calls = calls.take i ++ calls[i] :: calls.drop (i + 1) := by
    rw [← List.drop_eq_getElem_cons hlt, List.take_append_drop]
  show calls.foldl _ _ = _
  conv => lhs; rw [hsplit]
  rw [List.foldl_append]
  rfl

/-- Names of two commands are not among some names. -/
def ListsOne (catalog : Catalog m α) (names : List String) : Prop :=
  ∀ a ∈ names, ∀ b ∈ names, ∀ i ∈ catalog.place? a, ∀ j ∈ catalog.place? b, i = j

instance (catalog : Catalog m α) (names : List String) : Decidable (catalog.ListsOne names) :=
  inferInstanceAs (Decidable (∀ a ∈ names, ∀ b ∈ names,
    ∀ i ∈ catalog.place? a, ∀ j ∈ catalog.place? b, i = j))

/-- A call that lists names of one command at most has a name found at the
place that it returned, at once and after any calls, exactly if the name was
known before or none of the names was. -/
theorem place?_of_listed_iff {catalog : Catalog m α} (hregistered : catalog.Registered)
    {call : Registration m α} (hone : catalog.ListsOne (namesOf call.names)) {name : String}
    (hlisted : name ∈ namesOf call.names) (later : List (Registration m α)) :
    ((catalog.enter call).enterAll later).place? name = some (catalog.register call.names).2
      ↔ catalog.place? name ≠ none
        ∨ ∀ other ∈ namesOf call.names, catalog.place? other = none := by
  have hnamed := hregistered.named
  have hafter := ((hregistered.enter call).enterAll later).named
  rcases lists_enter_cases catalog call with
    ⟨names, shared, hplace, hshared, hmem, hsame⟩ | ⟨hfresh, hplace, hmore⟩
  · have hfound := hnamed.place?_of_mem hplace hmem
    constructor
    · -- what is listed at the place then is what was listed there before
      intro h
      obtain ⟨others, hothers, hname⟩ := mem_of_place? h
      rw [getElem?_lists_enterAll (hsame ▸ hplace) later] at hothers
      obtain rfl := Option.some.inj hothers
      exact Or.inl (by rw [hnamed.place?_of_mem hplace hname]; exact Option.some_ne_none _)
    · rintro (hknown | hnone)
      · obtain ⟨place, hat⟩ := Option.ne_none_iff_exists'.1 hknown
        rw [hone name hlisted shared hshared _ hat _ hfound] at hat
        obtain ⟨others, hothers, hname⟩ := mem_of_place? hat
        exact hafter.place?_of_mem (getElem?_lists_enterAll (hsame ▸ hothers) later) hname
      · rw [hnone shared hshared] at hfound
        cases hfound
  · refine iff_of_true (hafter.place?_of_mem (getElem?_lists_enterAll ?_ later) hlisted)
      (Or.inr hfresh)
    rw [hmore, hplace, List.getElem?_concat_length]

/-- A name that is listed, trimmed and not empty, is found after all calls
exactly if it was once listed where none of the names listed was known. Of a
call that lists names of one command at most, those names are found at the
place that the call returned that were known before it, or all of them if
none was known. -/
theorem listed_found_iff (calls : List (Registration m α)) :
    let catalog : Catalog m α := enterAll {} calls
    let before (i : Nat) : Catalog m α := enterAll {} (calls.take i)
    (∀ text name, name ∈ namesOf text
        ↔ name ≠ "" ∧ ∃ part ∈ alternatives text, trim part = name.toList)
      ∧ (∀ name, (catalog.find? name).isSome
          ↔ ∃ i call, calls[i]? = some call ∧ name ∈ namesOf call.names
            ∧ ∀ other ∈ namesOf call.names, (before i).find? other = none)
      ∧ ∀ i call, calls[i]? = some call → (before i).ListsOne (namesOf call.names) →
          ∀ name ∈ namesOf call.names,
            let place := ((before i).register call.names).2
            (catalog.place? name = some place
                ↔ (before i).find? name ≠ none
                  ∨ ∀ other ∈ namesOf call.names, (before i).find? other = none)
              ∧ (catalog.place? name = some place →
                  ∃ tree, catalog.find? name = some tree ∧ catalog.treeAt? place = some tree) := by
  intro catalog before
  refine ⟨fun text name => mem_namesOf_iff, fun name => ?_,
    fun i call hcall hone name hlisted => ⟨?_, fun hplace => ?_⟩⟩
  · have hsome : (catalog.find? name).isSome ↔ (catalog.place? name).isSome := by
      rw [Option.isSome_iff_ne_none, Option.isSome_iff_ne_none, ne_eq, find?_eq_none_iff]
    rw [hsome, isSome_place?_enterAll_iff]
    simp only [find?_eq_none_iff]
    exact or_iff_right (by rintro ⟨⟩)
  · rw [ne_eq, find?_eq_none_iff]
    simp only [find?_eq_none_iff]
    rw [← place?_of_listed_iff (Registered.empty.enterAll _) hone hlisted (calls.drop (i + 1)),
      ← enterAll_eq hcall]
  · cases htree : catalog.find? name with
    | none =>
        rw [find?_eq_none_iff, hplace] at htree
        cases htree
    | some tree =>
        rw [find?_eq_treeAt?, hplace, Option.bind_some] at htree
        exact ⟨tree, rfl, htree⟩

/-- Of the names of the call that comes fourth, the one that was known is
found at the place of its command and the other one is not; it is found at
last because the sixth call lists it again, beside a name as new. -/
theorem arrivals_found :
    let catalog := enterAll {} (arrivals ++ returns)
    let before := enterAll {} ((arrivals ++ returns).take 3)
    before.ListsOne (namesOf "home|w") ∧ (before.register "home|w").2 = 0
      ∧ catalog.place? "w" = some 0 ∧ (∃ tree, catalog.find? "w" = some tree
        ∧ catalog.treeAt? 0 = some tree)
      ∧ catalog.place? "home" ≠ some 0 ∧ (catalog.find? "home").isSome
      ∧ ∃ (i : Nat) (call : Registration (ReaderM Bool) Unit),
          (arrivals ++ returns)[i]? = some call ∧ "home" ∈ namesOf call.names := by
  intro catalog before
  have hone : before.ListsOne (namesOf "home|w") := by decide +kernel
  have hplace : (before.register "home|w").2 = 0 := by decide +kernel
  obtain ⟨-, hfound, hlisted⟩ := listed_found_iff (arrivals ++ returns)
  have hcall := hlisted 3 _ rfl hone
  obtain ⟨hw, hwtree⟩ := hcall "w" (by decide +kernel)
  obtain ⟨hhome, -⟩ := hcall "home" (by decide +kernel)
  dsimp only at hw hwtree hhome
  have hknown : ((before.find? "w").isSome, (before.find? "home").isSome) = (true, false) := by
    decide +kernel
  obtain ⟨hsome, hnone⟩ := Prod.mk.inj hknown
  have hat := hw.2 (Or.inl (Option.isSome_iff_ne_none.1 hsome))
  have hlast : (catalog.find? "home").isSome := by decide +kernel
  refine ⟨hone, hplace, ?_, ?_, fun h => ?_, hlast, ?_⟩
  · rw [hplace] at hat
    exact hat
  · have htree := hwtree hat
    rw [hplace] at htree
    exact htree
  · rcases hhome.1 (h.trans (congrArg some hplace.symm)) with hne | hall
    · rw [← Option.isSome_iff_ne_none, hnone] at hne
      cases hne
    · have hw' := hall "w" (by decide +kernel)
      rw [← Option.not_isSome_iff_eq_none] at hw'
      exact hw' hsome
  · obtain ⟨i, call, hcall, hmem, -⟩ := (hfound "home").1 hlast
    exact ⟨i, call, hcall, hmem⟩

/-- A command is registered, and then again with an alias. No call lists names
of two commands, and still the alias is not found. -/
theorem alias_dropped :
    let calls : List (Registration Id Unit) := [{ names := "list" }, { names := "list|ls" }]
    (∀ i call, calls[i]? = some call →
        (enterAll {} (calls.take i)).ListsOne (namesOf call.names))
      ∧ (∃ call ∈ calls, "ls" ∈ namesOf call.names)
      ∧ ((enterAll {} calls).find? "ls").isNone := by
  intro calls
  have hone : ∀ i < 2, ∀ call ∈ calls[i]?.map Registration.names,
      (enterAll {} (calls.take i)).ListsOne (namesOf call) := by
    decide +kernel
  refine ⟨fun i call hcall => ?_, ⟨{ names := "list|ls" }, by simp [calls], by decide +kernel⟩,
    by decide +kernel⟩
  have hlt : i < 2 := (List.getElem?_eq_some_iff.1 hcall).1
  exact hone i hlt call.names (by rw [hcall]; rfl)

end Catalog

end CommandGrammar
