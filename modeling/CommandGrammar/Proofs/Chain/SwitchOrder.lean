/-
Switches may be given in any order and at any place. `Places` says what
that means: a line holds some plain words, in their order, and among
them pairs of a flag and the value behind it. Two lines with the same
plain words and the same pairs, in whatever order and at whatever
places, are matched alike (`parse_agrees`).

Matching looks at the places of the pairs only to take them out of the
line. What a scan finds, up to the positions, is the list of the pairs
(`unplaced_scan`), and what it leaves are the plain words
(`leave_of_places`). The order of the pairs is the order in which their
values are read, which changes the order of what was read and nothing
else (`readGiven_perm`); and as every pair has a place of its own in the
chain, looking a value up by that place does not see the order either
(`lookup_perm`). From there on two lines with the same words ahead bind
the same (`bindAll_agrees`).
-/
import CommandGrammar.Proofs.Chain.Ahead
import Mathlib.Data.List.Basic

namespace CommandGrammar

variable {α : Type}

-- ====================================================== lines with pairs

/-- Plain words with pairs among them: of each pair a flag, and the value
right behind it. The pairs are listed in the order of the line. -/
inductive Places : List (String × String) → List String → List String → Prop
  | nil : Places [] [] []
  | word {pairs : List (String × String)} {plain words : List String} (word : String) :
      Places pairs plain words → Places pairs (word :: plain) (word :: words)
  | pair {pairs : List (String × String)} {plain words : List String} (name value : String) :
      Places pairs plain words →
      Places ((name, value) :: pairs) plain (("-" ++ name) :: value :: words)

/-- Two attempts to match agree: both fail, or both bind the same values
with the same marks, consume as many words and leave the same ones. -/
inductive Match.Agree : Except Shortfall (Match α) → Except Shortfall (Match α) → Prop
  | fail (a b : Shortfall) : Agree (.error a) (.error b)
  | succeed {a b : Match α} : a.bindings = b.bindings → a.consumed = b.consumed →
      a.rest.ahead = b.rest.ahead → Agree (.ok a) (.ok b)

theorem Match.Same.agree {x y : Except Shortfall (Match α)} (h : Same x y) : Agree x y := by
  cases h with
  | fail shortfall => exact .fail shortfall shortfall
  | succeed hbindings hconsumed hahead => exact .succeed hbindings hconsumed hahead

-- ========================================================= what is found

namespace Chain

/-- The flag of a switch names an argument with that switch. -/
theorem exists_switchOf? {chain : Chain α} {name : String}
    (h : ∃ argument ∈ chain.arguments, argument.switch = some name) :
    ∃ argument place, chain.switchOf? ("-" ++ name) = some (argument, place)
      ∧ chain.arguments[place]? = some argument ∧ argument.switch = some name := by
  have hflag : ("-" ++ name).toList = '-' :: name.toList := by
    rw [String.toList_append]
    rfl
  have hfound : chain.switchOf? ("-" ++ name)
      = chain.arguments.zipIdx.find? fun entry => entry.1.switch == some name := by
    unfold switchOf?
    rw [hflag]
    show (chain.arguments.zipIdx.find? fun entry =>
      entry.1.switch == some (String.ofList name.toList)) = _
    rw [String.ofList_toList]
  obtain ⟨argument, hargument, hname⟩ := h
  obtain ⟨place, hplace⟩ := List.mem_iff_getElem?.1 hargument
  have hsome : (chain.switchOf? ("-" ++ name)).isSome := by
    rw [hfound, List.find?_isSome]
    refine ⟨(argument, place), List.mem_zipIdx_iff_getElem?.2 hplace, ?_⟩
    simp [hname]
  obtain ⟨⟨found, there⟩, hentry⟩ := Option.isSome_iff_exists.1 hsome
  have hswitch := List.find?_some (hfound.symm.trans hentry)
  exact ⟨found, there, hentry, (switch_of_switchOf? hentry).1, eq_of_beq hswitch⟩

/-- The switches that pairs give, in their order. -/
def gives (chain : Chain α) (pairs : List (String × String)) : List (Given α) :=
  pairs.filterMap fun pair =>
    (chain.switchOf? ("-" ++ pair.1)).map fun entry => ⟨entry.2, entry.1, 0, some pair.2⟩

theorem place_ne {chain : Chain α} {a b : String} {first second : Argument α} {p q : Nat}
    (hne : a ≠ b) (ha : chain.switchOf? ("-" ++ a) = some (first, p))
    (hb : chain.switchOf? ("-" ++ b) = some (second, q)) : p ≠ q := by
  rintro rfl
  obtain ⟨hfirst, a', hworda, hnamea⟩ := switch_of_switchOf? ha
  obtain ⟨hsecond, b', hwordb, hnameb⟩ := switch_of_switchOf? hb
  rw [hfirst] at hsecond
  injection hsecond with hsame
  rw [String.append_right_inj] at hworda hwordb
  rw [hsame, hnameb] at hnamea
  injection hnamea with hnamea
  exact hne (hworda.trans (hnamea.symm.trans hwordb.symm))

/-- A scan of plain words and pairs finds the pairs, in their order, and
leaves the plain words. -/
theorem scan_of_places {chain : Chain α} {pairs : List (String × String)}
    {plain words : List String} (h : Places pairs plain words)
    (hplain : ∀ word ∈ plain, chain.switchOf? word = none)
    (hpairs : ∀ pair ∈ pairs, ∃ argument ∈ chain.arguments, argument.switch = some pair.1)
    (hnodup : (pairs.map Prod.fst).Nodup) :
    ∀ (found : List Nat) (position : Nat),
      (∀ pair ∈ pairs, ∀ argument place,
        chain.switchOf? ("-" ++ pair.1) = some (argument, place) → place ∉ found) →
      (chain.scan none found position words).map Given.unplaced = chain.gives pairs
        ∧ chain.leave none found position words = plain := by
  induction h with
  | nil =>
      intro found position _
      exact ⟨rfl, rfl⟩
  | @word pairs plain words word _ ih =>
      intro found position hfound
      have hflag : chain.flag? none found position word = none := by
        unfold flag?
        rw [hplain word (List.mem_cons_self ..)]
        rfl
      obtain ⟨hscan, hleave⟩ := ih (fun other hother =>
        hplain other (List.mem_cons_of_mem _ hother)) hpairs hnodup found (position + 1) hfound
      rw [scan, leave, hflag]
      exact ⟨hscan, congrArg (word :: ·) hleave⟩
  | @pair pairs plain words name value _ ih =>
      intro found position hfound
      obtain ⟨argument, place, hswitch, -, -⟩ :=
        exists_switchOf? (hpairs (name, value) (List.mem_cons_self ..))
      have hnew : place ∉ found := hfound _ (List.mem_cons_self ..) _ _ hswitch
      have hflag : chain.flag? none found position ("-" ++ name) = some (argument, place) := by
        unfold flag?
        rw [hswitch]
        simp [hnew]
      obtain ⟨hfirst, hrest⟩ := List.nodup_cons.1 hnodup
      -- the other pairs have other names, so other places than this one
      have hothers : ∀ pair ∈ pairs, ∀ other place',
          chain.switchOf? ("-" ++ pair.1) = some (other, place') → place' ∉ place :: found := by
        intro pair hpair other place' hother
        have hname : pair.1 ≠ name := by
          intro heq
          have hmem : pair.1 ∈ pairs.map Prod.fst := List.mem_map_of_mem hpair
          rw [heq] at hmem
          exact hfirst hmem
        rw [List.mem_cons, not_or]
        exact ⟨place_ne hname hother hswitch,
          hfound pair (List.mem_cons_of_mem _ hpair) other place' hother⟩
      obtain ⟨hscan, hleave⟩ := ih hplain
        (fun pair hpair => hpairs pair (List.mem_cons_of_mem _ hpair)) hrest
        (place :: found) (position + 2) hothers
      have hgives : chain.gives ((name, value) :: pairs)
          = ⟨place, argument, 0, some value⟩ :: chain.gives pairs := by
        unfold gives
        rw [List.filterMap_cons, hswitch]
        rfl
      rw [scan, leave, hflag, hgives]
      exact ⟨congrArg (_ :: ·) hscan, hleave⟩

theorem nodup_place_gives (chain : Chain α) {pairs : List (String × String)}
    (h : (pairs.map Prod.fst).Nodup) : ((chain.gives pairs).map Given.place).Nodup := by
  unfold gives
  rw [List.nodup_iff_pairwise_ne, List.pairwise_map, List.pairwise_filterMap]
  rw [List.nodup_iff_pairwise_ne, List.pairwise_map] at h
  refine h.imp fun {a b} hne given hgiven other hother => ?_
  obtain ⟨first, hfirst, rfl⟩ := Option.map_eq_some_iff.1 hgiven
  obtain ⟨second, hsecond, rfl⟩ := Option.map_eq_some_iff.1 hother
  exact place_ne hne hfirst hsecond

-- ============================================================ what is read

/-- Reading the values of several switches is reading the first one and
then the others. -/
theorem readGiven_cons_eq_ok_iff {consumed total : Nat} {first : Given α} {rest : List (Given α)}
    {switches : List (Nat × Option (Value α))} :
    readGiven consumed (first :: rest) = .ok (switches, total)
      ↔ ∃ value words others, first.read = .ok (value, words)
        ∧ readGiven (consumed + 1 + words) rest = .ok (others, total)
        ∧ switches = (first.place, value) :: others := by
  rw [readGiven]
  constructor
  · intro h
    rcases hread : first.read with refusal | ⟨value, words⟩
    · rw [hread] at h
      cases h
    · rw [hread] at h
      obtain ⟨⟨others, all⟩, hrest, h⟩ := eq_ok_of_map_eq_ok h
      injection h with hswitches htotal
      subst htotal
      exact ⟨value, words, others, rfl, hrest, hswitches.symm⟩
  · rintro ⟨value, words, others, hread, hrest, rfl⟩
    rw [hread]
    dsimp only
    rw [hrest]
    rfl

/-- The order of switches is the order of what is read for them, and
nothing else. -/
theorem readGiven_perm {given other : List (Given α)} (h : given.Perm other) :
    ∀ {consumed total : Nat} {switches : List (Nat × Option (Value α))},
      readGiven consumed given = .ok (switches, total) →
      ∃ reordered, readGiven consumed other = .ok (reordered, total)
        ∧ switches.Perm reordered := by
  induction h with
  | nil =>
      intro consumed total switches hread
      exact ⟨switches, hread, List.Perm.refl _⟩
  | cons first _ ih =>
      intro consumed total switches hread
      obtain ⟨value, words, others, hfirst, hrest, rfl⟩ := readGiven_cons_eq_ok_iff.1 hread
      obtain ⟨reordered, hother, hperm⟩ := ih hrest
      exact ⟨_, readGiven_cons_eq_ok_iff.2 ⟨value, words, reordered, hfirst, hother, rfl⟩,
        hperm.cons _⟩
  | swap first second rest =>
      intro consumed total switches hread
      obtain ⟨value, words, others, hsecond, hboth, rfl⟩ := readGiven_cons_eq_ok_iff.1 hread
      obtain ⟨value', words', others', hfirst, hrest, rfl⟩ := readGiven_cons_eq_ok_iff.1 hboth
      refine ⟨_, readGiven_cons_eq_ok_iff.2 ⟨value', words', _, hfirst,
        readGiven_cons_eq_ok_iff.2 ⟨value, words, others', hsecond, ?_, rfl⟩, rfl⟩,
        List.Perm.swap _ _ _⟩
      rwa [show consumed + 1 + words' + 1 + words = consumed + 1 + words + 1 + words' by omega]
  | trans _ _ ih₁ ih₂ =>
      intro consumed total switches hread
      obtain ⟨between, hbetween, hperm⟩ := ih₁ hread
      obtain ⟨reordered, hother, hperm'⟩ := ih₂ hbetween
      exact ⟨reordered, hother, hperm.trans hperm'⟩

theorem places_of_readGiven {given : List (Given α)} :
    ∀ {consumed total : Nat} {switches : List (Nat × Option (Value α))},
      readGiven consumed given = .ok (switches, total) →
      switches.map Prod.fst = given.map Given.place := by
  induction given with
  | nil =>
      intro consumed total switches h
      injection h with h
      injection h with hswitches
      rw [← hswitches]
      rfl
  | cons first rest ih =>
      intro consumed total switches h
      obtain ⟨value, words, others, -, hrest, rfl⟩ := readGiven_cons_eq_ok_iff.1 h
      rw [List.map_cons, List.map_cons, ih hrest]

/-- Under places of their own, values are found in any order. -/
theorem lookup_perm {β : Type} {entries other : List (Nat × β)} (h : entries.Perm other)
    (hnodup : (entries.map Prod.fst).Nodup) (place : Nat) :
    entries.lookup place = other.lookup place := by
  induction h with
  | nil => rfl
  | cons entry _ ih =>
      rw [List.lookup_cons, List.lookup_cons, ih (List.nodup_cons.1 hnodup).2]
  | swap first second rest =>
      obtain ⟨p, a⟩ := first
      obtain ⟨q, b⟩ := second
      have hne : q ≠ p := by
        rintro rfl
        exact (List.nodup_cons.1 hnodup).1 (List.mem_cons_self ..)
      rw [Dictionary.lookup_cons_eq, Dictionary.lookup_cons_eq, Dictionary.lookup_cons_eq,
        Dictionary.lookup_cons_eq]
      by_cases hfirst : place = p
      · rw [if_pos hfirst, if_neg (hfirst ▸ hne.symm), if_pos hfirst]
      · rw [if_neg hfirst, if_neg hfirst]
  | trans hperm _ ih₁ ih₂ =>
      rw [ih₁ hnodup, ih₂ ((hperm.map Prod.fst).nodup_iff.1 hnodup)]

-- ========================================================== what is bound

/-- On lines with the same words ahead, arguments are bound alike. -/
theorem bindAll_agrees {switches other : List (Nat × Option (Value α))}
    (hlookup : ∀ place, switches.lookup place = other.lookup place)
    {arguments : List (Argument α)} {place consumed : Nat} {a b : Line}
    (hstandard : ∀ argument ∈ arguments, argument.reader.Standard) (hahead : a.ahead = b.ahead) :
    Match.Agree (bindAll switches place consumed a arguments)
      (bindAll other place consumed b arguments) :=
  (bindAll_same hlookup hstandard hahead).agree

-- ============================================================ whole chains

/-- Switches may be given in any order and at any place: two lines with
the same plain words, and among them the same pairs of a switch of the
chain and a value, are matched alike. Any word may be a value; what must
not be a flag of the chain are the plain words. -/
theorem parse_agrees {chain : Chain α} {nodes : List Spec.Node}
    (hchain : Chain.ofNodes .standard nodes = .ok chain) {plain : List String}
    (hplain : ∀ word ∈ plain, ∀ argument ∈ chain.arguments, ∀ name,
      argument.switch = some name → word ≠ "-" ++ name)
    {pairs other : List (String × String)}
    (hpairs : ∀ pair ∈ pairs, ∃ argument ∈ chain.arguments, argument.switch = some pair.1)
    (hnodup : (pairs.map Prod.fst).Nodup) (hother : pairs.Perm other) {a b : Line}
    (ha : Places pairs plain a.ahead) (hb : Places other plain b.ahead) :
    Match.Agree (chain.parse a) (chain.parse b) := by
  have hstandard := Chain.standard_of_ofNodes hchain
  have hunnamed : ∀ word ∈ plain, chain.switchOf? word = none :=
    fun word hword => switchOf?_eq_none (hplain word hword)
  obtain ⟨hscanA, hleaveA⟩ := scan_of_places ha hunnamed hpairs hnodup [] a.index
    fun _ _ _ _ _ => List.not_mem_nil
  obtain ⟨hscanB, hleaveB⟩ := scan_of_places hb hunnamed
    (fun pair hpair => hpairs pair (hother.mem_iff.2 hpair))
    ((hother.map Prod.fst).nodup_iff.1 hnodup) [] b.index fun _ _ _ _ _ => List.not_mem_nil
  have hreadA := readGiven_unplaced (chain.given none a) 0
  have hreadB := readGiven_unplaced (chain.given none b) 0
  rw [given, hscanA] at hreadA
  rw [given, hscanB] at hreadB
  have hahead : (withoutGiven (chain.given none a) a).ahead
      = (withoutGiven (chain.given none b) b).ahead := by
    rw [ahead_withoutGiven, ahead_withoutGiven, hleaveA, hleaveB]
  have hgives : (chain.gives pairs).Perm (chain.gives other) := hother.filterMap _
  unfold parse
  dsimp only
  rw [given, given] at *
  rw [← hreadA, ← hreadB]
  rcases hA : readGiven 0 (chain.gives pairs) with shortfall | ⟨switches, total⟩
  · rcases hB : readGiven 0 (chain.gives other) with _ | ⟨switches, total⟩
    · exact .fail _ _
    · obtain ⟨reordered, hok, -⟩ := readGiven_perm hgives.symm hB
      rw [hA] at hok
      cases hok
  · obtain ⟨reordered, hB, hperm⟩ := readGiven_perm hgives hA
    rw [hB]
    have hplaces : (switches.map Prod.fst).Nodup := by
      rw [places_of_readGiven hA]
      exact nodup_place_gives chain hnodup
    exact bindAll_agrees (lookup_perm hperm hplaces) hstandard hahead

/-- A chain of a number and a text given as switches and a text given by
its place. -/
def drawing : Except Spec.Defect (Chain Unit) :=
  Chain.ofSpec .standard "@int(switch=x) @string(switch=y) @string"

/-- The value of `-y` looks like the flag `-x`, behind the real one in one
line and before it in the other. -/
theorem drawing_parse_agrees :
    let chain := drawing.toOption.getD ⟨[]⟩
    let a : Line := .ofWords ["-x", "1", "up", "-y", "-x", "down"]
    let b : Line := .ofWords ["up", "-y", "-x", "down", "-x", "1"]
    Match.Agree (chain.parse a) (chain.parse b)
      ∧ (chain.parse a).toOption.map (fun matched => (matched.consumed, matched.rest.ahead))
        = some (5, ["down"]) := by
  intro chain a b
  have hchain : Chain.ofNodes .standard (Spec.nodes "@int(switch=x) @string(switch=y) @string")
      = .ok chain := by
    exact Chain.ofNodes_of_isOk (by decide +kernel)
  have hswitches : chain.arguments.map Argument.switch = [some "x", some "y", none] := by
    decide +kernel
  have hpairs : ∀ pair ∈ [("x", "1"), ("y", "-x")],
      ∃ argument ∈ chain.arguments, argument.switch = some pair.1 := by
    intro pair hpair
    refine List.mem_map.1 (hswitches ▸ ?_)
    revert pair
    decide
  have hplain : ∀ word ∈ ["up", "down"], ∀ argument ∈ chain.arguments, ∀ name,
      argument.switch = some name → word ≠ "-" ++ name := by
    intro word hword argument hargument name hname
    have hmem : some name ∈ [some "x", some "y", none] :=
      hswitches ▸ List.mem_map.2 ⟨argument, hargument, hname⟩
    simp only [List.mem_cons, Option.some.injEq, List.not_mem_nil, or_false, reduceCtorEq]
      at hmem hword
    rcases hmem with rfl | rfl <;> rcases hword with rfl | rfl <;> decide
  refine ⟨parse_agrees hchain hplain hpairs (by decide)
    (List.Perm.swap ("y", "-x") ("x", "1") []) ?_ ?_, by decide +kernel⟩
  · exact .pair "x" "1" (.word "up" (.pair "y" "-x" (.word "down" .nil)))
  · exact .word "up" (.pair "y" "-x" (.word "down" (.pair "x" "1" .nil)))

end Chain

end CommandGrammar
