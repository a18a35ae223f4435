/-
One chain behind another. Without switches, the nodes of two chains make
one chain that is matched as the first and then, on the line that this
leaves, as the second. If every argument has to be given, suggestions go
the same way (`parse_and_suggest_append`).

The word being completed may lie at the seam. The first chain is then
matched up to that word and asks nobody, and the second one asks its first
argument. Before the seam it is the other way round: what the first chain
leaves, if it can be matched at all, has the word behind it, and there the
second one offers nothing (`suggestAmong_eq_nil`). Optional arguments would
upset this, for they leave the cursor at the end of the line, where what
follows them is asked once more.
-/
import CommandGrammar.Proofs.Chain.Building
import CommandGrammar.Proofs.Chain.Completion

namespace CommandGrammar

variable {α : Type}

namespace Line

/-- Past the word being completed, none is left ahead. -/
theorem typed?_of_pass {line behind : Line} {word : String} (hat : line.atCompletion = true)
    (h : line.next = .ok (word, behind)) : behind.typed? = none := by
  have hcompletion : line.completion = some line.index := by simpa [atCompletion] using hat
  unfold next at h
  split at h
  case h_2 => cases h
  case h_1 first rest hahead =>
    injection h with h
    injection h with _ h
    subst h
    unfold typed? index
    dsimp only
    rw [hcompletion]
    dsimp only
    rw [if_neg (by rw [List.length_append, List.length_singleton]; unfold index; omega)]

end Line

namespace Chain

-- ======================================================= nothing to propose

/-- Where no word ahead is being completed, no argument is asked. -/
theorem suggestAmong_eq_nil {flags : Line → SuggestionGroup} {arguments : List (Argument α)} :
    ∀ {line : Line}, (∀ argument ∈ arguments, argument.reader.Standard) →
      line.typed? = none → suggestAmong flags line arguments = [] := by
  have hnot : ∀ {line : Line}, line.typed? = none → line.atCompletion = false := fun h =>
    Bool.eq_false_iff.2 fun hat => by
      rw [Line.typed?_of_atCompletion hat] at h
      cases h
  induction arguments with
  | nil =>
      intro line _ h
      rw [suggestAmong, hnot h]
      rfl
  | cons argument rest ih =>
      intro line hstandard h
      obtain ⟨hargument, hrest⟩ := List.forall_mem_cons.1 hstandard
      rw [suggestAmong, hnot h, if_neg Bool.false_ne_true]
      split
      case isTrue => rfl
      case isFalse =>
        split
        case h_2 => rfl
        case h_1 value behind hread =>
          obtain ⟨word, hnext, -⟩ := hargument.read_eq_ok hread
          refine ih hrest (Option.eq_none_iff_forall_ne_some.2 fun typed htyped => ?_)
          rw [Line.typed?_next hnext htyped] at h
          cases h

/-- Without switches there are no flags to propose. -/
theorem Switchless.flagSuggestions_eq_nil {chain : Chain α} (h : chain.Switchless)
    (given : List (Given α)) (typed : String) : chain.flagSuggestions given typed = [] := by
  unfold flagSuggestions
  split
  · refine List.filterMap_eq_nil_iff.2 fun entry hentry => ?_
    rw [h entry.1 (List.fst_mem_of_mem_zipIdx hentry)]
    split <;> rfl
  · rfl

/-- Without switches the arguments are asked in their places. -/
theorem Switchless.suggest_eq {chain : Chain α} (h : chain.Switchless)
    (hstandard : chain.Standard) (line : Line) :
    chain.suggest line = suggestAmong (fun _ => []) line chain.arguments := by
  cases htyped : line.typed? with
  | none => rw [suggest_eq_nil htyped, suggestAmong_eq_nil hstandard htyped]
  | some word =>
      obtain ⟨c, hc, hle, -⟩ := Line.typed?_eq_some_iff.1 htyped
      have hgiven : chain.given (some c) line = [] := h.scan_eq_nil _ _ _ _
      have hall : chain.arguments.filter (fun argument => argument.switch.isNone)
          = chain.arguments := List.filter_eq_self.2 fun argument hargument => by
        rw [h argument hargument]
        rfl
      unfold suggest
      rw [hc]
      dsimp only
      rw [if_neg (Nat.not_lt.2 hle), hgiven, hall]
      show suggestAmong _ (line.remove []) _ = _
      rw [Line.remove_nil]
      congr 1
      exact funext fun line => h.flagSuggestions_eq_nil ..

-- ====================================================== required arguments

/-- A required argument outside switches takes the next word, or there is
none. -/
theorem bindOne_of_required {argument : Argument α} (hswitch : argument.switch = none)
    (hrequired : argument.required = true) (place : Nat) (line : Line) :
    bindOne [] place line argument
      = if line.isEnd then .error .endOfInput
        else (argument.reader.read line).map fun read => (some read.1, read.2) := by
  unfold bindOne Argument.missing
  rw [hswitch, hrequired]
  rfl

theorem next_of_bindOne_required {place : Nat} {line behind : Line} {argument : Argument α}
    {value : Option (Value α)} (hstandard : argument.reader.Standard)
    (hswitch : argument.switch = none) (hrequired : argument.required = true)
    (h : bindOne [] place line argument = .ok (value, behind)) :
    ∃ word, line.next = .ok (word, behind) := by
  rw [bindOne_of_required hswitch hrequired] at h
  split at h
  case isTrue => cases h
  case isFalse =>
    obtain ⟨⟨found, rest⟩, hread, h⟩ := eq_ok_of_map_eq_ok h
    injection h with _ hrest
    obtain ⟨word, hnext, -⟩ := hstandard.read_eq_ok hread
    exact ⟨word, hrest ▸ hnext⟩

/-- Required arguments in two parts are asked part by part. The second
part is asked on the line that is left when the first one is bound. -/
theorem suggestAmong_append {b : List (Argument α)}
    (hb : ∀ argument ∈ b, argument.reader.Standard) {a : List (Argument α)} :
    ∀ (place consumed : Nat) (line : Line),
      (∀ argument ∈ a, argument.reader.Standard ∧ argument.switch = none
        ∧ argument.required = true) →
      suggestAmong (fun _ => []) line (a ++ b)
        = suggestAmong (fun _ => []) line a
          ++ match bindAll [] place consumed line a with
            | .ok first => suggestAmong (fun _ => []) first.rest b
            | .error _ => [] := by
  induction a with
  | nil =>
      intro place consumed line _
      rw [List.nil_append, suggestAmong, bindAll]
      split <;> rfl
  | cons argument rest ih =>
      intro place consumed line ha
      obtain ⟨⟨hstandard, hswitch, hrequired⟩, hrest⟩ := List.forall_mem_cons.1 ha
      rw [List.cons_append, suggestAmong, suggestAmong]
      split
      case isTrue hat =>
        -- what is left when all are bound lies behind the word being completed
        cases hbind : bindAll [] place consumed line (argument :: rest) with
        | error shortfall => exact (List.append_nil _).symm
        | ok first =>
            obtain ⟨value, behind, others, hone, hothers, rfl⟩ := bindAll_cons_eq_ok hbind
            obtain ⟨word, hnext⟩ := next_of_bindOne_required hstandard hswitch hrequired hone
            have hpast : others.rest.typed? = none :=
              Option.eq_none_iff_forall_ne_some.2 fun typed htyped => by
                have hbehind := typed?_of_bindAll (fun later hlater => (hrest later hlater).1)
                  hothers htyped
                rw [Line.typed?_of_pass hat hnext] at hbehind
                cases hbehind
            dsimp only
            rw [suggestAmong_eq_nil hb hpast, List.append_nil]
      case isFalse =>
        rw [bindAll, bindOne_of_required hswitch hrequired]
        split
        case isTrue => rfl
        case isFalse =>
          cases argument.reader.read line with
          | error refusal => rfl
          | ok read =>
              obtain ⟨value, behind⟩ := read
              have hbehind := ih (place + 1) (consumed + (behind.index - line.index)) behind hrest
              dsimp only [Except.map]
              rw [hbehind]
              cases bindAll [] (place + 1) (consumed + (behind.index - line.index)) behind rest <;>
                rfl

-- ================================================================= chains

/-- The nodes of two chains without switches make one chain. It is matched
as the first and then, on the line that this leaves, as the second: with
the bindings of both, the words consumed by both, and the line that the
second leaves; or with the shortfall of the first, or that of the second
behind the words consumed by the first. If all the arguments are required,
it also proposes what the first does and then, if that can be matched, what
the second does on the line left. -/
theorem parse_and_suggest_append {first second : List Spec.Node} {a b : Chain α}
    (ha : ofNodes .standard first = .ok a) (hb : ofNodes .standard second = .ok b)
    (hswitch : ∀ node ∈ first ++ second, node.parameters.get? "switch" = none) :
    ∃ whole, ofNodes .standard (first ++ second) = .ok whole
      ∧ (∀ line, whole.parse line =
          match a.parse line with
          | .error shortfall => .error shortfall
          | .ok before =>
              match b.parse before.rest with
              | .error behind => .error ⟨behind.refusal, before.consumed + behind.consumed⟩
              | .ok behind =>
                  .ok ⟨before.bindings ++ behind.bindings, before.consumed + behind.consumed,
                    behind.rest⟩)
      ∧ ((∀ node ∈ first ++ second, node.parameters.flag "required" true = true) →
          ∀ line, whole.suggest line = a.suggest line
            ++ match a.parse line with
              | .ok before => b.suggest before.rest
              | .error _ => []) := by
  have hwhole := ofNodes_append ha hb
  have hstandardA := standard_of_ofNodes ha
  have hstandardB := standard_of_ofNodes hb
  have hstandard := standard_of_ofNodes hwhole
  have hbuilt : ∀ {nodes : List Spec.Node} {chain : Chain α},
      ofNodes .standard nodes = .ok chain → ∀ argument ∈ chain.arguments,
        ∃ node ∈ nodes, Argument.ofNode .standard node = .ok argument := fun h =>
    exists_of_mem_of_mapM_eq_ok (ofNodes_eq_ok_iff.1 h).1
  have hnone : (a ++ b).Switchless := fun argument hargument => by
    obtain ⟨node, hnode, hargument⟩ := hbuilt hwhole argument hargument
    rw [(Argument.eq_of_ofNode hargument).2, hswitch node hnode]
  have hnoneA : a.Switchless := fun argument hargument =>
    hnone argument (List.mem_append_left _ hargument)
  have hnoneB : b.Switchless := fun argument hargument =>
    hnone argument (List.mem_append_right _ hargument)
  refine ⟨a ++ b, hwhole, fun line => ?_, fun hrequired line => ?_⟩
  · rw [parse_append hnoneA hnoneB]
    rcases a.parse line with shortfall | before
    · rfl
    · show Except.mapError _ ((b.parse before.rest).map _) = _
      dsimp only
      rcases b.parse before.rest with shortfall | behind <;> rfl
  · have hrequiredA : ∀ argument ∈ a.arguments, argument.reader.Standard
        ∧ argument.switch = none ∧ argument.required = true := fun argument hargument => by
      obtain ⟨node, hnode, hbuilt⟩ := hbuilt ha argument hargument
      refine ⟨hstandardA argument hargument, hnoneA argument hargument, ?_⟩
      rw [Argument.required_of_ofNode hbuilt]
      exact hrequired node (List.mem_append_left _ hnode)
    rw [hnone.suggest_eq hstandard, hnoneA.suggest_eq hstandardA, hnoneA.parse_eq,
      arguments_append, suggestAmong_append hstandardB 0 0 line hrequiredA]
    rcases bindAll [] 0 0 line a.arguments with shortfall | before
    · rfl
    · dsimp only
      rw [hnoneB.suggest_eq hstandardB]

/-- A name and a number behind it, both required. -/
theorem parse_and_suggest_append_of_name_and_number :
    let name : Chain Unit := (ofSpec .standard "mike|milly").toOption.getD ⟨[]⟩
    let number : Chain Unit := (ofSpec .standard "@int(min=1,max=3)").toOption.getD ⟨[]⟩
    let nodes := Spec.nodes "mike|milly" ++ Spec.nodes "@int(min=1,max=3)"
    (∀ node ∈ nodes, node.parameters.get? "switch" = none)
      ∧ (∀ node ∈ nodes, node.parameters.flag "required" true = true)
      ∧ ∃ whole : Chain Unit, ofNodes .standard nodes = .ok whole
        ∧ ∀ line, whole.suggest line = name.suggest line
          ++ match name.parse line with
            | .ok before => number.suggest before.rest
            | .error _ => [] := by
  intro name number nodes
  have hname : ofNodes .standard (Spec.nodes "mike|milly") = .ok name :=
    ofNodes_of_isOk (by decide +kernel)
  have hnumber : ofNodes .standard (Spec.nodes "@int(min=1,max=3)") = .ok number :=
    ofNodes_of_isOk (by decide +kernel)
  have hswitch : ∀ node ∈ nodes, node.parameters.get? "switch" = none := by decide +kernel
  have hrequired : ∀ node ∈ nodes, node.parameters.flag "required" true = true := by
    decide +kernel
  obtain ⟨whole, hwhole, -, hsuggest⟩ := parse_and_suggest_append hname hnumber hswitch
  refine ⟨hswitch, hrequired, whole, hwhole, fun line => ?_⟩
  rw [hsuggest hrequired line]
  cases name.parse line <;> rfl

end Chain

end CommandGrammar
