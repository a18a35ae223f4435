/-
Outcomes under merging. Keeping the heavier of two findings, the left
one on a tie, is associative, so however a walk groups its merges the
same finding is left over: the first of the heaviest. `heaviest_eq_some_iff`
says what that means of a list: everything before it is lighter, and
nothing behind it is heavier.
-/
import CommandGrammar.Outcome

namespace CommandGrammar

-- ============================================================== findings

namespace Weighted

variable {β : Type}

@[simp] theorem heavier_none_left (a : Option (Weighted β)) : heavier none a = a := by
  cases a <;> rfl

@[simp] theorem heavier_none_right (a : Option (Weighted β)) : heavier a none = a := by
  cases a <;> rfl

theorem heavier_assoc (a b c : Option (Weighted β)) :
    heavier (heavier a b) c = heavier a (heavier b c) := by
  cases a with
  | none => simp
  | some a =>
      cases b with
      | none => simp
      | some b =>
          cases c with
          | none => simp
          | some c =>
              by_cases hab : a.weight < b.weight <;> by_cases hbc : b.weight < c.weight <;>
                by_cases hac : a.weight < c.weight <;> simp [heavier, hab, hbc, hac] <;> omega

/-- How heavy the heavier of two findings is depends on their weights only. -/
theorem weight_heavier_congr {a b c d : Option (Weighted β)} (hac : a.map weight = c.map weight)
    (hbd : b.map weight = d.map weight) : (heavier a b).map weight = (heavier c d).map weight := by
  rcases a with - | a <;> rcases c with - | c <;> simp only [Option.map_none, Option.map_some,
    reduceCtorEq, Option.some.injEq] at hac
  · simpa using hbd
  · rcases b with - | b <;> rcases d with - | d <;> simp only [Option.map_none, Option.map_some,
      reduceCtorEq, Option.some.injEq] at hbd
    · exact congrArg some hac
    · simp only [heavier, hac, hbd]
      split
      · exact congrArg some hbd
      · exact congrArg some hac

/-- Of two findings one is left over if there is one. -/
theorem isSome_heavier (a b : Option (Weighted β)) :
    (heavier a b).isSome = (a.isSome || b.isSome) := by
  cases a with
  | none => simp
  | some a =>
      cases b with
      | none => rfl
      | some b =>
          rw [heavier]
          split <;> rfl

@[simp] theorem heaviest_nil : heaviest ([] : List (Weighted β)) = none := rfl

/-- Scanning on from a finding keeps the heavier of it and of what is
found behind it. -/
theorem foldl_heavier (best : Option (Weighted β)) (findings : List (Weighted β)) :
    findings.foldl (fun best finding => heavier best (some finding)) best
      = heavier best (heaviest findings) := by
  induction findings generalizing best with
  | nil => simp
  | cons finding rest ih =>
      unfold heaviest
      rw [List.foldl_cons, List.foldl_cons, ih, ih (heavier none (some finding)),
        heavier_none_left, heavier_assoc]

/-- The first finding counts unless a later one is heavier. -/
theorem heaviest_cons (finding : Weighted β) (rest : List (Weighted β)) :
    heaviest (finding :: rest) = heavier (some finding) (heaviest rest) :=
  foldl_heavier (some finding) rest

theorem heaviest_append (a b : List (Weighted β)) :
    heaviest (a ++ b) = heavier (heaviest a) (heaviest b) := by
  unfold heaviest
  rw [List.foldl_append]
  exact foldl_heavier _ b

/-- A change of findings commutes with keeping the heavier one if it leaves
which one that is. -/
theorem heavier_map {γ : Type} {f : Weighted β → Weighted γ}
    (hf : ∀ a b, (f a).weight < (f b).weight ↔ a.weight < b.weight) (a b : Option (Weighted β)) :
    heavier (a.map f) (b.map f) = (heavier a b).map f := by
  rcases a with - | a <;> rcases b with - | b <;> try rfl
  by_cases h : a.weight < b.weight
  · have hmapped := (hf a b).2 h
    simp only [Option.map_some, heavier, if_pos h, if_pos hmapped]
  · have hmapped := fun hlt => h ((hf a b).1 hlt)
    simp only [Option.map_some, heavier, if_neg h, if_neg hmapped]

/-- The same change of all findings of a list leaves which one is heaviest. -/
theorem heaviest_map {γ : Type} {f : Weighted β → Weighted γ}
    (hf : ∀ a b, (f a).weight < (f b).weight ↔ a.weight < b.weight)
    (findings : List (Weighted β)) : heaviest (findings.map f) = (heaviest findings).map f := by
  induction findings with
  | nil => rfl
  | cons finding rest ih =>
      rw [List.map_cons, heaviest_cons, heaviest_cons, ih, ← heavier_map hf]
      rfl

/-- Only an empty list has no heaviest finding. -/
theorem heaviest_eq_none_iff {findings : List (Weighted β)} :
    heaviest findings = none ↔ findings = [] := by
  cases findings with
  | nil => simp
  | cons finding rest =>
      rw [heaviest_cons]
      cases heaviest rest with
      | none => simp
      | some best =>
          simp only [heavier]
          split <;> simp

/-- The heaviest finding is the first of greatest weight. -/
theorem heaviest_eq_some_iff {findings : List (Weighted β)} {best : Weighted β} :
    heaviest findings = some best
      ↔ ∃ before behind, findings = before ++ best :: behind
        ∧ (∀ finding ∈ before, finding.weight < best.weight)
        ∧ ∀ finding ∈ behind, finding.weight ≤ best.weight := by
  induction findings generalizing best with
  | nil => simp
  | cons finding rest ih =>
      rw [heaviest_cons]
      constructor
      · intro h
        cases hrest : heaviest rest with
        | none =>
            rw [heaviest_eq_none_iff] at hrest
            subst hrest
            injection h with h
            exact ⟨[], [], by rw [h]; rfl, by simp, by simp⟩
        | some other =>
            rw [hrest] at h
            obtain ⟨before, behind, rfl, hbefore, hbehind⟩ := ih.1 hrest
            simp only [heavier] at h
            split at h
            case isTrue hlt =>
              injection h with h
              subst h
              refine ⟨finding :: before, behind, rfl, fun f hf => ?_, hbehind⟩
              rcases List.mem_cons.1 hf with rfl | hf
              · exact hlt
              · exact hbefore f hf
            case isFalse hge =>
              injection h with h
              subst h
              refine ⟨[], _, rfl, by simp, fun f hf => ?_⟩
              rcases List.mem_append.1 hf with hf | hf
              · have := hbefore f hf
                omega
              · rcases List.mem_cons.1 hf with rfl | hf
                · omega
                · have := hbehind f hf
                  omega
      · rintro ⟨before, behind, hsplit, hbefore, hbehind⟩
        cases before with
        | nil =>
            injection hsplit with hhead htail
            subst hhead htail
            cases hrest : heaviest rest with
            | none => rfl
            | some other =>
                obtain ⟨before, behind, rfl, -, -⟩ := ih.1 hrest
                have := hbehind other (by simp)
                simp only [heavier]
                rw [if_neg (by omega)]
        | cons first before =>
            injection hsplit with hhead htail
            subst hhead
            rw [ih.2 ⟨before, behind, htail,
              fun f hf => hbefore f (List.mem_cons_of_mem _ hf), hbehind⟩]
            simp only [heavier]
            rw [if_pos (hbefore finding (List.mem_cons_self ..))]

/-- Where only some things are findings, the heaviest is the first of greatest
weight among these. -/
theorem exists_of_heaviest_filterMap {γ : Type} {f : γ → Option (Weighted β)} {things : List γ}
    {best : Weighted β} (h : heaviest (things.filterMap f) = some best) :
    ∃ before thing behind, things = before ++ thing :: behind ∧ f thing = some best
      ∧ (∀ other ∈ before, ∀ finding, f other = some finding → finding.weight < best.weight)
      ∧ ∀ other ∈ behind, ∀ finding, f other = some finding → finding.weight ≤ best.weight := by
  obtain ⟨lighter, noHeavier, hsplit, hlighter, hnoHeavier⟩ := heaviest_eq_some_iff.1 h
  obtain ⟨before, others, rfl, rfl, hothers⟩ := List.filterMap_eq_append_iff.1 hsplit
  obtain ⟨silent, thing, behind, rfl, hsilent, hthing, rfl⟩ := List.filterMap_eq_cons_iff.1 hothers
  refine ⟨before ++ silent, thing, behind, by rw [List.append_assoc], hthing, ?_, ?_⟩
  · intro other hother finding hfinding
    rcases List.mem_append.1 hother with hother | hother
    · exact hlighter finding (List.mem_filterMap.2 ⟨other, hother, hfinding⟩)
    · rw [hsilent other hother] at hfinding
      cases hfinding
  · intro other hother finding hfinding
    exact hnoHeavier finding (List.mem_filterMap.2 ⟨other, hother, hfinding⟩)

/-- The heaviest finding is one of those found, and none outweighs it. -/
theorem le_of_heaviest {findings : List (Weighted β)} {best : Weighted β}
    (h : heaviest findings = some best) :
    best ∈ findings ∧ ∀ finding ∈ findings, finding.weight ≤ best.weight := by
  obtain ⟨before, behind, rfl, hbefore, hbehind⟩ := heaviest_eq_some_iff.1 h
  refine ⟨by simp, fun finding hfinding => ?_⟩
  rcases List.mem_append.1 hfinding with hfinding | hfinding
  · exact Nat.le_of_lt (hbefore finding hfinding)
  · rcases List.mem_cons.1 hfinding with rfl | hfinding
    · exact Nat.le_refl _
    · exact hbehind finding hfinding

/-- A finding of a list adds nothing to the list. -/
theorem heavier_of_mem {findings : List (Weighted β)} {finding : Weighted β}
    (h : finding ∈ findings) : heavier (heaviest findings) (some finding) = heaviest findings := by
  cases hbest : heaviest findings with
  | none =>
      rw [heaviest_eq_none_iff.1 hbest] at h
      cases h
  | some best =>
      have hle := (le_of_heaviest hbest).2 finding h
      rw [heavier, if_neg (Nat.not_lt.2 hle)]

/-- How heavy the heaviest finding is does not depend on the order. -/
theorem weight_heaviest_of_perm {a b : List (Weighted β)} (h : a.Perm b) :
    (heaviest a).map Weighted.weight = (heaviest b).map Weighted.weight := by
  cases ha : heaviest a with
  | none =>
      rw [heaviest_eq_none_iff] at ha
      subst ha
      rw [List.nil_perm.1 h]
      rfl
  | some x =>
      obtain ⟨hx, hxmax⟩ := le_of_heaviest ha
      cases hb : heaviest b with
      | none =>
          rw [heaviest_eq_none_iff] at hb
          subst hb
          exact absurd (h.subset hx) List.not_mem_nil
      | some y =>
          obtain ⟨hy, hymax⟩ := le_of_heaviest hb
          exact congrArg some
            (Nat.le_antisymm (hymax x (h.subset hx)) (hxmax y (h.symm.subset hy)))

/-- If all others are lighter, neither does which one it is. -/
theorem heaviest_eq_some_of_perm {findings others : List (Weighted β)} {best : Weighted β}
    (h : findings.Perm (best :: others)) (hothers : ∀ other ∈ others, other.weight < best.weight) :
    heaviest findings = some best := by
  cases hheaviest : heaviest findings with
  | none =>
      rw [heaviest_eq_none_iff] at hheaviest
      subst hheaviest
      exact absurd (List.nil_perm.1 h) (List.cons_ne_nil _ _)
  | some found =>
      obtain ⟨hfound, hmax⟩ := le_of_heaviest hheaviest
      rcases List.mem_cons.1 (h.subset hfound) with rfl | hother
      · rfl
      · have hlt := hothers found hother
        have hle := hmax best (h.symm.subset (List.mem_cons_self ..))
        omega

end Weighted

-- ============================================================== outcomes

namespace Outcome

variable {m : Type → Type} {α : Type}

@[ext] theorem ext {a b : Outcome m α} (execution : a.execution = b.execution)
    (reporting : a.reporting = b.reporting) (completion : a.completion = b.completion)
    (refusals : a.refusals = b.refusals) (suggestions : a.suggestions = b.suggestions) :
    a = b := by
  cases a; cases b
  congr

@[simp] theorem execution_append (a b : Outcome m α) :
    (a ++ b).execution = Weighted.heavier a.execution b.execution := rfl

@[simp] theorem reporting_append (a b : Outcome m α) :
    (a ++ b).reporting = Weighted.heavier a.reporting b.reporting := rfl

@[simp] theorem completion_append (a b : Outcome m α) :
    (a ++ b).completion = Weighted.heavier a.completion b.completion := rfl

@[simp] theorem refusals_append (a b : Outcome m α) :
    (a ++ b).refusals = a.refusals ++ b.refusals := rfl

@[simp] theorem suggestions_append (a b : Outcome m α) :
    (a ++ b).suggestions = a.suggestions ++ b.suggestions := rfl

@[simp] theorem execution_empty : (∅ : Outcome m α).execution = none := rfl

@[simp] theorem reporting_empty : (∅ : Outcome m α).reporting = none := rfl

@[simp] theorem completion_empty : (∅ : Outcome m α).completion = none := rfl

@[simp] theorem refusals_empty : (∅ : Outcome m α).refusals = [] := rfl

@[simp] theorem suggestions_empty : (∅ : Outcome m α).suggestions = [] := rfl

@[simp] theorem append_empty (a : Outcome m α) : a ++ ∅ = a := by
  ext1 <;> simp

@[simp] theorem empty_append (a : Outcome m α) : ∅ ++ a = a := by
  ext1 <;> simp

theorem append_assoc (a b c : Outcome m α) : a ++ b ++ c = a ++ (b ++ c) := by
  ext1 <;> simp [Weighted.heavier_assoc]

@[simp] theorem suggestions_ofSuggestions (groups : List SuggestionGroup)
    (handler : Option (CompleteHandler m)) (weight : Nat) :
    (ofSuggestions groups handler weight : Outcome m α).suggestions = groups := by
  cases groups <;> rfl

@[simp] theorem refusals_ofSuggestions (groups : List SuggestionGroup)
    (handler : Option (CompleteHandler m)) (weight : Nat) :
    (ofSuggestions groups handler weight : Outcome m α).refusals = [] := by
  cases groups <;> rfl

@[simp] theorem execution_ofSuggestions (groups : List SuggestionGroup)
    (handler : Option (CompleteHandler m)) (weight : Nat) :
    (ofSuggestions groups handler weight : Outcome m α).execution = none := by
  cases groups <;> rfl

@[simp] theorem reporting_ofSuggestions (groups : List SuggestionGroup)
    (handler : Option (CompleteHandler m)) (weight : Nat) :
    (ofSuggestions groups handler weight : Outcome m α).reporting = none := by
  cases groups <;> rfl

end Outcome

end CommandGrammar
