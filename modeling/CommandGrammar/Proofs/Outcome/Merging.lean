/-
The algebra of outcomes. Merging is associative and has the outcome that found
nothing for its unit, and words consumed before everything act on outcomes: one after
the other they act as their sum, and they may be added before merging or after it. So
a walk may merge what it finds in any grouping, and a part of it may count its words
from any place (`merging_laws`).

All of it comes down to keeping one of two findings. `Kept` states that rule without
computing it: the left finding is kept unless the right one is strictly heavier. Equal
weights added to both change neither which one is kept nor which refusal of a list is
the best one.
-/
import CommandGrammar.Proofs.Outcome
import Mathlib.Logic.ExistsUnique

namespace CommandGrammar

-- ============================================================== findings

namespace Weighted

variable {β : Type}

/-- What is kept of two findings that may be missing: the heavier one, and of two
that are equally heavy the left one. -/
inductive Kept : Option (Weighted β) → Option (Weighted β) → Option (Weighted β) → Prop
  /-- There is none. -/
  | neither : Kept none none none
  /-- The right one, if there is one, is no heavier. -/
  | left {a : Weighted β} {b : Option (Weighted β)} :
      (∀ other, b = some other → other.weight ≤ a.weight) → Kept (some a) b (some a)
  /-- The left one, if there is one, is lighter. -/
  | right {a : Option (Weighted β)} {b : Weighted β} :
      (∀ other, a = some other → other.weight < b.weight) → Kept a (some b) (some b)

theorem kept_heavier (a b : Option (Weighted β)) : Kept a b (heavier a b) := by
  cases a with
  | none =>
      cases b with
      | none => exact .neither
      | some b => exact .right fun _ h => by cases h
  | some a =>
      cases b with
      | none => exact .left fun _ h => by cases h
      | some b =>
          rw [heavier]
          split
          case isTrue hlt => exact .right fun other h => Option.some.inj h ▸ hlt
          case isFalse hge => exact .left fun other h => Option.some.inj h ▸ Nat.le_of_not_lt hge

/-- Words consumed before both findings leave which one is heavier. -/
theorem offset_lt_offset (words : Nat) (a b : Weighted β) :
    (a.offset words).weight < (b.offset words).weight ↔ a.weight < b.weight :=
  Nat.add_lt_add_iff_right

theorem offset_offset (finding : Weighted β) (v w : Nat) :
    (finding.offset v).offset w = finding.offset (v + w) := by
  unfold offset
  rw [Nat.add_assoc]

theorem offset_injective (words : Nat) {a b : Weighted β} (h : a.offset words = b.offset words) :
    a = b := by
  obtain ⟨weight, item⟩ := a
  obtain ⟨other, found⟩ := b
  simp only [offset, mk.injEq, Nat.add_right_cancel_iff] at h ⊢
  exact h

end Weighted

-- ============================================================== outcomes

namespace Outcome

variable {m : Type → Type} {α : Type}

theorem offset_empty (words : Nat) : (∅ : Outcome m α).offset words = ∅ := rfl

theorem offset_zero (a : Outcome m α) : a.offset 0 = a := by
  ext1
  case suggestions => rfl
  case refusals => exact List.map_id' a.refusals
  all_goals exact congrFun Option.map_id _

theorem offset_offset (a : Outcome m α) (v w : Nat) : (a.offset v).offset w = a.offset (v + w) := by
  have hfinding : ∀ {β : Type},
      ((·.offset w) ∘ (·.offset v) : Weighted β → Weighted β) = (·.offset (v + w)) :=
    funext fun finding => finding.offset_offset v w
  ext1
  case suggestions => rfl
  case refusals => exact List.map_map.trans (by rw [hfinding]; rfl)
  all_goals exact (Option.map_map _ _ _).trans (by rw [hfinding]; rfl)

/-- Words consumed may be added before merging or after it. -/
theorem offset_append (words : Nat) (a b : Outcome m α) :
    (a ++ b).offset words = a.offset words ++ b.offset words := by
  ext1
  case refusals => exact List.map_append
  case suggestions => rfl
  all_goals exact (Weighted.heavier_map (Weighted.offset_lt_offset words) _ _).symm

theorem bestRefusal_append (a b : Outcome m α) :
    (a ++ b).bestRefusal = Weighted.heavier a.bestRefusal b.bestRefusal :=
  Weighted.heaviest_append a.refusals b.refusals

theorem bestRefusal_offset (a : Outcome m α) (words : Nat) :
    (a.offset words).bestRefusal = a.bestRefusal.map (·.offset words) :=
  Weighted.heaviest_map (Weighted.offset_lt_offset words) a.refusals

/-- The refusal at a place is the best one: it is the one answered, and all before it
are lighter. -/
def Selects (outcome : Outcome m α) (place : Nat) : Prop :=
  ∃ best, outcome.bestRefusal = some best ∧ outcome.refusals[place]? = some best
    ∧ ∀ earlier < place, ∀ other, outcome.refusals[earlier]? = some other →
      other.weight < best.weight

theorem Selects.unique {outcome : Outcome m α} {place other : Nat} (h : outcome.Selects place)
    (hother : outcome.Selects other) : other = place := by
  obtain ⟨best, hbest, hplace, hlighter⟩ := h
  obtain ⟨same, hsame, hplace', hlighter'⟩ := hother
  obtain rfl : same = best := Option.some.inj (hsame.symm.trans hbest)
  rcases Nat.lt_trichotomy other place with hlt | heq | hlt
  · exact absurd (hlighter other hlt same hplace') (Nat.lt_irrefl _)
  · exact heq
  · exact absurd (hlighter' place hlt same hplace) (Nat.lt_irrefl _)

/-- Among any refusals one is selected. -/
theorem existsUnique_selects {outcome : Outcome m α} :
    (∃! place, outcome.Selects place) ↔ outcome.refusals ≠ [] := by
  constructor
  · rintro ⟨place, ⟨best, -, hplace, -⟩, -⟩ hnil
    rw [hnil] at hplace
    cases hplace
  · intro hne
    cases hbest : outcome.bestRefusal with
    | none => exact absurd (Weighted.heaviest_eq_none_iff.1 hbest) hne
    | some best =>
        obtain ⟨before, behind, hsplit, hlighter, -⟩ := Weighted.heaviest_eq_some_iff.1 hbest
        have hselects : outcome.Selects before.length := by
          refine ⟨best, hbest, ?_, fun earlier hlt other hother => ?_⟩
          · rw [hsplit, List.getElem?_append_right (Nat.le_refl _), Nat.sub_self]
            rfl
          · rw [hsplit, List.getElem?_append_left hlt] at hother
            exact hlighter other (List.mem_of_getElem? hother)
        exact ⟨before.length, hselects, fun other hother => hselects.unique hother⟩

/-- Words consumed before everything leave which refusal is selected. -/
theorem selects_offset {outcome : Outcome m α} (words place : Nat) :
    (outcome.offset words).Selects place ↔ outcome.Selects place := by
  have hget : ∀ place, (outcome.offset words).refusals[place]?
      = outcome.refusals[place]?.map (Weighted.offset · words) := fun _ => List.getElem?_map
  unfold Selects
  simp only [bestRefusal_offset, hget, Option.map_eq_some_iff]
  constructor
  · rintro ⟨_, ⟨best, hbest, rfl⟩, ⟨found, hfound, hsame⟩, hlighter⟩
    obtain rfl : found = best := Weighted.offset_injective words hsame
    refine ⟨found, hbest, hfound, fun earlier hlt other hother => ?_⟩
    exact (Weighted.offset_lt_offset words other found).1
      (hlighter earlier hlt _ ⟨other, hother, rfl⟩)
  · rintro ⟨best, hbest, hplace, hlighter⟩
    refine ⟨best.offset words, ⟨best, hbest, rfl⟩, ⟨best, hplace, rfl⟩, ?_⟩
    rintro earlier hlt _ ⟨other, hother, rfl⟩
    exact (Weighted.offset_lt_offset words other best).2 (hlighter earlier hlt other hother)

/-- Outcomes under merging are a monoid on which numbers of words act. Merging is
associative and the outcome that found nothing changes nothing; words are added one
after the other as at once, before merging as after it. A merged outcome strings the
refusals and the suggestions together and keeps the heavier of each two candidates,
the left one on a tie; its best refusal is the better of the two best ones by the same
rule. Words added leave which refusal is the best one. -/
theorem merging_laws (a b c : Outcome m α) (v w : Nat) :
    (a ++ b) ++ c = a ++ (b ++ c) ∧ ∅ ++ a = a ∧ a ++ ∅ = a
      ∧ (a.offset v).offset w = a.offset (v + w) ∧ a.offset 0 = a
      ∧ (a ++ b).offset v = a.offset v ++ b.offset v ∧ (∅ : Outcome m α).offset v = ∅
      ∧ (a ++ b).refusals = a.refusals ++ b.refusals
      ∧ (a ++ b).suggestions = a.suggestions ++ b.suggestions
      ∧ Weighted.Kept a.execution b.execution (a ++ b).execution
      ∧ Weighted.Kept a.reporting b.reporting (a ++ b).reporting
      ∧ Weighted.Kept a.completion b.completion (a ++ b).completion
      ∧ Weighted.Kept a.bestRefusal b.bestRefusal (a ++ b).bestRefusal
      ∧ ((∃! place, a.Selects place) ↔ a.refusals ≠ [])
      ∧ (∀ place, (a.offset v).Selects place ↔ a.Selects place)
      ∧ (a.offset v).bestRefusal = a.bestRefusal.map (·.offset v) := by
  refine ⟨append_assoc a b c, empty_append a, append_empty a, offset_offset a v w, offset_zero a,
    offset_append v a b, offset_empty v, refusals_append a b, suggestions_append a b,
    Weighted.kept_heavier _ _, Weighted.kept_heavier _ _, Weighted.kept_heavier _ _, ?_,
    existsUnique_selects, selects_offset v, bestRefusal_offset a v⟩
  rw [bestRefusal_append]
  exact Weighted.kept_heavier _ _

end Outcome

end CommandGrammar
