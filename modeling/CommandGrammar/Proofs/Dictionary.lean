/-
What a dictionary answers and how it is rebuilt. A pair put into it is
found under its key and hides nothing else (`get?_insert`), and the
pairs of a dictionary, put one after the other into an empty one, make
up the same dictionary (`ofList_entries`).
-/
import CommandGrammar.Dictionary

namespace CommandGrammar.Dictionary

variable {β : Type}

-- ================================================================ lookup

theorem lookup_cons_eq {κ : Type} [DecidableEq κ] (key : κ) (value : β) (k : κ)
    (entries : List (κ × β)) :
    ((key, value) :: entries).lookup k = if k = key then some value else entries.lookup k := by
  rw [List.lookup_cons]
  by_cases h : k = key
  · rw [if_pos h, beq_iff_eq.2 h]
  · rw [if_neg h, beq_false_of_ne h]

/-- A placed pair answers its key; the other keys answer as before. -/
theorem lookup_place (key : String) (value : β) (k : String) (entries : List (String × β)) :
    (place key value entries).lookup k = if k = key then some value else entries.lookup k := by
  induction entries with
  | nil => rw [place, lookup_cons_eq]
  | cons entry rest ih =>
      obtain ⟨first, v⟩ := entry
      rw [place]
      by_cases hbefore : key < first
      · rw [if_pos hbefore, lookup_cons_eq]
      · rw [if_neg hbefore]
        by_cases hafter : first < key
        · rw [if_pos hafter, lookup_cons_eq, lookup_cons_eq, ih]
          by_cases hfirst : k = first
          · have hne : k ≠ key := by
              rintro rfl
              exact String.lt_irrefl _ (hfirst ▸ hafter)
            rw [if_pos hfirst, if_neg hne, if_pos hfirst]
          · rw [if_neg hfirst, if_neg hfirst]
        · have hsame : key = first :=
            String.le_antisymm (String.not_lt.1 hafter) (String.not_lt.1 hbefore)
          subst hsame
          rw [if_neg hafter, lookup_cons_eq, lookup_cons_eq]
          split <;> rfl

/-- A pair put in answers its key; the other keys answer as before. -/
theorem get?_insert (d : Dictionary β) (key : String) (value : β) (k : String) :
    (d.insert key value).get? k = if k = key then some value else d.get? k :=
  lookup_place key value k d.entries

-- ============================================================ rebuilding

/-- A key behind all others goes to the end. -/
theorem place_of_forall_lt {key : String} (value : β) {entries : List (String × β)}
    (h : ∀ p ∈ entries, p.1 < key) : place key value entries = entries ++ [(key, value)] := by
  induction entries with
  | nil => rfl
  | cons entry rest ih =>
      have hfirst : entry.1 < key := h entry (List.mem_cons_self ..)
      rw [place, if_neg (String.lt_asymm hfirst), if_pos hfirst,
        ih fun p hp => h p (List.mem_cons_of_mem _ hp), List.cons_append]

/-- Ascending pairs put in behind the pairs of a dictionary. -/
theorem entries_foldl_insert {pairs : List (String × β)} :
    ∀ {d : Dictionary β}, (d.entries ++ pairs).Pairwise (fun a b => a.1 < b.1) →
      (pairs.foldl (fun d p => d.insert p.1 p.2) d).entries = d.entries ++ pairs := by
  induction pairs with
  | nil => intro d _; exact (List.append_nil _).symm
  | cons pair rest ih =>
      intro d h
      have hlast : ∀ p ∈ d.entries, p.1 < pair.1 := fun p hp =>
        (List.pairwise_append.1 h).2.2 p hp pair (List.mem_cons_self ..)
      have hinsert : (d.insert pair.1 pair.2).entries = d.entries ++ [pair] :=
        place_of_forall_lt pair.2 hlast
      rw [List.foldl_cons, ih]
      · rw [hinsert, List.append_assoc, List.singleton_append]
      · rw [hinsert, List.append_assoc, List.singleton_append]
        exact h

/-- The pairs of a dictionary make up the same dictionary. -/
theorem ofList_entries (d : Dictionary β) : ofList d.entries = d := by
  refine ext ?_
  rw [ofList, entries_foldl_insert]
  · rfl
  · exact d.ascending

/-- What a dictionary holds was put into it. -/
theorem mem_of_mem_entries_foldl_insert {pairs : List (String × β)} {p : String × β} :
    ∀ {d : Dictionary β}, p ∈ (pairs.foldl (fun d p => d.insert p.1 p.2) d).entries →
      p ∈ d.entries ∨ p ∈ pairs := by
  induction pairs with
  | nil => intro d h; exact Or.inl h
  | cons pair rest ih =>
      intro d h
      rcases ih h with h | h
      · rcases eq_or_mem_of_mem_place h with rfl | h
        · exact Or.inr (List.mem_cons_self ..)
        · exact Or.inl h
      · exact Or.inr (List.mem_cons_of_mem _ h)

theorem mem_of_mem_ofList {pairs : List (String × β)} {p : String × β}
    (h : p ∈ (ofList pairs).entries) : p ∈ pairs := by
  rcases mem_of_mem_entries_foldl_insert h with h | h
  · cases h
  · exact h

end CommandGrammar.Dictionary
