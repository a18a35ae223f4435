/-
Finite maps from text to values of one type, kept as a list of pairs
in ascending order of their keys. The order is part of the type, so a
map has one representation: two maps that hold the same pairs are
equal, and listing a map needs no sorting.
-/
namespace CommandGrammar

/-- Pairs of a key and a value, each key at most once, keys ascending. -/
structure Dictionary (β : Type) where
  /-- The pairs in ascending order of their keys. -/
  entries : List (String × β)
  /-- Each key comes before every later one. -/
  ascending : entries.Pairwise fun a b => a.1 < b.1

namespace Dictionary

variable {β : Type}

@[ext] theorem ext {a b : Dictionary β} (h : a.entries = b.entries) : a = b := by
  cases a; cases b; cases h; rfl

instance [DecidableEq β] : DecidableEq (Dictionary β) := fun a b =>
  decidable_of_iff (a.entries = b.entries) ⟨ext, congrArg entries⟩

-- ============================================================ insertion

/-- Puts a pair at its place in an ascending list, in the stead of a
pair with the same key. -/
def place (key : String) (value : β) : List (String × β) → List (String × β)
  | [] => [(key, value)]
  | (k, v) :: rest =>
      if key < k then (key, value) :: (k, v) :: rest
      else if k < key then (k, v) :: place key value rest
      else (key, value) :: rest

/-- A pair of the result is the new one or an old one. -/
theorem eq_or_mem_of_mem_place {key : String} {value : β} {p : String × β} :
    {entries : List (String × β)} → p ∈ place key value entries →
      p = (key, value) ∨ p ∈ entries
  | [], h => by simpa [place] using h
  | (k, v) :: rest, h => by
      simp only [place] at h
      split at h
      · simpa using h
      · split at h
        · rcases List.mem_cons.1 h with rfl | h
          · exact .inr (List.mem_cons_self ..)
          · rcases eq_or_mem_of_mem_place h with rfl | h
            · exact .inl rfl
            · exact .inr (List.mem_cons_of_mem _ h)
        · rcases List.mem_cons.1 h with rfl | h
          · exact .inl rfl
          · exact .inr (List.mem_cons_of_mem _ h)

/-- Placing keeps the keys ascending. -/
theorem ascending_place (key : String) (value : β) :
    {entries : List (String × β)} → entries.Pairwise (fun a b => a.1 < b.1) →
      (place key value entries).Pairwise fun a b => a.1 < b.1
  | [], _ => by simp [place]
  | (k, v) :: rest, h => by
      obtain ⟨first, rest_ascending⟩ := List.pairwise_cons.1 h
      simp only [place]
      split
      · next before =>
        refine List.pairwise_cons.2 ⟨fun p hp => ?_, h⟩
        rcases List.mem_cons.1 hp with rfl | hp
        · exact before
        · exact String.lt_trans before (first p hp)
      · next not_before =>
        split
        · next after =>
          refine List.pairwise_cons.2 ⟨fun p hp => ?_, ascending_place key value rest_ascending⟩
          rcases eq_or_mem_of_mem_place hp with rfl | hp
          · exact after
          · exact first p hp
        · next not_after =>
          have same : key = k :=
            String.le_antisymm (String.not_lt.1 not_after) (String.not_lt.1 not_before)
          subst same
          exact List.pairwise_cons.2 ⟨first, rest_ascending⟩

/-- The map without pairs. -/
def empty : Dictionary β := ⟨[], .nil⟩

instance : EmptyCollection (Dictionary β) := ⟨empty⟩

instance : Inhabited (Dictionary β) := ⟨empty⟩

/-- The map that answers `value` at `key`, and elsewhere as before. -/
def insert (d : Dictionary β) (key : String) (value : β) : Dictionary β :=
  ⟨place key value d.entries, ascending_place key value d.ascending⟩

/-- The map of a list of pairs; of equal keys the last one counts. -/
def ofList (pairs : List (String × β)) : Dictionary β :=
  pairs.foldl (fun d p => d.insert p.1 p.2) empty

-- ============================================================== reading

/-- The value at a key, if there is one. -/
def get? (d : Dictionary β) (key : String) : Option β :=
  d.entries.lookup key

/-- Whether the map has a value at the key. -/
def contains (d : Dictionary β) (key : String) : Bool :=
  (d.get? key).isSome

/-- The keys, ascending. -/
def keys (d : Dictionary β) : List String :=
  d.entries.map Prod.fst

/-- The number of pairs. -/
def size (d : Dictionary β) : Nat :=
  d.entries.length

/-- Whether there is no pair. -/
def isEmpty (d : Dictionary β) : Bool :=
  d.entries.isEmpty

end Dictionary

end CommandGrammar
