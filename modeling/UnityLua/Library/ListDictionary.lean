import Mathlib.Data.List.Pairwise

/-!
# Dictionaries as lists

A dictionary that is a list of its entries in the order they were added. Keys are compared by a
test `eq`, which need not be the equality of the keys; setting a key replaces the value of the
first entry that the test finds, and adds an entry at the end if there is none.

## Main results

* `fill_eq`: filled with entries whose keys the test tells apart, a dictionary holds these
  entries in this order, none merged and none lost.
-/

namespace Library

universe u v

variable {K : Type u} {V : Type v} (eq : K → K → Bool)

/-- The test finds no earlier key equal to a later one. -/
def Apart (keys : List K) : Prop := keys.Pairwise fun k k' => eq k k' = false

/-- A list with its entry for the key set. -/
def setEntry (k : K) (v : V) : List (K × V) → List (K × V)
  | [] => [(k, v)]
  | (k', v') :: entries =>
      if eq k' k then (k', v) :: entries else (k', v') :: setEntry k v entries

/-- The keys stay, and a new one comes last. -/
theorem setEntry_keys (k : K) (v : V) (entries : List (K × V)) :
    (setEntry eq k v entries).map Prod.fst = entries.map Prod.fst ∨
      (setEntry eq k v entries).map Prod.fst = entries.map Prod.fst ++ [k] ∧
        ∀ k' ∈ entries.map Prod.fst, eq k' k = false := by
  induction entries with
  | nil => exact Or.inr ⟨rfl, nofun⟩
  | cons e entries ih =>
      obtain ⟨k', v'⟩ := e
      unfold setEntry
      cases hk : eq k' k
      · rw [if_neg Bool.false_ne_true]
        rcases ih with ih | ⟨ih, hnew⟩
        · exact Or.inl (by rw [List.map_cons, ih, List.map_cons])
        · exact Or.inr ⟨by rw [List.map_cons, ih, List.map_cons, List.cons_append],
            List.forall_mem_cons.mpr ⟨hk, hnew⟩⟩
      · exact Or.inl rfl

theorem setEntry_of_new {k : K} {entries : List (K × V)} (v : V)
    (h : ∀ e ∈ entries, eq e.1 k = false) : setEntry eq k v entries = entries ++ [(k, v)] := by
  induction entries with
  | nil => rfl
  | cons e entries ih =>
      obtain ⟨hk, h⟩ := List.forall_mem_cons.mp h
      unfold setEntry
      rw [hk, if_neg Bool.false_ne_true, ih h, List.cons_append]

/-- A dictionary: the test tells all keys apart. -/
structure ListDictionary (K : Type u) (V : Type v) (eq : K → K → Bool) where
  entries : List (K × V)
  apart : Apart eq (entries.map Prod.fst)

namespace ListDictionary

variable {eq}

def empty : ListDictionary K V eq := ⟨[], List.Pairwise.nil⟩

/-- Sets the value of a key. -/
def set (d : ListDictionary K V eq) (k : K) (v : V) : ListDictionary K V eq where
  entries := setEntry eq k v d.entries
  apart := by
    rcases setEntry_keys eq k v d.entries with h | ⟨h, hnew⟩
    · exact h ▸ d.apart
    · rw [h]
      refine List.pairwise_append.mpr ⟨d.apart, List.pairwise_singleton _ _, fun a ha b hb => ?_⟩
      rw [List.mem_singleton.mp hb]
      exact hnew a ha

/-- The values, in the order of the entries. -/
def Values (d : ListDictionary K V eq) : List V := d.entries.map Prod.snd

/-- Sets one entry after the other. -/
def fill (d : ListDictionary K V eq) (entries : List (K × V)) : ListDictionary K V eq :=
  entries.foldl (fun d e => d.set e.1 e.2) d

theorem fill_entries {d : ListDictionary K V eq} {entries : List (K × V)}
    (h : Apart eq ((d.entries ++ entries).map Prod.fst)) :
    (d.fill entries).entries = d.entries ++ entries := by
  induction entries generalizing d with
  | nil => exact (List.append_nil _).symm
  | cons e entries ih =>
      have hset : (d.set e.1 e.2).entries = d.entries ++ [e] := by
        refine setEntry_of_new eq e.2 fun e' he' => ?_
        rw [List.map_append] at h
        exact (List.pairwise_append.mp h).2.2 e'.1 (List.mem_map_of_mem he') e.1
          (List.mem_map_of_mem List.mem_cons_self)
      have hfill := ih (by rwa [hset, List.append_assoc])
      rw [hset, List.append_assoc] at hfill
      exact hfill

/-- **Nothing is merged or lost.** -/
theorem fill_eq {entries : List (K × V)} (h : Apart eq (entries.map Prod.fst)) :
    ((empty : ListDictionary K V eq).fill entries).entries = entries :=
  fill_entries h

end ListDictionary

end Library
