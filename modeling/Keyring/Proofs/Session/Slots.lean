import Keyring.Session.Slots
import Mathlib
/-!
# Slots as a map

What is in a slot after one slot has been written or cleared. The order of the entries matters to
whoever walks over them all, and to no one who looks a name up.
-/

namespace Keyring.Session.Slots

variable {α : Type}

/-- The first entry of a name is found. -/
theorem lookup_cons (n : String) (b : α) (l : List (String × α)) (k : String) :
    ((n, b) :: l).lookup k = if k = n then some b else l.lookup k := by
  rw [List.lookup_cons]
  by_cases h : k = n
  · rw [if_pos h, beq_iff_eq.2 h]
  · rw [if_neg h, beq_false_of_ne h]

/-- An entry is found where it was put, and all others as before. -/
theorem lookup_insertEntry (name k : String) (a : α) (l : List (String × α)) :
    (insertEntry name a l).lookup k = if k = name then some a else l.lookup k := by
  induction l with
  | nil => rw [insertEntry, lookup_cons]
  | cons x rest ih =>
    obtain ⟨n, b⟩ := x
    simp only [insertEntry]
    split
    · rw [lookup_cons]
    · next hge =>
      split
      · next hlt =>
        -- the entry in front keeps its place, and its name is another one.
        have hne : n ≠ name := by
          rintro rfl
          exact String.lt_irrefl _ hlt
        rw [lookup_cons, ih, lookup_cons]
        by_cases hk : k = n
        · rw [if_pos hk, if_neg (hk ▸ hne), if_pos hk]
        · rw [if_neg hk, if_neg hk]
      · next hle =>
        obtain rfl : name = n := String.le_antisymm (String.not_lt.1 hle) (String.not_lt.1 hge)
        rw [lookup_cons, lookup_cons]
        by_cases hk : k = name
        · rw [if_pos hk, if_pos hk]
        · simp only [if_neg hk]

/-- Putting a value into a slot changes this slot alone. -/
theorem get?_insert (s : Slots α) (name k : String) (a : α) :
    (s.insert name a).get? k = if k = name then some a else s.get? k :=
  lookup_insertEntry name k a s.entries

/-- An entry is not found after it was taken out, and all others are as before. -/
theorem lookup_filter_ne (name k : String) (l : List (String × α)) :
    (l.filter (·.1 ≠ name)).lookup k = if k = name then none else l.lookup k := by
  induction l with
  | nil => rw [List.filter_nil, List.lookup_nil, ite_self]
  | cons x rest ih =>
    obtain ⟨n, b⟩ := x
    -- a filtered entry has the name that is asked for, or is not what is asked for.
    by_cases hn : n = name
    · rw [List.filter_cons_of_neg (by simpa using hn), ih, lookup_cons, hn]
      by_cases hk : k = name
      · rw [if_pos hk, if_pos hk]
      · simp only [if_neg hk]
    · rw [List.filter_cons_of_pos (by simpa using hn), lookup_cons, lookup_cons, ih]
      by_cases hk : k = n
      · rw [if_pos hk, if_neg (hk ▸ hn), if_pos hk]
      · rw [if_neg hk, if_neg hk]

/-- Clearing a slot changes this slot alone. -/
theorem get?_erase (s : Slots α) (name k : String) :
    (s.erase name).get? k = if k = name then none else s.get? k :=
  lookup_filter_ne name k s.entries

/-- In ascending order of names an entry is found exactly if it is there. -/
theorem lookup_eq_some_iff {l : List (String × α)} (hsorted : l.Pairwise fun a b => a.1 < b.1)
    {name : String} {a : α} : l.lookup name = some a ↔ (name, a) ∈ l := by
  induction l with
  | nil => simp
  | cons x rest ih =>
    obtain ⟨n, b⟩ := x
    obtain ⟨hfirst, hrest⟩ := List.pairwise_cons.1 hsorted
    rw [lookup_cons, List.mem_cons, Prod.mk.injEq]
    by_cases hname : name = n
    · have habsent : (name, a) ∉ rest := fun h => String.lt_irrefl _ (hname ▸ hfirst _ h)
      simp [hname ▸ habsent, hname, eq_comm]
    · rw [if_neg hname, ih hrest]
      simp [hname]

/-- A name occurs in one entry at most, so every entry is found under its name. -/
theorem get?_eq_some_iff {s : Slots α} {name : String} {a : α} :
    s.get? name = some a ↔ (name, a) ∈ s.entries :=
  lookup_eq_some_iff s.sorted

/-- The values are what the slots hold. -/
theorem mem_values_iff {s : Slots α} {a : α} : a ∈ s.values ↔ ∃ name, s.get? name = some a := by
  simp only [values, List.mem_map, get?_eq_some_iff]
  constructor
  · rintro ⟨⟨name, a⟩, h, rfl⟩
    exact ⟨name, h⟩
  · rintro ⟨name, h⟩
    exact ⟨(name, a), h, rfl⟩

end Keyring.Session.Slots
