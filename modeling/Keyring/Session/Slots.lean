/-!
# Named slots

A finite map from names to values whose entries are kept in ascending order of the names, so that a
walk over all slots has one order.
-/

namespace Keyring.Session

/-- Values by name. -/
structure Slots (α : Type) where
  /-- The occupied slots. -/
  entries : List (String × α)
  sorted : entries.Pairwise fun a b => a.1 < b.1

namespace Slots

variable {α : Type}

/-- No slot is occupied. -/
def empty : Slots α := ⟨[], .nil⟩

instance : EmptyCollection (Slots α) := ⟨empty⟩

/-- The value in a slot. -/
def get? (s : Slots α) (name : String) : Option α :=
  s.entries.lookup name

/-- The values in all slots, in the order of the names. -/
def values (s : Slots α) : List α :=
  s.entries.map (·.2)

/-- A row of entries with one more, in front of the first greater name. An entry of the same name
is replaced. -/
def insertEntry (name : String) (a : α) : List (String × α) → List (String × α)
  | [] => [(name, a)]
  | (k, b) :: rest =>
    if name < k then (name, a) :: (k, b) :: rest
    else if k < name then (k, b) :: insertEntry name a rest
    else (name, a) :: rest

/-- An entry after an insertion is the new one or an old one. -/
theorem mem_insertEntry {name : String} {a : α} {l : List (String × α)} {e : String × α}
    (h : e ∈ insertEntry name a l) : e = (name, a) ∨ e ∈ l := by
  induction l with
  | nil => simpa [insertEntry] using h
  | cons x rest ih =>
    simp only [insertEntry] at h
    split at h
    · simpa using h
    · split at h
      · rcases List.mem_cons.1 h with h | h
        · exact .inr (h ▸ List.mem_cons_self)
        · exact (ih h).imp_right (List.mem_cons_of_mem _)
      · rcases List.mem_cons.1 h with h | h
        · exact .inl h
        · exact .inr (List.mem_cons_of_mem _ h)

/-- An insertion keeps the ascending order of the names. -/
theorem pairwise_insertEntry {name : String} {a : α} {l : List (String × α)}
    (h : l.Pairwise fun a b => a.1 < b.1) :
    (insertEntry name a l).Pairwise fun a b => a.1 < b.1 := by
  induction l with
  | nil => simp [insertEntry]
  | cons x rest ih =>
    obtain ⟨hx, hrest⟩ := List.pairwise_cons.1 h
    simp only [insertEntry]
    split
    -- the new name goes in front of the first greater one.
    · next hlt =>
      refine List.pairwise_cons.2 ⟨fun e he => ?_, h⟩
      rcases List.mem_cons.1 he with he | he
      · exact he ▸ hlt
      · exact String.lt_trans hlt (hx e he)
    · next hge =>
      split
      · next hlt =>
        refine List.pairwise_cons.2 ⟨fun e he => ?_, ih hrest⟩
        rcases mem_insertEntry he with he | he
        · exact he ▸ hlt
        · exact hx e he
      · next hle =>
        -- names that are not apart are the same, and the entry is replaced.
        have heq : name = x.1 := String.le_antisymm (String.not_lt.1 hle) (String.not_lt.1 hge)
        exact List.pairwise_cons.2 ⟨fun e he => heq ▸ hx e he, hrest⟩

/-- The slots with a value put into one of them. -/
def insert (s : Slots α) (name : String) (a : α) : Slots α :=
  ⟨insertEntry name a s.entries, pairwise_insertEntry s.sorted⟩

/-- The slots with one of them cleared. -/
def erase (s : Slots α) (name : String) : Slots α :=
  ⟨s.entries.filter (·.1 ≠ name), s.sorted.filter _⟩

end Slots

end Keyring.Session
