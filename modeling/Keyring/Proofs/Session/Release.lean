import Keyring.Proofs.Session.Move
/-!
# Letting go of keys

One step lets go of one handle at most: the one that its target held or, without a target, the one
that the step itself came by. The key of that handle is released exactly if no slot holds it after
the step, so the keys released are those that were held or made and are held no more. The end of a
session lets go of all slots at once.

* `State.Agrees` is the invariant: the slots hold keys of a table, under their numbers in it.
* `Move.departs_iff` says which number departs with a move, and `Move.releases_apply` what is told
  of it.
* `Settles` joins the two, for a move, for a step and for the end.
-/

namespace Keyring.Session

/-- The numbers of the keys that the slots hold. -/
def State.held (s : State) : Finset ℕ :=
  (s.keys.values.map (·.id)).toFinset

/-- Whether what the slots hold is what a table has under the same numbers, tagged with its
algorithm. -/
def State.Agrees (keys : List Key) (s : State) : Prop :=
  ∀ name h, s.keys.get? name = some h →
    h.id < s.made ∧ keys[h.id]? = some h.key ∧ h.algorithm = h.key.algorithm

/-- Whether a key is held or made between two states, and no longer held at the end. -/
def Departs (s s' : State) (i : ℕ) : Prop :=
  i ∉ s'.held ∧ (i ∈ s.held ∨ s.made ≤ i ∧ i < s'.made)

/-- What happens to the keys of a table between two states: keys are made, none that has departed
is held again, and some events release those that depart, each one time and with its description. -/
structure Settles (keys : List Key) (s s' : State) (events : List Event) : Prop where
  made_le : s.made ≤ s'.made
  held : ∀ i ∈ s'.held, i ∈ s.held ∨ s.made ≤ i ∧ i < s'.made
  released : ∃ ids : List ℕ, ids.Nodup ∧ (∀ i, i ∈ ids ↔ Departs s s' i) ∧
    (releases events).map some = ids.map fun i => keys[i]?.map Key.describe

variable {keys : List Key} {s s' : State} {m : Move} {draw : Draw} {step : Step} {i : ℕ}

/-- With the right tag, what is shown of a handle is what is shown of its key. -/
theorem Handle.describe_eq {h : Handle} (htag : h.algorithm = h.key.algorithm) :
    h.describe = h.key.describe := by
  rw [describe, htag]
  rfl

/-- A key is held if some slot has a handle of it. -/
theorem State.mem_held : i ∈ s.held ↔ ∃ name h, s.keys.get? name = some h ∧ h.id = i := by
  simp only [held, List.mem_toFinset, List.mem_map, Slots.mem_values_iff]
  exact ⟨fun ⟨h, ⟨name, hget⟩, hid⟩ => ⟨name, h, hget, hid⟩,
    fun ⟨name, h, hget, hid⟩ => ⟨h, ⟨name, hget⟩, hid⟩⟩

/-- A key that is held has been made. -/
theorem State.Agrees.lt_made (hs : s.Agrees keys) (hi : i ∈ s.held) : i < s.made := by
  obtain ⟨name, h, hget, rfl⟩ := State.mem_held.1 hi
  exact (hs name h hget).1

/-- From the start on, the keys that depart are those made and not held. -/
theorem departs_empty_iff : Departs {} s i ↔ i < s.made ∧ i ∉ s.held := by
  have hnone : i ∉ ({} : State).held := Finset.notMem_empty i
  rw [Departs, or_iff_right hnone, and_iff_right (Nat.zero_le i), and_comm]

/-- A key is released exactly if no slot holds it. -/
theorem releases_release (h : Handle) :
    releases (release s.keys h) = if h.id ∈ s.held then [] else [h.describe] := by
  simp only [release, State.held, List.mem_toFinset, List.mem_map, List.any_eq_true,
    decide_eq_true_eq]
  split <;> rfl

/-! ### One move -/

namespace Move

/-- The handle that a move lets go of. -/
def letGo? (s : State) : Move → Option Handle
  | make key none => some (.ofKey s.made key)
  | share h none => some h
  | make _ (some name) | share _ (some name) | clear name _ => s.keys.get? name

/-- With a target, what is let go of is what the target held. -/
theorem letGo?_of_target? {name : String} (h : m.target? = some name) :
    m.letGo? s = s.keys.get? name := by
  cases m with
  | make key target =>
    obtain rfl : target = some name := h
    rfl
  | share g target =>
    obtain rfl : target = some name := h
    rfl
  | clear n g =>
    obtain rfl : n = name := Option.some.inj h
    rfl

/-- Storing a handle releases the key of what it lets go of, unless it is still held. -/
theorem releases_storeHandle (target : Option String) (h : Handle) :
    releases (s.storeHandle target h).2 =
      ((target.elim (some h) s.keys.get?).toList.filter
        (·.id ∉ (s.storeHandle target h).1.held)).map (·.describe) := by
  cases target with
  | none =>
    -- stored nowhere, the handle itself is let go of.
    show releases (release s.keys h) = _
    rw [releases_release]
    show _ = List.map _ (List.filter (fun g : Handle => decide (g.id ∉ s.held)) [h])
    split <;> simp [*]
  | some name =>
    show releases (((s.keys.get? name).map (release (s.keys.insert name h))).getD [])
      = ((s.keys.get? name).toList.filter (·.id ∉ (s.storeHandle (some name) h).1.held)).map _
    -- stored in a slot, the handle that was there is, after the new one is in.
    cases s.keys.get? name with
    | none => rfl
    | some g =>
      show releases (release (s.storeHandle (some name) h).1.keys g) = _
      rw [releases_release]
      split <;> simp [*]

/-- The key that is let go of is released unless a slot holds it after the move. -/
theorem releases_apply (hfrom : m.IsFrom s) :
    releases (m.apply s).2 =
      ((m.letGo? s).toList.filter (·.id ∉ (m.apply s).1.held)).map (·.describe) := by
  -- each kind of move lets go of one handle at most, and releases it if no slot is left to it.
  cases m with
  | make key target =>
    show releases (State.storeHandle _ target _).2 = _
    rw [releases_storeHandle]
    cases target <;> rfl
  | share h target =>
    show releases (s.storeHandle target h).2 = _
    rw [releases_storeHandle]
    cases target <;> rfl
  | clear name h =>
    have hget : s.keys.get? name = some h := hfrom
    show releases (release (apply s (clear name h)).1.keys h) = _
    rw [releases_release, letGo?, hget]
    split <;> simp [*]

/-- A move keeps the agreement with a table that has its new key. -/
theorem agrees_apply (hs : s.Agrees keys) (hfrom : m.IsFrom s)
    (hmade : ∀ key, m.made? = some key → keys[s.made]? = some key) :
    (m.apply s).1.Agrees keys := by
  intro name h hget
  rw [made_apply]
  obtain ⟨other, hother⟩ | ⟨key, hnew, rfl⟩ := get?_apply_cases hfrom hget
  · exact (hs other h hother).imp_left (Nat.lt_add_right _)
  · rw [hnew]
    exact ⟨Nat.lt_succ_self _, hmade key hnew, rfl⟩

/-- The handle that a move lets go of was in a slot, or its key is the one that the move makes. -/
theorem letGo?_cases {h : Handle} (hfrom : m.IsFrom s) (hlet : m.letGo? s = some h) :
    (∃ name, s.keys.get? name = some h) ∨ ∃ key, m.made? = some key ∧ h = .ofKey s.made key := by
  -- what is let go of was in a slot, or is a new key that is stored nowhere.
  cases m with
  | make key target =>
    cases target with
    | none =>
      obtain rfl := Option.some.inj hlet
      exact .inr ⟨key, rfl, rfl⟩
    | some name => exact .inl ⟨name, hlet⟩
  | share g target =>
    cases target with
    | none =>
      obtain rfl := Option.some.inj hlet
      exact .inl hfrom
    | some name => exact .inl ⟨name, hlet⟩
  | clear name g => exact .inl ⟨name, hlet⟩

/-- A slot that holds a key which no slot holds after the move is the target of the move. -/
theorem target?_of_notMem_held {name : String} {h : Handle} (hget : s.keys.get? name = some h)
    (hgone : h.id ∉ (m.apply s).1.held) : m.target? = some name := by
  -- any other slot still holds the key after the move.
  by_contra htarget
  refine hgone (State.mem_held.2 ⟨name, h, ?_, rfl⟩)
  rw [get?_apply, if_neg htarget, hget]

/-- A new key that no slot holds after the move is stored nowhere. -/
theorem target?_of_made_notMem_held {key : Key} (hmade : m.made? = some key)
    (hgone : s.made ∉ (m.apply s).1.held) : m.target? = none := by
  obtain ⟨target, rfl⟩ := eq_make_of_made? hmade
  -- stored in a slot, the new key would be held.
  cases target with
  | none => rfl
  | some name =>
    refine absurd (State.mem_held.2 ⟨name, .ofKey s.made key, ?_, rfl⟩) hgone
    rw [get?_apply]
    exact if_pos rfl

/-- A move makes one key at most. -/
theorem eq_made_of_lt (hle : s.made ≤ i) (hlt : i < (m.apply s).1.made) :
    i = s.made ∧ ∃ key, m.made? = some key := by
  rw [made_apply] at hlt
  cases hmade : m.made? with
  | none =>
    rw [hmade] at hlt
    exact absurd hlt (Nat.not_lt.2 hle)
  | some key =>
    rw [hmade] at hlt
    exact ⟨Nat.le_antisymm (Nat.lt_succ_iff.1 hlt) hle, key, rfl⟩

/-- Of all keys, the one that a move lets go of is the only one that can depart. -/
theorem departs_iff (hfrom : m.IsFrom s) :
    Departs s (m.apply s).1 i ↔
      ∃ h, m.letGo? s = some h ∧ h.id = i ∧ i ∉ (m.apply s).1.held := by
  constructor
  -- a key that departs was held, then by the target, or has just been made, and was then stored
  -- nowhere.
  · rintro ⟨hgone, hi | ⟨hle, hlt⟩⟩
    · obtain ⟨name, h, hget, rfl⟩ := State.mem_held.1 hi
      refine ⟨h, ?_, rfl, hgone⟩
      rw [letGo?_of_target? (target?_of_notMem_held hget hgone), hget]
    · obtain ⟨rfl, key, hmade⟩ := eq_made_of_lt hle hlt
      have htarget := target?_of_made_notMem_held hmade hgone
      obtain ⟨target, rfl⟩ := eq_make_of_made? hmade
      obtain rfl : target = none := htarget
      exact ⟨.ofKey s.made key, rfl, rfl, hgone⟩
  · rintro ⟨h, hlet, rfl, hgone⟩
    refine ⟨hgone, ?_⟩
    obtain ⟨name, hget⟩ | ⟨key, hmade, rfl⟩ := letGo?_cases hfrom hlet
    · exact .inl (State.mem_held.2 ⟨name, h, hget, rfl⟩)
    · rw [made_apply, hmade]
      exact .inr ⟨le_rfl, Nat.lt_succ_self _⟩

/-- A move settles the keys between the states around it. -/
theorem settles_apply (hs : s.Agrees keys) (hfrom : m.IsFrom s)
    (hmade : ∀ key, m.made? = some key → keys[s.made]? = some key) :
    Settles keys s (m.apply s).1 (m.apply s).2 where
  made_le := by
    rw [made_apply]
    exact Nat.le_add_right _ _
  held i hi := by
    obtain ⟨name, h, hget, rfl⟩ := State.mem_held.1 hi
    obtain ⟨other, hother⟩ | ⟨key, hnew, rfl⟩ := get?_apply_cases hfrom hget
    · exact .inl (State.mem_held.2 ⟨other, h, hother, rfl⟩)
    · rw [made_apply, hnew]
      exact .inr ⟨le_rfl, Nat.lt_succ_self _⟩
  released := by
    -- the numbers released are that of the handle let go of, or none.
    refine ⟨((m.letGo? s).toList.filter (·.id ∉ (m.apply s).1.held)).map (·.id), ?_,
      fun i => ?_, ?_⟩
    · have hsub := (List.filter_sublist (p := (·.id ∉ (m.apply s).1.held))
        (l := (m.letGo? s).toList)).map Handle.id
      refine hsub.nodup ?_
      cases m.letGo? s with
      | none => exact List.nodup_nil
      | some h => exact List.nodup_singleton _
    · rw [departs_iff hfrom]
      simp only [List.mem_map, List.mem_filter, Option.mem_toList, decide_eq_true_eq]
      constructor
      · rintro ⟨h, ⟨hlet, hgone⟩, rfl⟩
        exact ⟨h, hlet, rfl, hgone⟩
      · rintro ⟨h, hlet, rfl, hgone⟩
        exact ⟨h, ⟨hlet, hgone⟩, rfl⟩
    · rw [releases_apply hfrom, List.map_map, List.map_map]
      refine List.map_congr_left fun h hmem => ?_
      have hlet : m.letGo? s = some h := Option.mem_toList.1 (List.mem_of_mem_filter hmem)
      -- the handle comes from a slot or is that of the new key, and in both cases the table has its
      -- key.
      have hkey : keys[h.id]? = some h.key ∧ h.algorithm = h.key.algorithm := by
        obtain ⟨name, hget⟩ | ⟨key, hnew, rfl⟩ := letGo?_cases hfrom hlet
        · exact (hs name h hget).2
        · exact ⟨hmade key hnew, rfl⟩
      show some h.describe = keys[h.id]?.map Key.describe
      rw [hkey.1, Handle.describe_eq hkey.2]
      rfl

end Move

/-! ### One step -/

namespace Step

/-- The key that a step makes. -/
def made? (draw : Draw) (s : State) (step : Step) : Option Key :=
  (step.move? draw s).bind Move.made?

/-- A step counts the key that it makes. -/
theorem made_run : (step.run draw s).state.made = s.made + (step.made? draw s).toList.length := by
  cases hmove : step.move? draw s with
  | none =>
    rw [(run_of_move?_eq_none hmove).2.1, made?, hmove]
    rfl
  | some m =>
    rw [(run_of_move? hmove).2.1, Move.made_apply, made?, hmove]
    rfl

end Step

theorem State.held_congr (h : s'.keys = s.keys) : s'.held = s.held := by
  rw [held, held, h]

/-- Nothing happens to keys if the slots for keys stay as they are. -/
theorem Settles.of_keys_eq {events : List Event} (hkeys : s'.keys = s.keys)
    (hmade : s'.made = s.made) (hevents : releases events = []) : Settles keys s s' events where
  made_le := hmade.ge
  held i hi := .inl (State.held_congr hkeys ▸ hi)
  released := by
    refine ⟨[], List.nodup_nil, fun i => ?_, by rw [hevents]; rfl⟩
    -- no key is made and none ceases to be held, so none departs.
    rw [Departs, State.held_congr hkeys, hmade]
    simp only [List.not_mem_nil, false_iff]
    rintro ⟨hgone, hi | ⟨hle, hlt⟩⟩
    · exact hgone hi
    · exact absurd hlt (Nat.not_lt.2 hle)

/-- Events other than releases do not matter. -/
theorem Settles.congr_events {events events' : List Event} (h : Settles keys s s' events)
    (hevents : releases events' = releases events) : Settles keys s s' events' :=
  ⟨h.made_le, h.held, hevents ▸ h.released⟩

namespace Step

/-- A step keeps the agreement with a table that has its new key. -/
theorem agrees_run (hs : s.Agrees keys)
    (hmade : ∀ key, step.made? draw s = some key → keys[s.made]? = some key) :
    (step.run draw s).state.Agrees keys := by
  -- a step without a move keeps the slots, and any other is its move.
  cases hmove : step.move? draw s with
  | none =>
    obtain ⟨hkeys, hcount, -, -⟩ := run_of_move?_eq_none hmove
    intro name h hget
    rw [hcount]
    exact hs name h (hkeys ▸ hget)
  | some m =>
    obtain ⟨-, hstate, -⟩ := run_of_move? hmove
    rw [hstate]
    exact Move.agrees_apply hs (moves_of_move? hmove).isFrom fun key hkey =>
      hmade key (by rw [made?, hmove]; exact hkey)

/-- What a step does to the keys that were made before it and to the one that it makes. -/
theorem settles_run (hs : s.Agrees keys)
    (hmade : ∀ key, step.made? draw s = some key → keys[s.made]? = some key) :
    Settles keys s (step.run draw s).state (step.run draw s).events := by
  cases hmove : step.move? draw s with
  | none =>
    obtain ⟨hkeys, hcount, hevents, -⟩ := run_of_move?_eq_none hmove
    exact .of_keys_eq hkeys hcount hevents
  | some m =>
    obtain ⟨-, hstate, hevents⟩ := run_of_move? hmove
    have hmoves := moves_of_move? hmove
    rw [hstate]
    -- the step tells of itself as well, which releases nothing.
    refine (Move.settles_apply hs hmoves.isFrom fun key hkey => ?_).congr_events hevents
    exact hmade key (by rw [made?, hmove]; exact hkey)

end Step

/-! ### The end of a session -/

/-- A state with no key in any slot. -/
def State.cleared (s : State) : State :=
  { s with keys := ∅ }

@[simp] theorem State.held_cleared : s.cleared.held = ∅ := rfl

/-- Clearing all slots releases each key once, when the last slot that holds it is cleared. -/
theorem releases_releaseAll {entries : List (String × Handle)}
    (h : ∀ e ∈ entries, keys[e.2.id]? = some e.2.key ∧ e.2.algorithm = e.2.key.algorithm) :
    (releases (releaseAll entries)).map some =
      (entries.map (·.2.id)).dedup.map fun i => keys[i]?.map Key.describe := by
  -- along the order of the slots: an entry is the last of its key if no later entry has the same
  -- number.
  induction entries with
  | nil => rfl
  | cons e rest ih =>
    have hrest := ih fun e' he' => h e' (List.mem_cons_of_mem _ he')
    rw [releaseAll, releases_append, List.map_append, hrest, List.map_cons]
    by_cases hmem : e.2.id ∈ rest.map (·.2.id)
    · -- another slot holds the key and comes later.
      rw [List.dedup_cons_of_mem hmem, if_pos (by simpa using hmem)]
      rfl
    · rw [List.dedup_cons_of_notMem hmem, if_neg (by simpa using hmem), List.map_cons,
        (h e List.mem_cons_self).1, Handle.describe_eq (h e List.mem_cons_self).2]
      rfl

/-- The end of a session settles the keys that are still held. -/
theorem State.settles_cleared (hs : s.Agrees keys) : Settles keys s s.cleared s.finish where
  made_le := le_rfl
  held i hi := absurd hi (Finset.notMem_empty i)
  released := by
    -- the end releases the numbers in the slots, each one time.
    refine ⟨(s.keys.entries.map (·.2.id)).dedup, List.nodup_dedup _, fun i => ?_, ?_⟩
    · rw [List.mem_dedup, Departs, held_cleared]
      have hentries : s.keys.entries.map (·.2.id) = s.keys.values.map (·.id) :=
        (List.map_map ..).symm
      rw [hentries, ← List.mem_toFinset]
      constructor
      · exact fun hi => ⟨Finset.notMem_empty i, .inl hi⟩
      · rintro ⟨-, hi | ⟨hle, hlt⟩⟩
        · exact hi
        · exact absurd hlt (Nat.not_lt.2 hle)
    · exact releases_releaseAll fun e he => (hs e.1 e.2 (Slots.get?_eq_some_iff.2 he)).2

end Keyring.Session
