import Keyring.Proofs.Session.Release
import Keyring.Proofs.Session.Trace
/-!
# The keys of a session

Every key that a session makes has a number and is released one time, when the last slot that holds
it is written or cleared, at once if it is stored nowhere, or at the end of the session. The steps
of a session and its end are the parts of it, and each part settles the keys between the states
around it; a key is pending until the part in which it departs, and never again after that.

* `settles_part` says of each part of a session, the end included, that it settles the keys between
  the states around it.
* `Settles.trans` puts parts together, so any number of them settles the keys between the first
  state and the last one, `settles_take`.
* `existsUnique_departs` finds the one part in which a key departs, as the last one in which it is
  pending.
-/

namespace Keyring.Session

variable {draws : ℕ → Draw} {draw : Draw} {steps : List Step} {step : Step} {keys : List Key}
  {s s' : State} {i k : ℕ}

/-! ### What the parts of a session do -/

/-- The events of a session: those of each step, and then those of the end. -/
def eventParts (draws : ℕ → Draw) (steps : List Step) : List (List Event) :=
  (run draws steps).map (·.events) ++ [(finalState (run draws steps)).finish]

/-- The states around the parts of a session: those between its steps, and the one after its end. -/
def partState (draws : ℕ → Draw) (steps : List Step) (k : ℕ) : State :=
  if k ≤ steps.length then stateAfter draws steps k
  else (stateAfter draws steps steps.length).cleared

/-- The keys that the first `k` steps of a session make, by their numbers. -/
def keysMade (draws : ℕ → Draw) (steps : List Step) (k : ℕ) : List Key :=
  (List.range k).filterMap fun j =>
    steps[j]?.bind fun step => step.made? (draws j) (stateAfter draws steps j)

/-- A step adds the key that it makes to the table. -/
theorem keysMade_succ (h : steps[k]? = some step) :
    keysMade draws steps (k + 1) =
      keysMade draws steps k ++ (step.made? (draws k) (stateAfter draws steps k)).toList := by
  rw [keysMade, List.range_succ, List.filterMap_append]
  simp only [List.filterMap_cons, List.filterMap_nil, h, Option.bind_some]
  cases step.made? (draws k) (stateAfter draws steps k) <;> rfl

/-- Later steps keep the numbers of the keys made before. -/
theorem keysMade_prefix {m : ℕ} (h : k ≤ m) :
    keysMade draws steps k <+: keysMade draws steps m := by
  -- the table is made along the places of the steps, and the first `k` of them come first.
  obtain ⟨d, rfl⟩ := Nat.exists_eq_add_of_le h
  rw [keysMade, keysMade, List.range_add, List.filterMap_append]
  exact List.prefix_append _ _

/-- The count of keys in a state is that of the keys made so far. -/
theorem made_stateAfter : ∀ k ≤ steps.length,
    (stateAfter draws steps k).made = (keysMade draws steps k).length := by
  refine stateAfter_induction (Q := fun k s => s.made = (keysMade draws steps k).length) rfl
    fun k step hstep ih => ?_
  rw [Step.made_run, keysMade_succ hstep, List.length_append, ih]

/-- The key that a step makes has the next number in the table of all keys. -/
theorem getElem?_keysMade {key : Key} (h : steps[k]? = some step)
    (hmade : step.made? (draws k) (stateAfter draws steps k) = some key) :
    (keysMade draws steps steps.length)[(stateAfter draws steps k).made]? = some key := by
  have hk : k < steps.length := (List.getElem?_eq_some_iff.1 h).1
  -- the key is the last one of the table after its step, and that table is the beginning of the
  -- whole one.
  obtain ⟨rest, hrest⟩ : keysMade draws steps (k + 1) <+: keysMade draws steps steps.length :=
    keysMade_prefix hk
  rw [← hrest, keysMade_succ h, hmade, made_stateAfter k hk.le, List.append_assoc,
    List.getElem?_append_right le_rfl, Nat.sub_self]
  rfl

/-- In every state of a session the slots hold keys of the table, under the numbers they have in
it. -/
theorem agrees_stateAfter : ∀ k ≤ steps.length,
    (stateAfter draws steps k).Agrees (keysMade draws steps steps.length) :=
  stateAfter_induction nofun fun _ _ hstep ih =>
    Step.agrees_run ih fun _ hmade => getElem?_keysMade hstep hmade

theorem partState_of_le (h : k ≤ steps.length) :
    partState draws steps k = stateAfter draws steps k :=
  if_pos h

/-- After the end of a session no slot holds a key. -/
theorem partState_end : partState draws steps (steps.length + 1)
    = (stateAfter draws steps steps.length).cleared :=
  if_neg (Nat.not_succ_le_self _)

/-- The slots hold keys of the table after the end too, since they hold none. -/
theorem agrees_partState (k : ℕ) :
    (partState draws steps k).Agrees (keysMade draws steps steps.length) := by
  rw [partState]
  split
  · next h => exact agrees_stateAfter k h
  · exact nofun

/-- A session has one part for each step, and its end. -/
theorem length_eventParts : (eventParts draws steps).length = steps.length + 1 := by
  rw [eventParts, List.length_append, List.length_map, length_run]
  rfl

theorem exists_eventPart (hk : k < steps.length + 1) :
    ∃ events, (eventParts draws steps)[k]? = some events :=
  ⟨_, List.getElem?_eq_getElem (length_eventParts ▸ hk)⟩

/-- Every part of a session settles the keys between the states around it. -/
theorem settles_part {events : List Event} (h : (eventParts draws steps)[k]? = some events) :
    Settles (keysMade draws steps steps.length) (partState draws steps k)
      (partState draws steps (k + 1)) events := by
  have hk : k < steps.length + 1 := length_eventParts ▸ (List.getElem?_eq_some_iff.1 h).1
  rw [partState_of_le (Nat.le_of_lt_succ hk)]
  -- a part is a step or the end.
  rcases Nat.lt_succ_iff_lt_or_eq.1 hk with hlt | rfl
  · have hstep : steps[k]? = some steps[k] := List.getElem?_eq_getElem hlt
    rw [eventParts, List.getElem?_append_left (by simpa [length_run] using hlt), List.getElem?_map,
      getElem?_run hstep] at h
    obtain rfl := Option.some.inj h
    rw [partState_of_le hlt, stateAfter_succ hstep]
    exact Step.settles_run (agrees_stateAfter k hlt.le) fun _ hmade => getElem?_keysMade hstep hmade
  · rw [eventParts, List.getElem?_append_right (by simp [length_run]), List.length_map, length_run,
      Nat.sub_self] at h
    obtain rfl := Option.some.inj h
    rw [partState_end, ← stateAfter_length]
    exact State.settles_cleared (agrees_stateAfter _ le_rfl)

/-! ### From part to part -/

/-- Whether a key is held or still to be made. -/
def Pending (s : State) (i : ℕ) : Prop :=
  i ∈ s.held ∨ s.made ≤ i

/-- A key departs where it ceases to be pending. -/
theorem departs_iff_pending (hs : s.Agrees keys) (hmade : s.made ≤ s'.made) :
    Departs s s' i ↔ Pending s i ∧ ¬Pending s' i := by
  constructor
  · rintro ⟨hgone, hheld | ⟨hle, hlt⟩⟩
    · have hlt : i < s'.made := (hs.lt_made hheld).trans_le hmade
      exact ⟨.inl hheld, not_or.2 ⟨hgone, Nat.not_le.2 hlt⟩⟩
    · exact ⟨.inr hle, not_or.2 ⟨hgone, Nat.not_le.2 hlt⟩⟩
  · rintro ⟨hpending, hdone⟩
    obtain ⟨hgone, hmade⟩ := not_or.1 hdone
    exact ⟨hgone, hpending.imp_right fun hle => ⟨hle, Nat.not_le.1 hmade⟩⟩

namespace Settles

variable {s'' : State} {events events' : List Event}

/-- What is pending after a part was pending before it. -/
theorem pending (h : Settles keys s s' events) (hi : Pending s' i) : Pending s i := by
  rcases hi with hheld | hle
  · exact (h.held i hheld).imp_right And.left
  · exact .inr (h.made_le.trans hle)

/-- What departs in one part is not pending after it, so the next part does not release it again. -/
theorem trans (h : Settles keys s s' events) (h' : Settles keys s' s'' events')
    (hs : s.Agrees keys) (hs' : s'.Agrees keys) : Settles keys s s'' (events ++ events') where
  made_le := h.made_le.trans h'.made_le
  held i hi := by
    rcases h'.held i hi with hheld | ⟨hle, hlt⟩
    · exact (h.held i hheld).imp_right fun hnew => ⟨hnew.1, hnew.2.trans_le h'.made_le⟩
    · exact .inr ⟨h.made_le.trans hle, hlt⟩
  released := by
    obtain ⟨ids, hnodup, hids, hreleases⟩ := h.released
    obtain ⟨ids', hnodup', hids', hreleases'⟩ := h'.released
    -- both lists of releases are about keys that cease to be pending, one in the first part and one
    -- in the second.
    have hfirst : ∀ i, i ∈ ids ↔ Pending s i ∧ ¬Pending s' i := fun i =>
      (hids i).trans (departs_iff_pending hs h.made_le)
    have hsecond : ∀ i, i ∈ ids' ↔ Pending s' i ∧ ¬Pending s'' i := fun i =>
      (hids' i).trans (departs_iff_pending hs' h'.made_le)
    refine ⟨ids ++ ids', ?_, fun i => ?_, ?_⟩
    · refine List.nodup_append'.2 ⟨hnodup, hnodup', fun i hi hi' => ?_⟩
      exact ((hfirst i).1 hi).2 ((hsecond i).1 hi').1
    · have hback : Pending s' i → Pending s i := h.pending
      have hback' : Pending s'' i → Pending s' i := h'.pending
      rw [List.mem_append, hfirst, hsecond, departs_iff_pending hs (h.made_le.trans h'.made_le)]
      -- a key that departs in both together does so before the middle or after it.
      by_cases hmid : Pending s' i
      · simp [hmid, hback hmid]
      · simp [hmid, mt hback' hmid]
    · rw [releases_append, List.map_append, List.map_append, hreleases, hreleases']

/-- From the start on, what has been made and not released is what is held. -/
theorem balance (h : Settles keys {} s events) (hs : s.Agrees keys) :
    (releases events).length + s.held.card = s.made := by
  obtain ⟨ids, hnodup, hids, hreleases⟩ := h.released
  have hlength : (releases events).length = ids.length := by
    simpa only [List.length_map] using congrArg List.length hreleases
  -- the keys released are those made without those held.
  have hreleased : ids.toFinset = Finset.range s.made \ s.held := by
    ext i
    rw [List.mem_toFinset, hids, departs_empty_iff, Finset.mem_sdiff, Finset.mem_range]
  have hsub : s.held ⊆ Finset.range s.made := fun i hi => Finset.mem_range.2 (hs.lt_made hi)
  have hcard := Finset.card_sdiff_add_card_eq_card hsub
  rw [← hreleased, List.toFinset_card_of_nodup hnodup, Finset.card_range] at hcard
  rw [hlength, hcard]

/-- Once nothing is held any more, each key of the table has been released. -/
theorem releases_perm (h : Settles keys {} s events) (hempty : s.held = ∅)
    (hmade : s.made = keys.length) : (releases events).Perm (keys.map Key.describe) := by
  obtain ⟨ids, hnodup, hids, hreleases⟩ := h.released
  -- with no key held and all made, the numbers released are all there are, in some order.
  have hperm : ids.Perm (List.range keys.length) := by
    refine (List.perm_ext_iff_of_nodup hnodup List.nodup_range).2 fun i => ?_
    rw [hids, departs_empty_iff, hempty, hmade, List.mem_range]
    exact and_iff_left (Finset.notMem_empty i)
  have htable : (List.range keys.length).map (fun i => keys[i]?.map Key.describe)
      = (keys.map Key.describe).map some := by
    refine List.ext_getElem (by simp) fun i hi _ => ?_
    simp only [List.length_map, List.length_range] at hi
    simp [hi]
  refine (List.map_perm_map_iff (Option.some_injective _)).1 ?_
  rw [hreleases, ← htable]
  exact hperm.map _

end Settles

/-- What holds at first and not at last, and never again once it does not, ends at one place. -/
theorem existsUnique_last {Q : ℕ → Prop} {n : ℕ} (hfirst : Q 0) (hlast : ¬Q n)
    (hback : ∀ k < n, Q (k + 1) → Q k) : ∃! k, k < n ∧ Q k ∧ ¬Q (k + 1) := by
  classical
  have hex : ∃ k, ¬Q k := ⟨n, hlast⟩
  -- the place is the one before the first at which the property fails.
  obtain ⟨k, hk⟩ : ∃ k, Nat.find hex = k + 1 :=
    Nat.exists_eq_succ_of_ne_zero fun h => Nat.find_eq_zero hex |>.1 h hfirst
  have hbefore : ∀ j ≤ k, Q j := fun j hj =>
    not_not.1 (Nat.find_min hex (hk ▸ Nat.lt_succ_of_le hj))
  have hend : ¬Q (k + 1) := hk ▸ Nat.find_spec hex
  have hafter : ∀ j, k + 1 ≤ j → j ≤ n → ¬Q j := by
    intro j hj
    induction j, hj using Nat.le_induction with
    | base => exact fun _ => hend
    | succ j hj ih => exact fun hle hQ => ih (Nat.le_of_succ_le hle) (hback j hle hQ)
  have hkn : k < n := Nat.not_le.1 fun hle => hlast (hbefore n hle)
  refine ⟨k, ⟨hkn, hbefore k le_rfl, hend⟩, fun j ⟨hjn, hj, hjend⟩ => ?_⟩
  exact Nat.le_antisymm (Nat.not_lt.1 fun hlt => hafter j hlt hjn.le hj)
    (Nat.not_lt.1 fun hlt => hjend (hbefore (j + 1) hlt))

/-! ### Whole sessions -/

/-- The parts from the start on settle the keys together. -/
theorem settles_take : ∀ k ≤ steps.length + 1,
    Settles (keysMade draws steps steps.length) {} (partState draws steps k)
      ((eventParts draws steps).take k).flatten := by
  intro k
  induction k with
  | zero => exact fun _ => .of_keys_eq rfl rfl rfl
  | succ k ih =>
    intro hk
    obtain ⟨events, hpart⟩ := exists_eventPart hk
    rw [List.take_add_one, hpart, List.flatten_append]
    -- one more part is settled after the ones before it.
    have hnext := (ih (Nat.le_of_succ_le hk)).trans (settles_part hpart) nofun (agrees_partState k)
    simpa using hnext

/-- A key that is made departs in exactly one part. -/
theorem existsUnique_departs (hi : i < (keysMade draws steps steps.length).length) :
    ∃! k, k < steps.length + 1 ∧
      Departs (partState draws steps k) (partState draws steps (k + 1)) i := by
  have hsettles : ∀ k < steps.length + 1, ∃ events, Settles (keysMade draws steps steps.length)
      (partState draws steps k) (partState draws steps (k + 1)) events := fun _ hk =>
    (exists_eventPart hk).imp fun _ => settles_part
  -- nothing is held after the end, and all keys have been made by then.
  have hend : ¬Pending (partState draws steps (steps.length + 1)) i := by
    rw [partState_end]
    rintro (hheld | hle)
    · exact Finset.notMem_empty i hheld
    · exact absurd ((made_stateAfter _ le_rfl).ge.trans hle) (Nat.not_le.2 hi)
  have hstart : Pending (partState draws steps 0) i := .inr (Nat.zero_le i)
  obtain ⟨k, ⟨hk, hpending⟩, hunique⟩ :=
    existsUnique_last (Q := fun k => Pending (partState draws steps k) i) hstart hend
      fun k hk => (hsettles k hk).choose_spec.pending
  -- departing in a part is ceasing to be pending in it, which happens once.
  have hiff : ∀ k < steps.length + 1, Departs (partState draws steps k)
      (partState draws steps (k + 1)) i ↔ _ := fun k hk =>
    departs_iff_pending (agrees_partState k) (hsettles k hk).choose_spec.made_le
  exact ⟨k, ⟨hk, (hiff k hk).2 hpending⟩, fun j ⟨hj, hdeparts⟩ =>
    hunique j ⟨hj, (hiff j hj).1 hdeparts⟩⟩

/-! ### What makes a key and what lets go of one -/

/-- Whether a step makes a key if it succeeds. The public half of a private key is a new key, and
that of a public key is the key itself. -/
def Step.makesKey (s : State) : Step → Bool
  | .generate _ | .importPrivate .. | .importPublic .. => true
  | .toPublic key _ => (s.keys.get? key).any (·.key.isPrivate)
  | _ => false

/-- How a step changes the number of keys: one that makes a key gives it the next number, puts it
into its target and describes it; any other leaves handles in the slots that were there before. -/
structure Step.Counts (keys : List Key) (draw : Draw) (s : State) (step : Step) : Prop where
  makes : (step.run draw s).answer.isOk = true → step.makesKey s = true →
    ∃ key, keys[s.made]? = some key ∧ (step.run draw s).answer = .ok (.description key.describe) ∧
      (step.run draw s).state.made = s.made + 1 ∧
      ∀ name, step.keyTarget? = some name →
        (step.run draw s).state.keys.get? name = some (.ofKey s.made key)
  shares : ¬((step.run draw s).answer.isOk = true ∧ step.makesKey s = true) →
    (step.run draw s).state.made = s.made ∧
      ∀ name h, (step.run draw s).state.keys.get? name = some h →
        ∃ other, s.keys.get? other = some h

/-- Where a step lets go of a key: it is about the one slot that holds the key, or it makes the key
and stores it nowhere. -/
def Step.LetsGo (s : State) (step : Step) (i : ℕ) : Prop :=
  (∃ name h, step.keyTarget? = some name ∧ s.keys.get? name = some h ∧ h.id = i ∧
    ∀ other h', s.keys.get? other = some h' → h'.id = i → other = name) ∨
  i = s.made ∧ step.makesKey s = true ∧ step.keyTarget? = none

namespace Step

variable {m : Move}

/-- A step with a move makes a key if its move does. -/
theorem Moves.makesKey_eq (h : step.Moves draw s m) : step.makesKey s = m.made?.isSome := by
  cases h with
  | publicHalf hget hprivate => simp [makesKey, hget, hprivate, Move.made?]
  | publicKey hget hpublic => simp [makesKey, hget, hpublic, Move.made?]
  | _ => rfl

/-- Only a step with a move makes a key. -/
theorem hasMove_of_makesKey (h : step.makesKey s = true) : step.hasMove = true := by
  cases step with
  | generate | importPrivate | importPublic | toPublic => rfl
  | _ => cases h

/-- A step counts its key if it makes one, and nothing else. -/
theorem counts (hmade : ∀ key, step.made? draw s = some key → keys[s.made]? = some key) :
    step.Counts keys draw s := by
  cases hmove : step.move? draw s with
  | none =>
    obtain ⟨hkeys, hcount, -, -⟩ := run_of_move?_eq_none hmove
    refine ⟨fun hok hmakes => ?_, fun _ => ⟨hcount, fun name h hget => ⟨name, hkeys ▸ hget⟩⟩⟩
    obtain ⟨m, hm⟩ := (isOk_run_iff (hasMove_of_makesKey hmakes)).1 hok
    rw [hmove] at hm
    cases hm
  | some m =>
    obtain ⟨hanswer, hstate, -⟩ := run_of_move? hmove
    have hmoves := moves_of_move? hmove
    have hok := (isOk_run_iff hmoves.hasMove).2 ⟨m, hmove⟩
    cases hnew : m.made? with
    | none =>
      -- the move shares or clears, so the count stays and every handle was there before.
      have hmakes : step.makesKey s = false := by rw [hmoves.makesKey_eq, hnew]; rfl
      refine ⟨fun _ h => absurd h (by rw [hmakes]; nofun), fun _ => ?_⟩
      rw [hstate, Move.made_apply, hnew]
      refine ⟨rfl, fun name h hget => ?_⟩
      obtain hold | ⟨key, hmade, -⟩ := Move.get?_apply_cases hmoves.isFrom hget
      · exact hold
      · rw [hnew] at hmade
        cases hmade
    | some key =>
      have hmakes : step.makesKey s = true := by rw [hmoves.makesKey_eq, hnew]; rfl
      -- the move makes a key, which has the next number in the table.
      have htable := hmade key (by rw [made?, hmove]; exact hnew)
      refine ⟨fun _ _ => ?_, fun h => absurd ⟨hok, hmakes⟩ h⟩
      obtain ⟨target, rfl⟩ := Move.eq_make_of_made? hnew
      refine ⟨key, htable, hanswer, ?_, fun name htarget => ?_⟩
      · rw [hstate, Move.made_apply]
        rfl
      · rw [hstate, Move.get?_apply, hmoves.target?_eq, if_pos htarget]
        rfl

/-- A key departs in a step only where the step lets go of it. -/
theorem letsGo_of_departs (h : Departs s (step.run draw s).state i) : step.LetsGo s i := by
  cases hmove : step.move? draw s with
  | none =>
    obtain ⟨hkeys, hcount, -, -⟩ := run_of_move?_eq_none hmove
    rw [Departs, State.held_congr hkeys, hcount] at h
    obtain ⟨hgone, hheld | ⟨hle, hlt⟩⟩ := h
    · exact absurd hheld hgone
    · exact absurd hlt (Nat.not_lt.2 hle)
  | some m =>
    have hmoves := moves_of_move? hmove
    rw [(run_of_move? hmove).2.1] at h
    obtain ⟨hgone, hheld | ⟨hle, hlt⟩⟩ := h
    -- the key was held: the slots that held it are all the target of the move, so there is one.
    · obtain ⟨name, g, hget, rfl⟩ := State.mem_held.1 hheld
      have htarget := Move.target?_of_notMem_held hget hgone
      refine .inl ⟨name, g, hmoves.target?_eq ▸ htarget, hget, rfl, fun other g' hget' hid => ?_⟩
      have htarget' := Move.target?_of_notMem_held hget' (hid ▸ hgone)
      exact Option.some.inj (htarget'.symm.trans htarget)
    -- the key is the one just made, and it went nowhere.
    · obtain ⟨rfl, key, hnew⟩ := Move.eq_made_of_lt hle hlt
      refine .inr ⟨rfl, by rw [hmoves.makesKey_eq, hnew]; rfl, ?_⟩
      rw [← hmoves.target?_eq]
      exact Move.target?_of_made_notMem_held hnew hgone

end Step

/-- The account of all keys of a session. -/
structure Ledger (draws : ℕ → Draw) (steps : List Step) (keys : List Key) : Prop where
  /-- What a step does to the number of keys. -/
  counts : ∀ k (step : Step), steps[k]? = some step →
    step.Counts keys (draws k) (stateAfter draws steps k)
  /-- The table has a key for each number. -/
  total : (stateAfter draws steps steps.length).made = keys.length
  /-- The keys in slots are those of the table. -/
  agrees : ∀ k ≤ steps.length, (stateAfter draws steps k).Agrees keys
  /-- After every step and after the end, the keys made and not released are those in slots. -/
  balance : ∀ k ≤ steps.length + 1,
    (releases ((eventParts draws steps).take k).flatten).length
      + (partState draws steps k).held.card = (partState draws steps k).made
  /-- Every step and the end release each key that departs, once and with its description, and no
  other. -/
  released : ∀ k events, (eventParts draws steps)[k]? = some events → ∃ ids : List ℕ, ids.Nodup ∧
    (∀ i, i ∈ ids ↔ Departs (partState draws steps k) (partState draws steps (k + 1)) i) ∧
    (releases events).map some = ids.map fun i => keys[i]?.map Key.describe
  /-- A key departs one time. -/
  once : ∀ i < keys.length, ∃! k, k < steps.length + 1 ∧
    Departs (partState draws steps k) (partState draws steps (k + 1)) i
  /-- A key that departs in a step is one that the step lets go of. -/
  letsGo : ∀ k (step : Step) i, steps[k]? = some step →
    Departs (stateAfter draws steps k) (stateAfter draws steps (k + 1)) i →
    step.LetsGo (stateAfter draws steps k) i
  /-- In the end no key is left: the releases are those of all keys. -/
  atEnd : (releases (eventParts draws steps).flatten).Perm (keys.map Key.describe)

/-- Every key that a session makes is released one time, when nothing holds it any more. -/
theorem ledger_keysMade (draws : ℕ → Draw) (steps : List Step) :
    Ledger draws steps (keysMade draws steps steps.length) where
  counts _ _ hstep := Step.counts fun _ hmade => getElem?_keysMade hstep hmade
  total := made_stateAfter _ le_rfl
  agrees := agrees_stateAfter
  balance k hk := (settles_take k hk).balance (agrees_partState k)
  released _ _ hpart := (settles_part hpart).released
  once _ hi := existsUnique_departs hi
  letsGo k step i hstep hdeparts := by
    rw [stateAfter_succ hstep] at hdeparts
    exact Step.letsGo_of_departs hdeparts
  atEnd := by
    -- all parts together lead from the first state to the one after the end, which holds nothing.
    have hsettles : Settles (keysMade draws steps steps.length) {} _ _ :=
      settles_take (steps.length + 1) le_rfl
    rw [List.take_of_length_le length_eventParts.le, partState_end] at hsettles
    exact hsettles.releases_perm State.held_cleared (made_stateAfter _ le_rfl)

-- a key cloned into its own slot stays; its public half put there in its place releases it.
example (draw : Draw) : (eventParts (fun _ => ⟨draw.seed, draw.salt, draw.mask, false⟩)
    [.generate (some "a"), .clone "a" (some "a"), .toPublic "a" (some "a"),
      .generate none]).map releases
      = [[], [], [⟨.ed25519, true⟩], [⟨.ed25519, true⟩], [⟨.ed25519, false⟩]] := by
  rfl

end Keyring.Session
