import Keyring.Proofs.Key.Capability
import Keyring.Proofs.Session.Slots
import Keyring.Session.Run
/-!
# What a step does to the slots for keys

All that a step can do to keys is one of three moves: make a key, share one that a slot holds, or
clear a slot. Every other step, and every step that fails, leaves the slots for keys alone and
releases nothing. What holds of sessions follows from the three moves, and no later proof looks into
a step again.

* `Step.Moves` relates a step to the move that it makes, with the handle or the key that it came by,
  and `run_of_move?` says what the step then leaves and releases.
* `Step.leavesKeys_attempt` is about all other steps, and `run_of_move?_eq_none` is what follows.
* `Move.get?_apply` says what each slot for keys holds after a move.
-/

namespace Keyring.Session

/-- What happens to the slots for keys. -/
inductive Move where
  /-- A new key is put into a slot, or nowhere. -/
  | make (key : Key) (target : Option String)
  /-- A handle in a slot is put into another one as well, or nowhere. -/
  | share (h : Handle) (target : Option String)
  /-- The handle in a slot is let go of. -/
  | clear (name : String) (h : Handle)

/-- The move of a step, if it succeeds and has one. The public half of a private key is a new key,
and that of a public key is the key itself. -/
def Step.move? (draw : Draw) (s : State) : Step → Option Move
  | .generate target => do
    let key ← (Key.generate draw).toOption
    some (.make key target)
  | .importPrivate pem target => do
    let text ← (pem.eval s.texts).toOption
    let key ← (Key.importPrivate text).toOption
    some (.make key target)
  | .importPublic pem target => do
    let text ← (pem.eval s.texts).toOption
    let key ← (Key.importPublic text).toOption
    some (.make key target)
  | .clone key target => (s.keys.get? key).map (.share · target)
  | .toPublic key target => (s.keys.get? key).map fun h =>
    if h.key.isPrivate then .make h.key.toPublic target else .share h target
  | .drop key => (s.keys.get? key).map (.clear key)
  | _ => none

/-- The steps with a move, one by one. -/
inductive Step.Moves (draw : Draw) (s : State) : Step → Move → Prop
  | generate {target : Option String} {key : Key} (hkey : Key.generate draw = .ok key) :
    Moves draw s (.generate target) (.make key target)
  | importPrivate {pem : Operand String} {target : Option String} {text : String} {key : Key}
    (htext : pem.eval s.texts = .ok text) (hkey : Key.importPrivate text = .ok key) :
    Moves draw s (.importPrivate pem target) (.make key target)
  | importPublic {pem : Operand String} {target : Option String} {text : String} {key : Key}
    (htext : pem.eval s.texts = .ok text) (hkey : Key.importPublic text = .ok key) :
    Moves draw s (.importPublic pem target) (.make key target)
  | clone {key : String} {target : Option String} {h : Handle} (hget : s.keys.get? key = some h) :
    Moves draw s (.clone key target) (.share h target)
  | publicHalf {key : String} {target : Option String} {h : Handle}
    (hget : s.keys.get? key = some h) (hprivate : h.key.isPrivate = true) :
    Moves draw s (.toPublic key target) (.make h.key.toPublic target)
  | publicKey {key : String} {target : Option String} {h : Handle}
    (hget : s.keys.get? key = some h) (hpublic : h.key.isPrivate = false) :
    Moves draw s (.toPublic key target) (.share h target)
  | drop {key : String} {h : Handle} (hget : s.keys.get? key = some h) :
    Moves draw s (.drop key) (.clear key h)

/-- Whether a step has a move when it succeeds. -/
def Step.hasMove : Step → Bool
  | .generate _ | .importPrivate .. | .importPublic .. | .clone .. | .toPublic .. | .drop _ => true
  | _ => false

/-- The slot for a key that a step writes or clears when it succeeds. -/
def Step.keyTarget? : Step → Option String
  | .generate target | .importPrivate _ target | .importPublic _ target | .clone _ target
  | .toPublic _ target => target
  | .drop key => some key
  | _ => none

/-- What a release says of the key. -/
def Event.released? : Event → Option Key.Description
  | .releasingKey d => some d
  | _ => none

/-- What the releases among some events say of the keys, in their order. -/
def releases (events : List Event) : List Key.Description :=
  events.filterMap Event.released?

theorem releases_append (a b : List Event) : releases (a ++ b) = releases a ++ releases b :=
  List.filterMap_append

namespace Move

variable {s : State} {m : Move}

/-- The slots after a move, and its releases. -/
def apply (s : State) : Move → State × List Event
  | make key target => s.storeKey target key
  | share h target => s.storeHandle target h
  | clear name h =>
    let keys := s.keys.erase name
    ({ s with keys }, release keys h)

/-- The answer of a step with a move. -/
def answer : Move → Value
  | make key _ => .description key.describe
  | share h _ => .description h.describe
  | clear .. => .none

/-- The slot that a move writes or clears. -/
def target? : Move → Option String
  | make _ target => target
  | share _ target => target
  | clear name _ => some name

/-- What is in that slot after the move. -/
def content? (s : State) : Move → Option Handle
  | make key _ => some (.ofKey s.made key)
  | share h _ => some h
  | clear .. => none

/-- The key that a move makes. -/
def made? : Move → Option Key
  | make key _ => some key
  | _ => none

/-- Whether the handle that a move is about is in a slot. -/
def IsFrom (s : State) : Move → Prop
  | make .. => True
  | share h _ => ∃ name, s.keys.get? name = some h
  | clear name h => s.keys.get? name = some h

/-- Only one kind of move makes a key. -/
theorem eq_make_of_made? {key : Key} (h : m.made? = some key) : ∃ target, m = make key target := by
  cases m with
  | make k target =>
    obtain rfl := Option.some.inj h
    exact ⟨target, rfl⟩
  | _ => cases h

/-- Storing a handle changes one slot at most. -/
theorem get?_storeHandle (s : State) (target : Option String) (h : Handle) (name : String) :
    (s.storeHandle target h).1.keys.get? name
      = if target = some name then some h else s.keys.get? name := by
  cases target with
  | none => rfl
  | some n =>
    show (s.keys.insert n h).get? name = _
    simp only [Slots.get?_insert, Option.some.injEq, eq_comm]

/-- Storing a handle makes no key. -/
theorem made_storeHandle (s : State) (target : Option String) (h : Handle) :
    (s.storeHandle target h).1.made = s.made := by
  cases target <;> rfl

/-- Only the slot that a move is about changes. -/
theorem get?_apply (s : State) (m : Move) (name : String) :
    (m.apply s).1.keys.get? name
      = if m.target? = some name then m.content? s else s.keys.get? name := by
  cases m with
  | make key target => exact get?_storeHandle _ target _ name
  | share h target => exact get?_storeHandle s target h name
  | clear n h =>
    show (s.keys.erase n).get? name = _
    simp only [Slots.get?_erase, target?, content?, Option.some.injEq, eq_comm]

/-- A move counts the key that it makes. -/
theorem made_apply (s : State) (m : Move) :
    (m.apply s).1.made = s.made + m.made?.toList.length := by
  cases m with
  | make key target => exact made_storeHandle _ target _
  | share h target => exact made_storeHandle s target h
  | clear n h => rfl

/-- After a move a slot holds a handle that was in a slot before, or that of the new key. -/
theorem get?_apply_cases (hfrom : m.IsFrom s) {name : String} {h : Handle}
    (hget : (m.apply s).1.keys.get? name = some h) :
    (∃ other, s.keys.get? other = some h) ∨ ∃ key, m.made? = some key ∧ h = .ofKey s.made key := by
  rw [get?_apply] at hget
  -- the slot is the target of the move or has stayed as it was.
  split at hget
  · cases m with
    | make key target =>
      obtain rfl := Option.some.inj hget
      exact .inr ⟨key, rfl, rfl⟩
    | share g target =>
      obtain rfl := Option.some.inj hget
      exact .inl hfrom
    | clear n g => cases hget
  · exact .inl ⟨name, hget⟩

end Move

/-! ### Steps without a move -/

/-- Whether an attempt leaves the slots for keys alone if it succeeds. -/
def LeavesKeys (s : State) (r : Except Failure (Value × List Event × State)) : Prop :=
  ∀ value events s', r = .ok (value, events, s') →
    s'.keys = s.keys ∧ s'.made = s.made ∧ releases events = []

namespace LeavesKeys

variable {s s' : State} {value : Value} {events : List Event}

/-- What every continuation leaves alone, the whole leaves alone. -/
theorem bind {α : Type} {first : Except Failure α}
    {next : α → Except Failure (Value × List Event × State)} (h : ∀ a, LeavesKeys s (next a)) :
    LeavesKeys s (first >>= next) := by
  intro value events s' hok
  obtain ⟨a, -, hnext⟩ := bind_eq_ok_iff.1 hok
  exact h a value events s' hnext

/-- An attempt that is done leaves the slots for keys alone if its result does. -/
theorem pure (hkeys : s'.keys = s.keys) (hmade : s'.made = s.made)
    (hevents : releases events = []) :
    LeavesKeys s (Pure.pure (value, events, s')) := by
  rintro _ _ _ ⟨⟩
  exact ⟨hkeys, hmade, hevents⟩

/-- Storing a text leaves the slots for keys alone. -/
theorem storeText (s : State) (target : Option String) (t : String) :
    LeavesKeys s (Pure.pure (value, [], s.storeText target t)) := by
  cases target <;> exact .pure rfl rfl rfl

/-- Storing a byte string leaves the slots for keys alone. -/
theorem withBytes (s : State) (target : Option String) (b : Bytes)
    (hevents : releases events = []) :
    LeavesKeys s (Pure.pure (Session.withBytes s target b events)) := by
  cases target <;> exact .pure rfl rfl hevents

end LeavesKeys

/-- What is told of a signature without an encoding is no release. -/
theorem releases_buildEvents (sig : EcdsaSignature) : releases (buildEvents sig) = [] := by
  unfold buildEvents
  split <;> rfl

/-- A step of the other kinds leaves the slots for keys alone. -/
theorem Step.leavesKeys_attempt {step : Step} (h : step.hasMove = false) (draw : Draw)
    (s : State) : LeavesKeys s (step.attempt draw s) := by
  -- whatever the operations on the way answer, the result is stored as text or bytes or not at all.
  cases step with
  | describe key => exact .bind fun h => .pure rfl rfl rfl
  | publicPem key target => exact .bind fun h => .bind fun text => .storeText s target text
  | privatePem key target => exact .bind fun h => .bind fun text => .storeText s target text
  | require key expected needsPrivate => exact .bind fun h => .bind fun _ => .pure rfl rfl rfl
  | same a b => exact .bind fun a => .bind fun b => .pure rfl rfl rfl
  | sign scheme key message target =>
    exact .bind fun h => .bind fun message => .bind fun signature => .withBytes s target _ rfl
  | verify scheme key message signature =>
    exact .bind fun h => .bind fun message => .bind fun signature => .bind fun verdict =>
      .pure rfl rfl rfl
  | encrypt mode key nonce text target =>
    exact .bind fun key => .bind fun nonce => .bind fun text => .bind fun variant =>
      .bind fun ciphertext => .withBytes s target _ rfl
  | decrypt mode key nonce ciphertext target =>
    exact .bind fun key => .bind fun nonce => .bind fun ciphertext => .bind fun variant =>
      .bind fun text => .withBytes s target _ rfl
  | parse der toR toS =>
    refine .bind fun der => .bind fun sig => ?_
    cases toR <;> cases toS <;> exact .pure rfl rfl rfl
  | build r s' target =>
    exact .bind fun r => .bind fun s' => .withBytes s target _ (releases_buildEvents _)
  | flip data position mask target => exact .bind fun data => .withBytes s target _ rfl
  | cut data length target => exact .bind fun data => .withBytes s target _ rfl
  | append data tail target =>
    exact .bind fun data => .bind fun tail => .withBytes s target _ rfl
  | _ => cases h

/-! ### What a step does -/

namespace Step

variable {draw : Draw} {s : State} {step : Step} {m : Move}

theorem handle_eq_ok_of_get? {name : String} {h : Handle} (hget : s.keys.get? name = some h) :
    s.handle name = .ok h := by
  rw [State.handle, hget]

theorem toOption_eq_some_iff {ε α : Type} {r : Except ε α} {a : α} :
    r.toOption = some a ↔ r = .ok a := by
  cases r <;> simp [Except.toOption]

/-- The move of a step is one of those listed. -/
theorem moves_of_move? (h : step.move? draw s = some m) : step.Moves draw s m := by
  cases step with
  | generate target =>
    simp only [move?, Option.bind_eq_bind, Option.bind_eq_some_iff, toOption_eq_some_iff] at h
    obtain ⟨key, hkey, ⟨⟩⟩ := h
    exact .generate hkey
  | importPrivate pem target =>
    simp only [move?, Option.bind_eq_bind, Option.bind_eq_some_iff, toOption_eq_some_iff] at h
    obtain ⟨text, htext, key, hkey, ⟨⟩⟩ := h
    exact .importPrivate htext hkey
  | importPublic pem target =>
    simp only [move?, Option.bind_eq_bind, Option.bind_eq_some_iff, toOption_eq_some_iff] at h
    obtain ⟨text, htext, key, hkey, ⟨⟩⟩ := h
    exact .importPublic htext hkey
  | clone key target =>
    obtain ⟨g, hget, rfl⟩ := Option.map_eq_some_iff.1 h
    exact .clone hget
  | toPublic key target =>
    obtain ⟨g, hget, rfl⟩ := Option.map_eq_some_iff.1 h
    -- a public half is a new key if there is a private one to leave out.
    split
    · next hprivate => exact .publicHalf hget hprivate
    · next hpublic => exact .publicKey hget (Bool.not_eq_true _ ▸ hpublic)
  | drop key =>
    obtain ⟨g, hget, rfl⟩ := Option.map_eq_some_iff.1 h
    exact .drop hget
  | _ => cases h

/-- The move of a step is about a handle that is there. -/
theorem Moves.isFrom (h : step.Moves draw s m) : m.IsFrom s := by
  cases h with
  | clone hget => exact ⟨_, hget⟩
  | publicKey hget _ => exact ⟨_, hget⟩
  | drop hget => exact hget
  | _ => trivial

/-- The slot that a step names as its target is the one that its move is about. -/
theorem Moves.target?_eq (h : step.Moves draw s m) : m.target? = step.keyTarget? := by
  cases h <;> rfl

/-- A step with a move attempts nothing else. -/
theorem Moves.exists_attempt_eq (h : step.Moves draw s m) :
    ∃ events, step.attempt draw s = .ok (m.answer, events, (m.apply s).1) ∧
      releases events = releases (m.apply s).2 := by
  -- a step with a move has one way to succeed, so its attempt is evaluated along that way.
  cases h with
  | @generate target key hkey =>
    refine ⟨.generatedKey key.algorithm :: ((Move.make key target).apply s).2, ?_, rfl⟩
    simp only [attempt, lift, hkey, Except.mapError, bind, Except.bind]
    rfl
  | @importPrivate pem target text key htext hkey =>
    unfold Key.importPrivate at hkey
    split at hkey
    · next label k hread =>
      obtain rfl := Except.ok.inj hkey
      refine ⟨.importedPrivateKey k.algorithm label
        :: ((Move.make (.ofPrivate k) target).apply s).2, ?_, rfl⟩
      simp only [attempt, htext, hread, bind, Except.bind]
      rfl
    · cases hkey
  | @importPublic pem target text key htext hkey =>
    unfold Key.importPublic at hkey
    split at hkey
    · next k hread =>
      obtain rfl := Except.ok.inj hkey
      refine ⟨.importedPublicKey k.algorithm
        :: ((Move.make (.ofPublic k) target).apply s).2, ?_, rfl⟩
      simp only [attempt, htext, hread, bind, Except.bind]
      rfl
    · cases hkey
  | clone hget =>
    refine ⟨_, ?_, rfl⟩
    simp only [attempt, handle_eq_ok_of_get? hget, bind, Except.bind]
    rfl
  | publicHalf hget hprivate =>
    refine ⟨_, ?_, rfl⟩
    simp only [attempt, handle_eq_ok_of_get? hget, hprivate, if_true, bind, Except.bind]
    rfl
  | publicKey hget hpublic =>
    refine ⟨_, ?_, rfl⟩
    simp only [attempt, handle_eq_ok_of_get? hget, hpublic, Bool.false_eq_true, if_false, bind,
      Except.bind]
    rfl
  | drop hget =>
    refine ⟨_, ?_, rfl⟩
    simp only [attempt, handle_eq_ok_of_get? hget, bind, Except.bind]
    rfl

theorem handle_eq_error_of_get? {name : String} (hget : s.keys.get? name = none) :
    s.handle name = .error (.emptySlot name) := by
  rw [State.handle, hget]

/-- A step that could have a move and has none fails. -/
theorem exists_attempt_eq_error (hmove : step.hasMove = true) (h : step.move? draw s = none) :
    ∃ failure, step.attempt draw s = .error failure := by
  -- without a move a step has failed at one of its look-ups, or at what it reads.
  cases step with
  | generate target =>
    cases hkey : Key.generate draw with
    | error e =>
      refine ⟨.error e, ?_⟩
      simp only [attempt, lift, hkey, Except.mapError, bind, Except.bind]
    | ok key => simp [move?, hkey, Except.toOption] at h
  | importPrivate pem target =>
    cases htext : pem.eval s.texts with
    | error failure => exact ⟨failure, by simp only [attempt, htext, bind, Except.bind]⟩
    | ok text =>
      cases hread : PrivateKey.ofPem? text with
      | none =>
        refine ⟨.error .parseFailure, ?_⟩
        simp only [attempt, htext, hread, bind, Except.bind]
        rfl
      | some result => simp [move?, htext, Key.importPrivate, hread, Except.toOption] at h
  | importPublic pem target =>
    cases htext : pem.eval s.texts with
    | error failure => exact ⟨failure, by simp only [attempt, htext, bind, Except.bind]⟩
    | ok text =>
      cases hread : PublicKey.ofPem? text with
      | none =>
        refine ⟨.error .parseFailure, ?_⟩
        simp only [attempt, htext, hread, bind, Except.bind]
        rfl
      | some k => simp [move?, htext, Key.importPublic, hread, Except.toOption] at h
  | clone key target =>
    have hget := handle_eq_error_of_get? (Option.map_eq_none_iff.1 h)
    exact ⟨.emptySlot key, by simp only [attempt, hget, bind, Except.bind]⟩
  | toPublic key target =>
    have hget := handle_eq_error_of_get? (Option.map_eq_none_iff.1 h)
    exact ⟨.emptySlot key, by simp only [attempt, hget, bind, Except.bind]⟩
  | drop key =>
    have hget := handle_eq_error_of_get? (Option.map_eq_none_iff.1 h)
    exact ⟨.emptySlot key, by simp only [attempt, hget, bind, Except.bind]⟩
  | _ => cases hmove

/-- A failed attempt changes nothing and tells nothing. -/
theorem run_of_attempt_eq_error {failure : Failure} (h : step.attempt draw s = .error failure) :
    step.run draw s = ⟨.error failure, [], s⟩ := by
  rw [run, h]

/-- What a step with a move does. -/
theorem run_of_move? (h : step.move? draw s = some m) :
    (step.run draw s).answer = .ok m.answer ∧ (step.run draw s).state = (m.apply s).1 ∧
      releases (step.run draw s).events = releases (m.apply s).2 := by
  obtain ⟨events, hok, hevents⟩ := (moves_of_move? h).exists_attempt_eq
  rw [run, hok]
  exact ⟨rfl, rfl, hevents⟩

/-- What a step without a move does: nothing to the keys, and it fails if it could have had one. -/
theorem run_of_move?_eq_none (h : step.move? draw s = none) :
    (step.run draw s).state.keys = s.keys ∧ (step.run draw s).state.made = s.made ∧
      releases (step.run draw s).events = [] ∧
      (step.hasMove = true → ∃ failure, (step.run draw s).answer = .error failure) := by
  -- a step that could have had a move has failed, and any other leaves keys alone.
  cases hmove : step.hasMove with
  | true =>
    obtain ⟨failure, hfail⟩ := exists_attempt_eq_error hmove h
    rw [run_of_attempt_eq_error hfail]
    exact ⟨rfl, rfl, rfl, fun _ => ⟨failure, rfl⟩⟩
  | false =>
    cases hok : step.attempt draw s with
    | error failure =>
      rw [run_of_attempt_eq_error hok]
      exact ⟨rfl, rfl, rfl, nofun⟩
    | ok result =>
      obtain ⟨value, events, s'⟩ := result
      obtain ⟨hkeys, hmade, hevents⟩ := leavesKeys_attempt hmove draw s value events s' hok
      rw [run, hok]
      exact ⟨hkeys, hmade, hevents, nofun⟩

/-- A step that could have a move succeeds exactly if it has one. -/
theorem isOk_run_iff (hmove : step.hasMove = true) :
    (step.run draw s).answer.isOk = true ↔ ∃ m, step.move? draw s = some m := by
  cases h : step.move? draw s with
  | none =>
    obtain ⟨failure, hfail⟩ := (run_of_move?_eq_none h).2.2.2 hmove
    rw [hfail]
    exact iff_of_false Bool.false_ne_true nofun
  | some m =>
    rw [(run_of_move? h).1]
    exact iff_of_true rfl ⟨m, rfl⟩

/-- A step that makes a move is of a kind that can. -/
theorem Moves.hasMove (h : step.Moves draw s m) : step.hasMove = true := by
  cases h <;> rfl

end Step

end Keyring.Session
