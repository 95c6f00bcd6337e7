import Keyring.Proofs.Aead
import Keyring.Proofs.Key.PrivateText
import Keyring.Proofs.Session.Ledger
/-!
# What a session tells of its steps

A step that fails tells nothing and leaves every slot as it was. A step that succeeds first tells of
itself, one time if it makes, imports or uses a key or was to write a signature that is too long,
and otherwise not at all, and then of the keys that it lets go of. What it tells of itself is the
kind of its operation and the lengths of what went in and came out.

* `Step.Logs` has one constructor for each way in which a kind of step tells of itself, with the
  arguments and the answer that its events are about.
* `Step.effect_attempt` says of every attempt that succeeds what it told, what it let go of and what
  it stored. It is the only proof here that takes steps apart.
* `Step.accounts_run` is about one step in any state, and holds along every session.
-/

namespace Keyring.Session

open Text Cipher

variable {draws : ℕ → Draw} {steps : List Step} {draw : Draw} {s : State} {step : Step}
  {value : Value} {log events : List Event} {k : ℕ}

/-! ### What a step tells of itself -/

/-- Whether a step is of one of the seven kinds that make, import or use a key. -/
def Step.isOperation : Step → Bool
  | .generate _ | .importPrivate .. | .importPublic .. | .sign .. | .verify .. | .encrypt ..
  | .decrypt .. => true
  | _ => false

/-- Whether a step was to write a signature that is too long for it. It has answered nothing
then. -/
def Step.isOversized : Step → Value → Bool
  | .build .., .bytes der => der.isEmpty
  | _, _ => false

/-- Whether a step tells of itself when it succeeds with the given answer. -/
def Step.isLogged (step : Step) (value : Value) : Bool :=
  step.isOperation || step.isOversized value

/-- What a successful step tells of itself, by its arguments and its answer. -/
inductive Step.Logs (s : State) : Step → Value → List Event → Prop
  | generate (target : Option String) :
    Logs s (.generate target) (.description ⟨.ed25519, true⟩) [.generatedKey .ed25519]
  | importPrivate {pem : Operand String} {target : Option String} {text : String}
    {label : Pem.Label} {der : Bytes} {key : PrivateKey} (htext : pem.eval s.texts = .ok text)
    (hlabel : Pem.decode? text.toList = some (label, der))
    (hkey : PrivateKey.ofPem? text = some (label, key)) :
    Logs s (.importPrivate pem target) (.description ⟨key.algorithm, true⟩)
      [.importedPrivateKey key.algorithm label]
  | importPublic {pem : Operand String} {target : Option String} {text : String}
    {key : PublicKey} (htext : pem.eval s.texts = .ok text)
    (hkey : PublicKey.ofPem? text = some key) :
    Logs s (.importPublic pem target) (.description ⟨key.algorithm, false⟩)
      [.importedPublicKey key.algorithm]
  | sign {scheme : Scheme} {key : String} {operand : Operand Bytes} {target : Option String}
    {message signature : Bytes} (hmessage : operand.eval s.bytes = .ok message) :
    Logs s (.sign scheme key operand target) (.bytes signature)
      [.signedMessage scheme message.length signature.length]
  | verify {scheme : Scheme} {key : String} {operand signature : Operand Bytes} {message : Bytes}
    {verdict : Verdict} (hmessage : operand.eval s.bytes = .ok message) :
    Logs s (.verify scheme key operand signature) (.verdict verdict)
      [.verifiedSignature scheme message.length verdict.isValid]
  | encrypt {mode : CipherMode} {operand nonce input : Operand Bytes} {target : Option String}
    {v : CipherVariant} {key text ciphertext : Bytes} (hkey : operand.eval s.bytes = .ok key)
    (hmode : mode.variant key = .ok v) (hlength : key.length = v.keyLength)
    (htext : input.eval s.bytes = .ok text)
    (hciphertext : ciphertext.length = text.length + Gcm.tagLength) :
    Logs s (.encrypt mode operand nonce input target) (.bytes ciphertext)
      [.encrypted v text.length]
  | decrypt {mode : CipherMode} {operand nonce input : Operand Bytes} {target : Option String}
    {v : CipherVariant} {key text ciphertext : Bytes} (hkey : operand.eval s.bytes = .ok key)
    (hmode : mode.variant key = .ok v) (hlength : key.length = v.keyLength)
    (hinput : input.eval s.bytes = .ok ciphertext)
    (hciphertext : ciphertext.length = text.length + Gcm.tagLength) :
    Logs s (.decrypt mode operand nonce input target) (.bytes text) [.decrypted v text.length]
  | clone {key : String} {target : Option String} {h : Handle} (hget : s.keys.get? key = some h) :
    Logs s (.clone key target) (.description h.describe) []
  | publicHalf {key : String} {target : Option String} {h : Handle}
    (hget : s.keys.get? key = some h) (hprivate : h.key.isPrivate = true) :
    Logs s (.toPublic key target) (.description h.key.toPublic.describe) []
  | publicKey {key : String} {target : Option String} {h : Handle}
    (hget : s.keys.get? key = some h) (hpublic : h.key.isPrivate = false) :
    Logs s (.toPublic key target) (.description h.describe) []
  | drop (key : String) : Logs s (.drop key) .none []
  | describe {key : String} {h : Handle} (hget : s.keys.get? key = some h) :
    Logs s (.describe key) (.description h.describe) []
  | publicPem (key : String) (target : Option String) (text : String) :
    Logs s (.publicPem key target) (.text text) []
  | privatePem (key : String) (target : Option String) (text : String) :
    Logs s (.privatePem key target) (.text text) []
  | require (key : String) (expected : Option Algorithm) (needsPrivate : Bool) :
    Logs s (.require key expected needsPrivate) .none []
  | same (a b : String) (flag : Bool) : Logs s (.same a b) (.flag flag) []
  | parse (der : Operand Bytes) (toR toS : Option String) (sig : EcdsaSignature) :
    Logs s (.parse der toR toS) (.signature sig) []
  | build {first second : Operand Bytes} {target : Option String} {r s' der : Bytes}
    (hr : first.eval s.bytes = .ok r) (hs : second.eval s.bytes = .ok s')
    (hder : EcdsaSignature.encode ⟨r, s'⟩ = .ok der) :
    Logs s (.build first second target) (.bytes der) []
  | buildOversized {first second : Operand Bytes} {target : Option String} {r s' : Bytes}
    (hr : first.eval s.bytes = .ok r) (hs : second.eval s.bytes = .ok s')
    (hfail : EcdsaSignature.encode ⟨r, s'⟩ = .error .encodeFailure) :
    Logs s (.build first second target) (.bytes []) [.oversizedSignature r.length s'.length]
  | flip {operand : Operand Bytes} {position : ℤ} {mask : UInt8} {target : Option String}
    {data : Bytes} (hdata : operand.eval s.bytes = .ok data) :
    Logs s (.flip operand position mask target) (.bytes (flipAt data position mask)) []
  | cut {operand : Operand Bytes} {length : ℕ} {target : Option String} {data : Bytes}
    (hdata : operand.eval s.bytes = .ok data) :
    Logs s (.cut operand length target) (.bytes (data.take length)) []
  | append {operand rest : Operand Bytes} {target : Option String} {data tail : Bytes}
    (hdata : operand.eval s.bytes = .ok data) (htail : rest.eval s.bytes = .ok tail) :
    Logs s (.append operand rest target) (.bytes (data ++ tail)) []

/-- Every step that tells of itself does so one time. -/
theorem Step.Logs.length_eq (h : step.Logs s value log) :
    log.length = if step.isLogged value then 1 else 0 := by
  cases h with
  | build hr hs hder =>
    -- what has an encoding is told apart from what has none by its answer, which is not empty.
    have hder' := EcdsaSignature.ne_nil_of_encode hder
    simp [isLogged, isOperation, isOversized, hder']
  | _ => rfl

/-- Writing a signature tells of it exactly if it has no encoding, and answers nothing then. -/
theorem logs_build {first second : Operand Bytes} {r s' : Bytes} (target : Option String)
    (hr : first.eval s.bytes = .ok r) (hs : second.eval s.bytes = .ok s') :
    Step.Logs s (.build first second target) (.bytes (EcdsaSignature.toDer ⟨r, s'⟩))
      (buildEvents ⟨r, s'⟩) := by
  by_cases h : EcdsaSignature.HasEncoding ⟨r, s'⟩
  · have hder := EcdsaSignature.encode_of_hasEncoding h
    rw [EcdsaSignature.toDer, buildEvents, hder]
    exact .build hr hs hder
  · have hfail := EcdsaSignature.encode_of_not_hasEncoding h
    rw [EcdsaSignature.toDer, buildEvents, hfail]
    exact .buildOversized hr hs hfail

/-- The events of a session that are no releases. -/
def reports (events : List Event) : List Event :=
  events.filter (·.released?.isNone)

/-- The reports of a part of a session and of the next one are reports of both. -/
theorem reports_append (a b : List Event) : reports (a ++ b) = reports a ++ reports b :=
  List.filter_append ..

/-- What a step tells of itself is no release. -/
theorem Step.Logs.reports_eq (h : step.Logs s value log) : reports log = log := by
  cases h <;> rfl

/-- A result that a step passes on is one of the library. -/
theorem eq_ok_of_lift {α : Type} {r : Except Error α} {a : α} (h : lift r = .ok a) : r = .ok a := by
  -- an error stays one, so a success cannot have been anything else.
  cases r with
  | error e => cases h
  | ok b => rw [Except.ok.inj h]

/-- The label of a private key that is read is that of its text. -/
theorem exists_decode?_of_ofPem? {text : String} {label : Pem.Label} {key : PrivateKey}
    (h : PrivateKey.ofPem? text = some (label, key)) :
    ∃ der, Pem.decode? text.toList = some (label, der) := by
  rw [PrivateKey.ofPem?_eq_bind] at h
  obtain ⟨⟨label', der⟩, hdecode, hmap⟩ := Option.bind_eq_some_iff.1 h
  obtain ⟨key', -, ⟨⟩⟩ := Option.map_eq_some_iff.1 hmap
  exact ⟨der, hdecode⟩

/-! ### What a move tells -/

/-- Letting go of a handle tells of nothing but a release. -/
theorem reports_release (keys : Slots Handle) (h : Handle) : reports (release keys h) = [] := by
  rw [release]
  split <;> rfl

/-- Storing a handle tells of nothing but releases. -/
theorem reports_storeHandle (s : State) (target : Option String) (h : Handle) :
    reports (s.storeHandle target h).2 = [] := by
  cases target with
  | none => exact reports_release s.keys h
  | some name =>
    show reports (((s.keys.get? name).map (release (s.keys.insert name h))).getD []) = []
    cases s.keys.get? name with
    | none => rfl
    | some g => exact reports_release _ g

/-- A move tells of nothing but releases. -/
theorem Move.reports_apply (s : State) (m : Move) : reports (m.apply s).2 = [] := by
  cases m with
  | make key target => exact reports_storeHandle _ target _
  | share h target => exact reports_storeHandle s target h
  | clear name h => exact reports_release _ h

/-! ### What an attempt tells -/

/-- Whether an attempt has a property if it succeeds. -/
def Ensures (Q : Value → List Event → State → Prop)
    (r : Except Failure (Value × List Event × State)) : Prop :=
  ∀ value events s', r = .ok (value, events, s') → Q value events s'

namespace Ensures

variable {Q : Value → List Event → State → Prop}

/-- What holds of every continuation holds of the whole, and the result of the first part is known
there. -/
theorem bind {α : Type} {first : Except Failure α}
    {next : α → Except Failure (Value × List Event × State)}
    (h : ∀ a, first = .ok a → Ensures Q (next a)) : Ensures Q (first >>= next) := by
  intro value events s' hok
  obtain ⟨a, hfirst, hnext⟩ := bind_eq_ok_iff.1 hok
  exact h a hfirst value events s' hnext

/-- An attempt that is done has the property if its result has. -/
theorem pure {events : List Event} {s' : State} (h : Q value events s') :
    Ensures Q (Pure.pure (value, events, s')) := by
  rintro _ _ _ ⟨⟩
  exact h

/-- Nothing is promised of an attempt that fails. -/
theorem throw (failure : Failure) : Ensures Q (throw failure) :=
  nofun

end Ensures

namespace Step

/-- The events of the keys that a step lets go of. -/
def lettingGo (draw : Draw) (s : State) (step : Step) : List Event :=
  ((step.move? draw s).map fun m => (m.apply s).2).getD []

/-- Letting go of keys tells of nothing but releases. -/
theorem reports_lettingGo (draw : Draw) (s : State) (step : Step) :
    reports (step.lettingGo draw s) = [] := by
  rw [lettingGo]
  cases step.move? draw s with
  | none => rfl
  | some m => exact m.reports_apply s

/-- A handle that is looked up is in its slot. -/
theorem get?_of_handle {name : String} {h : Handle} (hget : s.handle name = .ok h) :
    s.keys.get? name = some h := by
  rw [State.handle] at hget
  split at hget
  · next hsome => rw [hsome, Except.ok.inj hget]
  · cases hget

/-- A step has the move that it makes. -/
theorem Moves.move?_eq {m : Move} (h : step.Moves draw s m) : step.move? draw s = some m := by
  cases h with
  | generate hkey => simp [move?, hkey, Except.toOption]
  | importPrivate htext hkey => simp [move?, htext, hkey, Except.toOption]
  | importPublic htext hkey => simp [move?, htext, hkey, Except.toOption]
  | clone hget => simp [move?, hget]
  | publicHalf hget hprivate => simp [move?, hget, hprivate]
  | publicKey hget hpublic => simp [move?, hget, hpublic]
  | drop hget => simp [move?, hget]

/-- The keys that a step lets go of are those of its move. -/
theorem Moves.lettingGo_eq {m : Move} (h : step.Moves draw s m) :
    step.lettingGo draw s = (m.apply s).2 := by
  rw [lettingGo, h.move?_eq]
  rfl

/-- The slots for byte strings after a step with the given answer. -/
def bytesAfter (s : State) : Step → Value → Slots Bytes
  | .sign _ _ _ target, .bytes b | .encrypt _ _ _ _ target, .bytes b
  | .decrypt _ _ _ _ target, .bytes b | .build _ _ target, .bytes b | .flip _ _ _ target, .bytes b
  | .cut _ _ target, .bytes b | .append _ _ target, .bytes b => (s.storeBytes target b).bytes
  | .parse _ (some toR) (some toS), .signature sig =>
    ((s.storeBytes (some toR) sig.r).storeBytes (some toS) sig.s).bytes
  | _, _ => s.bytes

/-- What an attempt comes to if it succeeds: it tells of the step and then of the keys that it lets
go of, and puts its result into the slots for byte strings. -/
structure Effect (draw : Draw) (s : State) (step : Step) (value : Value) (events : List Event)
    (s' : State) : Prop where
  log : ∃ log, step.Logs s value log ∧ events = log ++ step.lettingGo draw s
  bytes : s'.bytes = step.bytesAfter s value

/-- Slots for byte strings and slots for keys are apart. -/
theorem bytes_storeHandle (s : State) (target : Option String) (h : Handle) :
    (s.storeHandle target h).1.bytes = s.bytes := by
  cases target <;> rfl

theorem bytes_storeText (s : State) (target : Option String) (t : String) :
    (s.storeText target t).bytes = s.bytes := by
  cases target <;> rfl

/-- Every attempt that succeeds comes to what it should: its own events first, then those of the
keys that it lets go of, and its result in a slot. -/
theorem effect_attempt (draw : Draw) (s : State) (step : Step) :
    Ensures (step.Effect draw s) (step.attempt draw s) := by
  -- every operation on the way is a bind, and what it gave is kept where the log needs it. A step
  -- that stores a handle is a move, and what it lets go of is what the move tells.
  cases step with
  | generate target =>
    refine .bind fun key hlift => ?_
    -- the failure of the source of random values ends the step, and what is left is a key with the
    -- seed drawn.
    have hkey := eq_ok_of_lift hlift
    obtain rfl := Key.eq_ofPrivate_of_generate hkey
    refine .pure ⟨⟨_, .generate target, ?_⟩, bytes_storeHandle _ target _⟩
    rw [(Moves.generate hkey).lettingGo_eq]
    rfl
  | importPrivate pem target =>
    refine .bind fun text htext => ?_
    split
    · next label key hread =>
      obtain ⟨der, hlabel⟩ := exists_decode?_of_ofPem? hread
      -- the step reads the text itself to have the label; the move is about the same key.
      have hkey : Key.importPrivate text = .ok (.ofPrivate key) := by
        rw [Key.importPrivate, hread]
      refine .pure ⟨⟨_, .importPrivate htext hlabel hread, ?_⟩, bytes_storeHandle _ target _⟩
      rw [(Moves.importPrivate htext hkey).lettingGo_eq]
      rfl
    · exact .throw _
  | importPublic pem target =>
    refine .bind fun text htext => ?_
    split
    · next key hread =>
      have hkey : Key.importPublic text = .ok (.ofPublic key) := by
        rw [Key.importPublic, hread]
      refine .pure ⟨⟨_, .importPublic htext hread, ?_⟩, bytes_storeHandle _ target _⟩
      rw [(Moves.importPublic htext hkey).lettingGo_eq]
      rfl
    · exact .throw _
  | clone key target =>
    refine .bind fun h hhandle => ?_
    have hget := get?_of_handle hhandle
    refine .pure ⟨⟨_, .clone hget, ?_⟩, bytes_storeHandle _ target _⟩
    rw [(Moves.clone hget).lettingGo_eq]
    rfl
  | toPublic key target =>
    refine .bind fun h hhandle => ?_
    have hget := get?_of_handle hhandle
    split
    · next hprivate =>
      refine .pure ⟨⟨_, .publicHalf hget hprivate, ?_⟩, bytes_storeHandle _ target _⟩
      rw [(Moves.publicHalf hget hprivate).lettingGo_eq]
      rfl
    · next hpublic =>
      have hpublic := Bool.not_eq_true _ ▸ hpublic
      refine .pure ⟨⟨_, .publicKey hget hpublic, ?_⟩, bytes_storeHandle _ target _⟩
      rw [(Moves.publicKey hget hpublic).lettingGo_eq]
      rfl
  | drop key =>
    refine .bind fun h hhandle => .pure ⟨⟨_, .drop key, ?_⟩, rfl⟩
    rw [(Moves.drop (get?_of_handle hhandle)).lettingGo_eq]
    rfl
  | describe key =>
    exact .bind fun h hhandle => .pure ⟨⟨_, .describe (get?_of_handle hhandle), rfl⟩, rfl⟩
  | publicPem key target =>
    exact .bind fun h _ => .bind fun text _ =>
      .pure ⟨⟨_, .publicPem key target text, rfl⟩, bytes_storeText s target text⟩
  | privatePem key target =>
    exact .bind fun h _ => .bind fun text _ =>
      .pure ⟨⟨_, .privatePem key target text, rfl⟩, bytes_storeText s target text⟩
  | require key expected needsPrivate =>
    exact .bind fun h _ => .bind fun _ _ =>
      .pure ⟨⟨_, .require key expected needsPrivate, rfl⟩, rfl⟩
  | same a b => exact .bind fun _ _ => .bind fun _ _ => .pure ⟨⟨_, .same a b _, rfl⟩, rfl⟩
  | sign scheme key message target =>
    exact .bind fun h _ => .bind fun message hmessage => .bind fun signature _ =>
      .pure ⟨⟨_, .sign hmessage, rfl⟩, rfl⟩
  | verify scheme key message signature =>
    exact .bind fun h _ => .bind fun message hmessage => .bind fun signature _ =>
      .bind fun verdict _ => .pure ⟨⟨_, .verify hmessage, rfl⟩, rfl⟩
  | encrypt mode key nonce text target =>
    refine .bind fun key hkey => .bind fun nonce _ => .bind fun text htext =>
      .bind fun v hmode => .bind fun ciphertext hencrypt => ?_
    -- the lengths that the event is about are those that the cipher has checked.
    obtain ⟨hlength, hciphertext⟩ := Aead.lengths_of_encryptWith (eq_ok_of_lift hencrypt)
    exact .pure ⟨⟨_, .encrypt hkey (eq_ok_of_lift hmode) hlength htext hciphertext, rfl⟩, rfl⟩
  | decrypt mode key nonce ciphertext target =>
    refine .bind fun key hkey => .bind fun nonce _ => .bind fun ciphertext hinput =>
      .bind fun v hmode => .bind fun text hdecrypt => ?_
    obtain ⟨hlength, hciphertext⟩ := Aead.lengths_of_decryptWith (eq_ok_of_lift hdecrypt)
    exact .pure ⟨⟨_, .decrypt hkey (eq_ok_of_lift hmode) hlength hinput hciphertext, rfl⟩, rfl⟩
  | parse der toR toS =>
    refine .bind fun _ _ => .bind fun sig _ => .pure ⟨⟨_, .parse der toR toS sig, rfl⟩, ?_⟩
    cases toR <;> cases toS <;> rfl
  | build r s' target =>
    refine .bind fun r hr => .bind fun s' hs => .pure ⟨⟨_, logs_build target hr hs, ?_⟩, rfl⟩
    exact (List.append_nil _).symm
  | flip data position mask target =>
    exact .bind fun data hdata => .pure ⟨⟨_, .flip hdata, rfl⟩, rfl⟩
  | cut data length target => exact .bind fun data hdata => .pure ⟨⟨_, .cut hdata, rfl⟩, rfl⟩
  | append data tail target =>
    exact .bind fun data hdata => .bind fun tail htail => .pure ⟨⟨_, .append hdata htail, rfl⟩, rfl⟩

/-! ### Outcomes -/

/-- What an outcome tells and keeps: a failure tells nothing and keeps every slot, and a success
tells of its step, one time if it is logged and not at all otherwise, and else only of releases. -/
structure Accounts (s : State) (step : Step) (outcome : Outcome) : Prop where
  failure : ∀ failure, outcome.answer = .error failure → outcome.events = [] ∧ outcome.state = s
  success : ∀ value, outcome.answer = .ok value → ∃ log, step.Logs s value log ∧
    log.length = (if step.isLogged value then 1 else 0) ∧ reports outcome.events = log

theorem run_of_attempt_eq_ok {s' : State} (h : step.attempt draw s = .ok (value, events, s')) :
    step.run draw s = ⟨.ok value, events, s'⟩ := by
  rw [run, h]

/-- A step that succeeds comes to what its attempt does. -/
theorem effect_run (h : (step.run draw s).answer = .ok value) :
    step.Effect draw s value (step.run draw s).events (step.run draw s).state := by
  cases hattempt : step.attempt draw s with
  | error failure =>
    -- a failed attempt answers its failure.
    rw [run_of_attempt_eq_error hattempt] at h
    cases h
  | ok result =>
    obtain ⟨v, events, s'⟩ := result
    rw [run_of_attempt_eq_ok hattempt] at h ⊢
    obtain rfl := Except.ok.inj h
    exact effect_attempt draw s step v events s' hattempt

/-- Every step accounts for the state that it finds. -/
theorem accounts_run (draw : Draw) (s : State) (step : Step) :
    step.Accounts s (step.run draw s) where
  failure failure h := by
    cases hattempt : step.attempt draw s with
    | error _ =>
      rw [run_of_attempt_eq_error hattempt]
      exact ⟨rfl, rfl⟩
    | ok result =>
      obtain ⟨v, events, s'⟩ := result
      rw [run_of_attempt_eq_ok hattempt] at h
      cases h
  success value h := by
    obtain ⟨log, hlog, hevents⟩ := (effect_run h).log
    refine ⟨log, hlog, hlog.length_eq, ?_⟩
    -- of all events only the log of the step is left once the releases are taken out.
    rw [hevents, reports_append, hlog.reports_eq, reports_lettingGo, List.append_nil]

end Step

-- a clone that fails leaves the key in its target, which the next step releases.
example : (run (fun _ => Key.drawOfMask 1) [.generate (some "a"), .clone "b" (some "a"),
    .generate (some "a")]).map (·.events)
      = [[.generatedKey .ed25519], [],
        [.generatedKey .ed25519, .releasingKey ⟨.ed25519, true⟩]] := by
  rfl

/-! ### A signature that is too long -/

/-- A session that writes two integers as a signature. -/
def buildSession (r s : Bytes) : List Step :=
  [.build (.literal r) (.literal s) none]

/-- Half of the length that a signature cannot have any more. -/
def halfLength : ℕ := 2 ^ 27

/-- Two integers of half that length, without zeros, leave no room for anything else. -/
theorem not_hasEncoding_halfLength :
    ¬ EcdsaSignature.HasEncoding ⟨List.replicate halfLength 1, List.replicate halfLength 1⟩ :=
  EcdsaSignature.not_hasEncoding_replicate_one (by decide)

end Keyring.Session
