import Keyring.Proofs.Session.Report
/-!
# What a session keeps to itself

Two sessions that take the same steps with different contents are told apart neither by their events
nor by their descriptions, if their steps agree in what the events are about: whether they succeed,
what is imported, how a signature is judged, how long byte strings are, and which signatures were
too long to be written. The slots for keys of both look alike at every moment, with the same names,
the same numbers and the same descriptions.

The lengths need to be compared where byte strings come in only, since each step but reading and
writing an ECDSA signature gives a result whose length its arguments determine.

* `Slots.view` is what an observer may know of slots, and `Handle.view` what of a handle; states are
  alike if their slots for keys are, in this view.
* `Step.logs_eq` and `Step.Alike.moves` compare two steps of one kind: they tell the same and make
  moves that look alike. `Step.Alike.run` is the step lemma made of both.
* `stateAfter_induction₂` takes a relation of two states along two sessions. It is used two times:
  for states that look alike, and for slots that hold byte strings of the same lengths.
-/

namespace Keyring.Session

open Text Cipher

variable {draws draws' : ℕ → Draw} {steps steps' : List Step} {draw draw' : Draw} {s s' : State}
  {step step' : Step} {value value' : Value} {log log' : List Event} {m m' : Move}
  {r : Bytes → Bytes → Prop}

/-! ### Slots up to a view of their contents -/

namespace Slots

variable {α β : Type} {f : α → β} {slots slots' : Slots α} {a a' : α}

/-- The names of the slots, with what a view shows of their contents. -/
def view (f : α → β) (slots : Slots α) : List (String × β) :=
  slots.entries.map fun e => (e.1, f e.2)

/-- A view is looked up where the content is. -/
theorem lookup_map_view (l : List (String × α)) (name : String) :
    (l.map fun e => (e.1, f e.2)).lookup name = (l.lookup name).map f := by
  induction l with
  | nil => rfl
  | cons e rest ih =>
    rw [List.map_cons, lookup_cons, lookup_cons, ih]
    split <;> rfl

/-- What a view shows after an insertion is the insertion of what it shows. -/
theorem insertEntry_map_view (l : List (String × α)) (name : String) (a : α) :
    (insertEntry name a l).map (fun e => (e.1, f e.2))
      = insertEntry name (f a) (l.map fun e => (e.1, f e.2)) := by
  induction l with
  | nil => rfl
  | cons e rest ih =>
    simp only [insertEntry, List.map_cons, ← ih]
    split
    · rfl
    · split <;> rfl

/-- Slots that look alike show the same under each name. -/
theorem map_get?_of_view (h : slots.view f = slots'.view f) (name : String) :
    (slots.get? name).map f = (slots'.get? name).map f := by
  rw [get?, get?, ← lookup_map_view, ← lookup_map_view]
  exact congrArg (List.lookup name) h

/-- Slots that look alike do so after insertions that look alike. -/
theorem view_insert (h : slots.view f = slots'.view f) (ha : f a = f a') (name : String) :
    (slots.insert name a).view f = (slots'.insert name a').view f := by
  show (insertEntry name a slots.entries).map _ = (insertEntry name a' slots'.entries).map _
  rw [insertEntry_map_view, insertEntry_map_view, ha]
  exact congrArg (insertEntry name (f a')) h

/-- What a view shows after a slot was cleared follows from what it showed before. -/
theorem view_erase (slots : Slots α) (name : String) :
    (slots.erase name).view f = (slots.view f).filter (·.1 ≠ name) := by
  rw [view, view, List.filter_map]
  rfl

end Slots

/-! ### States that look alike -/

/-- What is seen of a handle: which key it shares, its description, and the algorithm of that key,
which is the tag that a public half of it gets. -/
structure Handle.View where
  id : ℕ
  description : Key.Description
  algorithm : Algorithm

/-- What is seen of a handle. -/
def Handle.view (h : Handle) : View :=
  ⟨h.id, h.describe, h.key.algorithm⟩

/-- Whether the slots for keys of two states look alike. -/
structure State.Alike (s s' : State) : Prop where
  keys : s.keys.view Handle.view = s'.keys.view Handle.view
  made : s.made = s'.made

/-- Whether two moves do the same to keys that look alike. -/
inductive Move.Alike : Move → Move → Prop
  | make {key key' : Key} (h : key.describe = key'.describe) (target : Option String) :
    Alike (.make key target) (.make key' target)
  | share {g g' : Handle} (h : g.view = g'.view) (target : Option String) :
    Alike (.share g target) (.share g' target)
  | clear (name : String) {g g' : Handle} (h : g.view = g'.view) :
    Alike (.clear name g) (.clear name g')

/-- Whether a key is released, and with which description, shows in the view. -/
theorem release_eq_of_view {keys keys' : Slots Handle} {h h' : Handle}
    (hkeys : keys.view Handle.view = keys'.view Handle.view) (hview : h.view = h'.view) :
    release keys h = release keys' h' := by
  obtain ⟨hid, hdescribe, -⟩ := Handle.View.mk.inj hview
  -- the search for another holder of the key is a search in the view.
  have hany : ∀ slots : Slots Handle, slots.values.any (·.id = h'.id)
      = (slots.view Handle.view).any (·.2.id = h'.id) := by
    intro slots
    rw [Slots.values, Slots.view, List.any_map, List.any_map]
    rfl
  rw [release, release, hid, hdescribe, hany, hany, hkeys]

/-- What is released at the end shows in the view. -/
theorem releaseAll_eq_of_view {entries entries' : List (String × Handle)}
    (h : entries.map (fun e => (e.1, e.2.view)) = entries'.map fun e => (e.1, e.2.view)) :
    releaseAll entries = releaseAll entries' := by
  induction entries generalizing entries' with
  | nil =>
    rw [List.map_eq_nil_iff.1 h.symm]
  | cons e rest ih =>
    cases entries' with
    | nil => cases h
    | cons e' rest' =>
      obtain ⟨hfirst, hrest⟩ := List.cons.inj h
      obtain ⟨hid, hdescribe, -⟩ := Handle.View.mk.inj (Prod.mk.inj hfirst).2
      -- the search for a later holder of the key is a search in the view.
      have hany : ∀ l : List (String × Handle), l.any (·.2.id = e'.2.id)
          = (l.map fun e => (e.1, e.2.view)).any (·.2.id = e'.2.id) := by
        intro l
        rw [List.any_map]
        rfl
      rw [releaseAll, releaseAll, ih hrest, hid, hdescribe, hany, hany, hrest]

namespace State.Alike

/-- The end of a session tells the same of states that look alike. -/
theorem finish_eq (h : s.Alike s') : s.finish = s'.finish :=
  releaseAll_eq_of_view h.keys

/-- Storing handles that look alike does and tells the same. -/
theorem storeHandle (h : s.Alike s') (target : Option String) {g g' : Handle}
    (hview : g.view = g'.view) :
    (s.storeHandle target g).1.Alike (s'.storeHandle target g').1 ∧
      (s.storeHandle target g).2 = (s'.storeHandle target g').2 := by
  cases target with
  | none => exact ⟨h, release_eq_of_view h.keys hview⟩
  | some name =>
    have hkeys := Slots.view_insert h.keys hview name
    refine ⟨⟨hkeys, h.made⟩, ?_⟩
    show ((s.keys.get? name).map (release (s.keys.insert name g))).getD []
      = ((s'.keys.get? name).map (release (s'.keys.insert name g'))).getD []
    have hget := Slots.map_get?_of_view h.keys name
    -- what was in the slot before is let go of after the new handle is in, so both views are
    -- compared.
    cases hold : s.keys.get? name <;> cases hold' : s'.keys.get? name <;> rw [hold, hold'] at hget
    · rfl
    · cases hget
    · cases hget
    · exact release_eq_of_view hkeys (Option.some.inj hget)

/-- Moves that look alike do and tell the same. -/
theorem apply (h : s.Alike s') (hm : m.Alike m') :
    (m.apply s).1.Alike (m'.apply s').1 ∧ (m.apply s).2 = (m'.apply s').2 := by
  cases hm with
  | make hkey target =>
    have hmade : State.Alike { s with made := s.made + 1 } { s' with made := s'.made + 1 } :=
      ⟨h.keys, congrArg (· + 1) h.made⟩
    -- a new handle shows its number, which is the same, and its description.
    have hview : (Handle.ofKey s.made _).view = (Handle.ofKey s'.made _).view :=
      (Handle.View.mk.injEq ..).mpr ⟨h.made, hkey, congrArg Key.Description.algorithm hkey⟩
    exact hmade.storeHandle target hview
  | share hview target => exact h.storeHandle target hview
  | clear name hview =>
    have hkeys : (s.keys.erase name).view Handle.view = (s'.keys.erase name).view Handle.view := by
      rw [Slots.view_erase, Slots.view_erase, h.keys]
    exact ⟨⟨hkeys, h.made⟩, release_eq_of_view hkeys hview⟩

/-- The handles in a slot of two states that look alike look alike. -/
theorem view_eq (h : s.Alike s') {name : String} {g g' : Handle} (hg : s.keys.get? name = some g)
    (hg' : s'.keys.get? name = some g') : g.view = g'.view := by
  have hget := Slots.map_get?_of_view h.keys name
  rw [hg, hg'] at hget
  exact Option.some.inj hget

/-- The handles in a slot of two states that look alike have one description. -/
theorem describe_eq (h : s.Alike s') {name : String} {g g' : Handle}
    (hg : s.keys.get? name = some g) (hg' : s'.keys.get? name = some g') :
    g.describe = g'.describe :=
  congrArg Handle.View.description (h.view_eq hg hg')

/-- The handles in a slot of two states that look alike agree on whether there is a private half. -/
theorem isPrivate_eq (h : s.Alike s') {name : String} {g g' : Handle}
    (hg : s.keys.get? name = some g) (hg' : s'.keys.get? name = some g') :
    g.key.isPrivate = g'.key.isPrivate :=
  congrArg Key.Description.isPrivate (h.describe_eq hg hg')

/-- The public halves of keys that look alike have one description. -/
theorem describe_toPublic_eq (h : s.Alike s') {name : String} {g g' : Handle}
    (hg : s.keys.get? name = some g) (hg' : s'.keys.get? name = some g') :
    g.key.toPublic.describe = g'.key.toPublic.describe := by
  have halgorithm : g.key.algorithm = g'.key.algorithm :=
    congrArg Handle.View.algorithm (h.view_eq hg hg')
  show (⟨g.key.toPublic.algorithm, false⟩ : Key.Description) = ⟨g'.key.toPublic.algorithm, false⟩
  rw [Key.algorithm_toPublic, Key.algorithm_toPublic, halgorithm]

end State.Alike

/-! ### Steps that look alike -/

/-- Whether two arguments are the same slot, or both given in the step and related. -/
inductive Operand.Alike {α : Type} (r : α → α → Prop) : Operand α → Operand α → Prop
  | literal {a b : α} (h : r a b) : Alike r (.literal a) (.literal b)
  | slot (name : String) : Alike r (.slot name) (.slot name)

/-- Whether two texts are compared at all. -/
abbrev Operand.AnyText : Operand String → Operand String → Prop :=
  Operand.Alike fun _ _ => True

/-- Whether two steps are the same but for the contents that are given in them: any texts and bits,
and byte strings that are related. -/
inductive Step.Alike (r : Bytes → Bytes → Prop) : Step → Step → Prop
  | generate (target : Option String) : Alike r (.generate target) (.generate target)
  | importPrivate {pem pem' : Operand String} (h : pem.AnyText pem') (target : Option String) :
    Alike r (.importPrivate pem target) (.importPrivate pem' target)
  | importPublic {pem pem' : Operand String} (h : pem.AnyText pem') (target : Option String) :
    Alike r (.importPublic pem target) (.importPublic pem' target)
  | clone (key : String) (target : Option String) : Alike r (.clone key target) (.clone key target)
  | toPublic (key : String) (target : Option String) :
    Alike r (.toPublic key target) (.toPublic key target)
  | drop (key : String) : Alike r (.drop key) (.drop key)
  | describe (key : String) : Alike r (.describe key) (.describe key)
  | publicPem (key : String) (target : Option String) :
    Alike r (.publicPem key target) (.publicPem key target)
  | privatePem (key : String) (target : Option String) :
    Alike r (.privatePem key target) (.privatePem key target)
  | require (key : String) (expected : Option Algorithm) (needsPrivate : Bool) :
    Alike r (.require key expected needsPrivate) (.require key expected needsPrivate)
  | same (a b : String) : Alike r (.same a b) (.same a b)
  | sign (scheme : Scheme) (key : String) {message message' : Operand Bytes}
    (h : message.Alike r message') (target : Option String) :
    Alike r (.sign scheme key message target) (.sign scheme key message' target)
  | verify (scheme : Scheme) (key : String) {message message' signature signature' : Operand Bytes}
    (h : message.Alike r message') (hsignature : signature.Alike r signature') :
    Alike r (.verify scheme key message signature) (.verify scheme key message' signature')
  | encrypt (mode : CipherMode) {key key' nonce nonce' text text' : Operand Bytes}
    (hkey : key.Alike r key') (hnonce : nonce.Alike r nonce') (htext : text.Alike r text')
    (target : Option String) :
    Alike r (.encrypt mode key nonce text target) (.encrypt mode key' nonce' text' target)
  | decrypt (mode : CipherMode) {key key' nonce nonce' text text' : Operand Bytes}
    (hkey : key.Alike r key') (hnonce : nonce.Alike r nonce') (htext : text.Alike r text')
    (target : Option String) :
    Alike r (.decrypt mode key nonce text target) (.decrypt mode key' nonce' text' target)
  | parse {der der' : Operand Bytes} (h : der.Alike r der') (toR toS : Option String) :
    Alike r (.parse der toR toS) (.parse der' toR toS)
  | build {a a' b b' : Operand Bytes} (ha : a.Alike r a') (hb : b.Alike r b')
    (target : Option String) : Alike r (.build a b target) (.build a' b' target)
  | flip {data data' : Operand Bytes} (h : data.Alike r data') (position : ℤ) (mask mask' : UInt8)
    (target : Option String) :
    Alike r (.flip data position mask target) (.flip data' position mask' target)
  | cut {data data' : Operand Bytes} (h : data.Alike r data') (length : ℕ)
    (target : Option String) : Alike r (.cut data length target) (.cut data' length target)
  | append {data data' tail tail' : Operand Bytes} (h : data.Alike r data')
    (htail : tail.Alike r tail') (target : Option String) :
    Alike r (.append data tail target) (.append data' tail' target)

/-- The arguments of a step that are byte strings. -/
def Step.inputs : Step → List (Operand Bytes)
  | .sign _ _ message _ => [message]
  | .verify _ _ message signature => [message, signature]
  | .encrypt _ key nonce text _ | .decrypt _ key nonce text _ => [key, nonce, text]
  | .parse der _ _ => [der]
  | .build r s _ => [r, s]
  | .flip data .. | .cut data .. => [data]
  | .append data tail _ => [data, tail]
  | _ => []

/-- How long the value of an argument is, unless its slot is empty. -/
def Operand.length? (s : State) (operand : Operand Bytes) : Option ℕ :=
  (operand.eval s.bytes).toOption.map List.length

/-- How long the byte strings are that go into a step. -/
def Step.inputLengths (s : State) (step : Step) : List (Option ℕ) :=
  step.inputs.map (Operand.length? s)

/-- The label and the algorithm of what a step imports. -/
def Step.imported? (s : State) : Step → Option (Pem.Label × Algorithm)
  | .importPrivate pem _ => (pem.eval s.texts).toOption.bind fun text =>
    (PrivateKey.ofPem? text).map fun document => (document.1, document.2.algorithm)
  | .importPublic pem _ => (pem.eval s.texts).toOption.bind fun text =>
    (PublicKey.ofPem? text).map fun key => (.publicKey, key.algorithm)
  | _ => none

/-- The description in an answer. -/
def Value.description? : Value → Option Key.Description
  | .description d => some d
  | _ => Option.none

/-- The verdict in an answer. -/
def Value.verdict? : Value → Option Verdict
  | .verdict v => some v
  | _ => Option.none

/-- How long the signature is that a step answers. -/
def Step.signatureLength? : Step → Value → Option ℕ
  | .sign .., .bytes signature => some signature.length
  | _, _ => none

/-- How long the byte strings are that a step reads from an ECDSA signature or writes as one. -/
def Step.codecLengths : Step → Value → List ℕ
  | .parse .., .signature sig => [sig.r.length, sig.s.length]
  | .build .., .bytes der => [der.length]
  | _, _ => []

/-- What is said about a step in the open: whether it succeeds, what it imports, its verdict on a
signature and the length of the signature that it makes. -/
structure Disclosure where
  succeeds : Bool
  imported? : Option (Pem.Label × Algorithm)
  verdict? : Option Verdict
  signatureLength? : Option ℕ
deriving DecidableEq

/-- What is said in the open about a step in a state. -/
def Step.disclosure (draw : Draw) (s : State) (step : Step) : Disclosure :=
  let answer := (step.run draw s).answer.toOption
  { succeeds := answer.isSome
    imported? := step.imported? s
    verdict? := answer.bind Value.verdict?
    signatureLength? := answer.bind step.signatureLength? }

/-! ### What two steps tell -/

namespace Step

/-- Arguments of the same lengths have values of the same lengths. -/
theorem length_eq_of_length? {operand operand' : Operand Bytes} {b b' : Bytes}
    (h : operand.length? s = operand'.length? s') (hb : operand.eval s.bytes = .ok b)
    (hb' : operand'.eval s'.bytes = .ok b') : b.length = b'.length := by
  rw [Operand.length?, Operand.length?, hb, hb'] at h
  exact Option.some.inj h

/-- The variant of the cipher depends on how long the key is. -/
theorem variant_eq_of_length {key key' : Bytes} {v v' : CipherVariant}
    (h : key.length = key'.length) (hv : key.length = v.keyLength)
    (hv' : key'.length = v'.keyLength) : v = v' := by
  have hlength : v.keyLength = v'.keyLength := hv.symm.trans (h.trans hv')
  cases v <;> cases v' <;> first | rfl | cases hlength

/-- What a step imports is what its text is read as. -/
theorem imported?_importPrivate {pem : Operand String} {target : Option String} {text : String}
    {label : Pem.Label} {key : PrivateKey} (htext : pem.eval s.texts = .ok text)
    (hkey : PrivateKey.ofPem? text = some (label, key)) :
    (importPrivate pem target).imported? s = some (label, key.algorithm) := by
  simp only [imported?, htext, Except.toOption, Option.bind_some, hkey, Option.map_some]

/-- What a step imports is what its text is read as. -/
theorem imported?_importPublic {pem : Operand String} {target : Option String} {text : String}
    {key : PublicKey} (htext : pem.eval s.texts = .ok text)
    (hkey : PublicKey.ofPem? text = some key) :
    (importPublic pem target).imported? s = some (.publicKey, key.algorithm) := by
  simp only [imported?, htext, Except.toOption, Option.bind_some, hkey, Option.map_some]

/-- Whether a signature was too long to be written shows in the length of the answer. -/
theorem isOversized_eq (step : Step) :
    step.isOversized = fun value => decide (step.codecLengths value = [0]) := by
  funext value
  cases step with
  | build r s' target =>
    cases value with
    | bytes der => cases der <;> simp [isOversized, codecLengths]
    | _ => rfl
  | parse der toR toS => cases value <;> simp [isOversized, codecLengths]
  | _ => rfl

/-- What is told about two steps that look alike is the same, and so is what they describe. -/
theorem logs_eq (hstep : step.Alike r step') (hs : s.Alike s')
    (hlengths : step.inputLengths s = step'.inputLengths s')
    (himported : step.imported? s = step'.imported? s')
    (hverdict : value.verdict? = value'.verdict?)
    (hsignature : step.signatureLength? value = step'.signatureLength? value')
    (hoversized : step.isOversized value = step'.isOversized value')
    (hlog : step.Logs s value log) (hlog' : step'.Logs s' value' log') :
    log = log' ∧ value.description? = value'.description? := by
  -- a kind of step has one way to tell of itself, so both logs are taken apart together. What is
  -- left to compare in each case is what the view of the state does not show.
  cases hstep with
  | importPrivate =>
    match hlog, hlog' with
    | .importPrivate htext _ hkey, .importPrivate htext' _ hkey' =>
      rw [imported?_importPrivate htext hkey, imported?_importPrivate htext' hkey'] at himported
      obtain ⟨rfl, halgorithm⟩ := Prod.mk.inj (Option.some.inj himported)
      rw [halgorithm]
      exact ⟨rfl, rfl⟩
  | importPublic =>
    match hlog, hlog' with
    | .importPublic htext hkey, .importPublic htext' hkey' =>
      rw [imported?_importPublic htext hkey, imported?_importPublic htext' hkey'] at himported
      obtain ⟨-, halgorithm⟩ := Prod.mk.inj (Option.some.inj himported)
      rw [halgorithm]
      exact ⟨rfl, rfl⟩
  | clone =>
    match hlog, hlog' with
    | .clone hget, .clone hget' => exact ⟨rfl, congrArg some (hs.describe_eq hget hget')⟩
  | toPublic =>
    match hlog, hlog' with
    | .publicHalf hget _, .publicHalf hget' _ =>
      exact ⟨rfl, congrArg some (hs.describe_toPublic_eq hget hget')⟩
    | .publicKey hget _, .publicKey hget' _ =>
      exact ⟨rfl, congrArg some (hs.describe_eq hget hget')⟩
    -- the descriptions say whether there is a private half, so the branches do not differ.
    | .publicHalf hget hprivate, .publicKey hget' hpublic =>
      rw [hs.isPrivate_eq hget hget', hpublic] at hprivate
      cases hprivate
    | .publicKey hget hpublic, .publicHalf hget' hprivate =>
      rw [hs.isPrivate_eq hget hget', hprivate] at hpublic
      cases hpublic
  | describe =>
    match hlog, hlog' with
    | .describe hget, .describe hget' => exact ⟨rfl, congrArg some (hs.describe_eq hget hget')⟩
  | sign =>
    match hlog, hlog' with
    | .sign hmessage, .sign hmessage' =>
      rw [length_eq_of_length? (List.cons.inj hlengths).1 hmessage hmessage',
        show _ = _ from Option.some.inj hsignature]
      exact ⟨rfl, rfl⟩
  | verify =>
    match hlog, hlog' with
    | .verify hmessage, .verify hmessage' =>
      rw [length_eq_of_length? (List.cons.inj hlengths).1 hmessage hmessage',
        show _ = _ from Option.some.inj hverdict]
      exact ⟨rfl, rfl⟩
  | encrypt =>
    match hlog, hlog' with
    | .encrypt hkey _ hvariant htext _, .encrypt hkey' _ hvariant' htext' _ =>
      obtain ⟨hfirst, hrest⟩ := List.cons.inj hlengths
      obtain ⟨-, hrest⟩ := List.cons.inj hrest
      rw [variant_eq_of_length (length_eq_of_length? hfirst hkey hkey') hvariant hvariant',
        length_eq_of_length? (List.cons.inj hrest).1 htext htext']
      exact ⟨rfl, rfl⟩
  | decrypt =>
    match hlog, hlog' with
    | .decrypt hkey _ hvariant hinput hlength, .decrypt hkey' _ hvariant' hinput' hlength' =>
      obtain ⟨hfirst, hrest⟩ := List.cons.inj hlengths
      obtain ⟨-, hrest⟩ := List.cons.inj hrest
      have hinputs := length_eq_of_length? (List.cons.inj hrest).1 hinput hinput'
      -- a text is shorter than what it was decrypted from by the length of the tag.
      rw [variant_eq_of_length (length_eq_of_length? hfirst hkey hkey') hvariant hvariant',
        Nat.add_right_cancel (hlength.symm.trans (hinputs.trans hlength'))]
      exact ⟨rfl, rfl⟩
  | build =>
    match hlog, hlog' with
    | .build _ _ _, .build _ _ _ => exact ⟨rfl, rfl⟩
    | .buildOversized hr hs _, .buildOversized hr' hs' _ =>
      obtain ⟨hfirst, hrest⟩ := List.cons.inj hlengths
      rw [length_eq_of_length? hfirst hr hr', length_eq_of_length? (List.cons.inj hrest).1 hs hs']
      exact ⟨rfl, rfl⟩
    -- integers of the same lengths may have an encoding or not, so this is given.
    | .build _ _ hder, .buildOversized _ _ _ =>
      exact absurd (List.isEmpty_iff.1 hoversized) (EcdsaSignature.ne_nil_of_encode hder)
    | .buildOversized _ _ _, .build _ _ hder =>
      exact absurd (List.isEmpty_iff.1 hoversized.symm) (EcdsaSignature.ne_nil_of_encode hder)
  | _ =>
    cases hlog
    cases hlog'
    exact ⟨rfl, rfl⟩

/-! ### What two steps do -/

/-- The description of an imported key says its algorithm and that it is private. -/
theorem describe_of_importPrivate {text : String} {key : Key}
    (h : Key.importPrivate text = .ok key) : ∃ document, PrivateKey.ofPem? text = some document ∧
      key.describe = ⟨document.2.algorithm, true⟩ := by
  rw [Key.importPrivate] at h
  split at h
  · next label k hread =>
    obtain rfl := Except.ok.inj h
    exact ⟨_, hread, rfl⟩
  · cases h

/-- The description of an imported key says its algorithm and that it is public. -/
theorem describe_of_importPublic {text : String} {key : Key}
    (h : Key.importPublic text = .ok key) : ∃ document, PublicKey.ofPem? text = some document ∧
      key.describe = ⟨document.algorithm, false⟩ := by
  rw [Key.importPublic] at h
  split at h
  · next k hread =>
    obtain rfl := Except.ok.inj h
    exact ⟨k, hread, rfl⟩
  · cases h

/-- Steps that look alike do the same to keys that look alike. -/
theorem Alike.moves (hstep : step.Alike r step') (hs : s.Alike s')
    (himported : step.imported? s = step'.imported? s') (h : step.Moves draw s m)
    (h' : step'.Moves draw' s' m') : m.Alike m' := by
  cases hstep with
  | generate =>
    -- both moves are those of one kind of step, so they are taken apart together.
    match h, h' with
    | .generate hkey, .generate hkey' =>
      obtain rfl := Key.eq_ofPrivate_of_generate hkey
      obtain rfl := Key.eq_ofPrivate_of_generate hkey'
      have hdescribe : (Key.ofPrivate (.ed25519 draw.seed)).describe
        = (Key.ofPrivate (.ed25519 draw'.seed)).describe := rfl
      exact .make hdescribe _
  | importPrivate =>
    match h, h' with
    | .importPrivate htext hkey, .importPrivate htext' hkey' =>
      obtain ⟨_, hread, hdescribe⟩ := describe_of_importPrivate hkey
      obtain ⟨_, hread', hdescribe'⟩ := describe_of_importPrivate hkey'
      rw [imported?_importPrivate htext hread, imported?_importPrivate htext' hread'] at himported
      refine .make ?_ _
      rw [hdescribe, hdescribe', (Prod.mk.inj (Option.some.inj himported)).2]
  | importPublic =>
    match h, h' with
    | .importPublic htext hkey, .importPublic htext' hkey' =>
      obtain ⟨_, hread, hdescribe⟩ := describe_of_importPublic hkey
      obtain ⟨_, hread', hdescribe'⟩ := describe_of_importPublic hkey'
      rw [imported?_importPublic htext hread, imported?_importPublic htext' hread'] at himported
      refine .make ?_ _
      rw [hdescribe, hdescribe', (Prod.mk.inj (Option.some.inj himported)).2]
  | clone =>
    match h, h' with
    | .clone hget, .clone hget' => exact .share (hs.view_eq hget hget') _
  | toPublic =>
    match h, h' with
    | .publicHalf hget _, .publicHalf hget' _ => exact .make (hs.describe_toPublic_eq hget hget') _
    | .publicKey hget _, .publicKey hget' _ => exact .share (hs.view_eq hget hget') _
    | .publicHalf hget hprivate, .publicKey hget' hpublic =>
      rw [hs.isPrivate_eq hget hget', hpublic] at hprivate
      cases hprivate
    | .publicKey hget hpublic, .publicHalf hget' hprivate =>
      rw [hs.isPrivate_eq hget hget', hprivate] at hpublic
      cases hpublic
  | drop =>
    match h, h' with
    | .drop hget, .drop hget' => exact .clear _ (hs.view_eq hget hget')
  | _ => cases h

/-- A step of the other kinds has no move. -/
theorem move?_of_not_hasMove (h : step.hasMove = false) : step.move? draw s = none := by
  cases step with
  | generate | importPrivate | importPublic | clone | toPublic | drop => cases h
  | _ => rfl

/-- Steps that look alike are of one kind. -/
theorem Alike.hasMove_eq (hstep : step.Alike r step') : step.hasMove = step'.hasMove := by
  cases hstep <;> rfl

/-- What successful steps that look alike do to the slots for keys, and which keys they release. -/
theorem Alike.lettingGo (hstep : step.Alike r step') (hs : s.Alike s')
    (himported : step.imported? s = step'.imported? s')
    (hanswer : (step.run draw s).answer = .ok value)
    (hanswer' : (step'.run draw' s').answer = .ok value') :
    (step.run draw s).state.Alike (step'.run draw' s').state ∧
      step.lettingGo draw s = step'.lettingGo draw' s' := by
  cases hmove : step.hasMove with
  | true =>
    -- a step of such a kind succeeds only by its move.
    have hok : (step.run draw s).answer.isOk = true := by rw [hanswer]; rfl
    have hok' : (step'.run draw' s').answer.isOk = true := by rw [hanswer']; rfl
    obtain ⟨m, hm⟩ := (isOk_run_iff hmove).1 hok
    obtain ⟨m', hm'⟩ := (isOk_run_iff (hstep.hasMove_eq ▸ hmove)).1 hok'
    rw [(run_of_move? hm).2.1, (run_of_move? hm').2.1, (moves_of_move? hm).lettingGo_eq,
      (moves_of_move? hm').lettingGo_eq]
    exact hs.apply (hstep.moves hs himported (moves_of_move? hm) (moves_of_move? hm'))
  | false =>
    have hnone : step.move? draw s = none := move?_of_not_hasMove hmove
    have hnone' : step'.move? draw' s' = none := move?_of_not_hasMove (hstep.hasMove_eq ▸ hmove)
    obtain ⟨hkeys, hmade, -, -⟩ := run_of_move?_eq_none hnone
    obtain ⟨hkeys', hmade', -, -⟩ := run_of_move?_eq_none hnone'
    -- no other step touches the slots for keys.
    refine ⟨⟨?_, ?_⟩, ?_⟩
    · rw [hkeys, hkeys', hs.keys]
    · rw [hmade, hmade', hs.made]
    · rw [Step.lettingGo, Step.lettingGo, hnone, hnone']
      rfl

/-- Steps that look alike, in states that look alike, tell and describe the same and leave states
that look alike, if the same is said about them in the open. -/
theorem Alike.run (hstep : step.Alike r step') (hs : s.Alike s')
    (hdisclosure : step.disclosure draw s = step'.disclosure draw' s')
    (hlengths : step.inputLengths s = step'.inputLengths s')
    (hoversized : (step.run draw s).answer.toOption.map step.isOversized
      = (step'.run draw' s').answer.toOption.map step'.isOversized) :
    (step.run draw s).state.Alike (step'.run draw' s').state ∧
      (step.run draw s).events = (step'.run draw' s').events ∧
      (step.run draw s).answer.toOption.bind Value.description?
        = (step'.run draw' s').answer.toOption.bind Value.description? := by
  obtain ⟨hsucceeds, himported, hverdict, hsignature⟩ := Disclosure.mk.inj hdisclosure
  cases hanswer : (step.run draw s).answer with
  | error failure =>
    cases hanswer' : (step'.run draw' s').answer with
    | error failure' =>
      obtain ⟨hevents, hstate⟩ := (step.accounts_run draw s).failure failure hanswer
      obtain ⟨hevents', hstate'⟩ := (step'.accounts_run draw' s').failure failure' hanswer'
      rw [hevents, hevents', hstate, hstate']
      exact ⟨hs, rfl, rfl⟩
    | ok value' =>
      -- whether a step succeeds is said in the open.
      rw [hanswer, hanswer'] at hsucceeds
      cases hsucceeds
  | ok value =>
    cases hanswer' : (step'.run draw' s').answer with
    | error failure' =>
      rw [hanswer, hanswer'] at hsucceeds
      cases hsucceeds
    | ok value' =>
      rw [hanswer, hanswer'] at hverdict hsignature hoversized
      obtain ⟨log, hlog, hevents⟩ := (effect_run hanswer).log
      obtain ⟨log', hlog', hevents'⟩ := (effect_run hanswer').log
      obtain ⟨hstate, hlettingGo⟩ := hstep.lettingGo hs himported hanswer hanswer'
      obtain ⟨hlogs, hdescription⟩ :=
        logs_eq hstep hs hlengths himported hverdict hsignature (Option.some.inj hoversized) hlog
          hlog'
      rw [hevents, hevents', hlogs, hlettingGo]
      exact ⟨hstate, rfl, hdescription⟩

end Step

/-! ### The lengths of what steps store -/

/-- Whether two byte strings have the same length. -/
abbrev SameLength (b b' : Bytes) : Prop :=
  b.length = b'.length

/-- Whether the slots for byte strings of two states hold the same lengths. -/
abbrev SameLengths (s s' : State) : Prop :=
  s.bytes.view List.length = s'.bytes.view List.length

namespace Step

theorem length?_slot (s : State) (name : String) :
    (Operand.slot name).length? s = (s.bytes.get? name).map List.length := by
  rw [Operand.length?, Operand.eval]
  cases s.bytes.get? name <;> rfl

/-- Arguments that are given have the same lengths by assumption, and slots because the states hold
the same lengths. -/
theorem length?_eq {operand operand' : Operand Bytes} (h : operand.Alike SameLength operand')
    (hs : SameLengths s s') : operand.length? s = operand'.length? s' := by
  cases h with
  | literal h => exact congrArg some h
  | slot name =>
    rw [length?_slot, length?_slot]
    exact Slots.map_get?_of_view hs name

/-- Steps with arguments of the same lengths find inputs of the same lengths. -/
theorem Alike.inputLengths_eq (hstep : step.Alike SameLength step') (hs : SameLengths s s') :
    step.inputLengths s = step'.inputLengths s' := by
  cases hstep with
  | sign _ _ h => simp only [inputLengths, inputs, List.map, length?_eq h hs]
  | verify _ _ h h' => simp only [inputLengths, inputs, List.map, length?_eq h hs, length?_eq h' hs]
  | encrypt _ h h' h'' | decrypt _ h h' h'' =>
    simp only [inputLengths, inputs, List.map, length?_eq h hs, length?_eq h' hs, length?_eq h'' hs]
  | parse h => simp only [inputLengths, inputs, List.map, length?_eq h hs]
  | build h h' => simp only [inputLengths, inputs, List.map, length?_eq h hs, length?_eq h' hs]
  | flip h => simp only [inputLengths, inputs, List.map, length?_eq h hs]
  | cut h => simp only [inputLengths, inputs, List.map, length?_eq h hs]
  | append h h' => simp only [inputLengths, inputs, List.map, length?_eq h hs, length?_eq h' hs]
  | _ => rfl

theorem length_flipAt (b : Bytes) (position : ℤ) (mask : UInt8) :
    (flipAt b position mask).length = b.length := by
  rw [flipAt]
  split
  · exact List.length_modify ..
  · rfl

/-- Slots hold the same lengths after byte strings of one length are stored. -/
theorem sameLengths_storeBytes (hs : SameLengths s s') {b b' : Bytes} (h : b.length = b'.length)
    (target : Option String) : SameLengths (s.storeBytes target b) (s'.storeBytes target b') := by
  cases target with
  | none => exact hs
  | some name => exact Slots.view_insert hs h name

/-- Where arguments have the same lengths, so do the results, unless a step reads or writes an ECDSA
signature. -/
theorem view_bytesAfter (hstep : step.Alike SameLength step') (hs : SameLengths s s')
    (hsignature : step.signatureLength? value = step'.signatureLength? value')
    (hcodec : step.codecLengths value = step'.codecLengths value')
    (hlog : step.Logs s value log) (hlog' : step'.Logs s' value' log') :
    (step.bytesAfter s value).view List.length
      = (step'.bytesAfter s' value').view List.length := by
  cases hstep with
  | sign _ _ _ target =>
    match hlog, hlog' with
    | .sign _, .sign _ => exact sameLengths_storeBytes hs (Option.some.inj hsignature) target
  | encrypt _ _ _ h target =>
    match hlog, hlog' with
    | .encrypt _ _ _ htext hlength, .encrypt _ _ _ htext' hlength' =>
      -- encrypting adds a tag of fixed length.
      have htexts := length_eq_of_length? (length?_eq h hs) htext htext'
      refine sameLengths_storeBytes hs ?_ target
      rw [hlength, hlength', htexts]
  | decrypt _ _ _ h target =>
    match hlog, hlog' with
    | .decrypt _ _ _ hinput hlength, .decrypt _ _ _ hinput' hlength' =>
      -- decrypting takes it off.
      have hinputs := length_eq_of_length? (length?_eq h hs) hinput hinput'
      refine sameLengths_storeBytes hs ?_ target
      exact Nat.add_right_cancel (hlength.symm.trans (hinputs.trans hlength'))
  | parse _ toR toS =>
    match hlog, hlog' with
    | .parse _ _ _ sig, .parse _ _ _ sig' =>
      -- the numbers of a signature have any lengths, so these are given.
      obtain ⟨hr, hrest⟩ := List.cons.inj hcodec
      obtain ⟨hs', -⟩ := List.cons.inj hrest
      cases toR with
      | none => cases toS <;> exact hs
      | some nameR =>
        cases toS with
        | none => exact hs
        | some nameS =>
          exact sameLengths_storeBytes (sameLengths_storeBytes hs hr (some nameR)) hs' (some nameS)
  | build _ _ target =>
    match hlog, hlog' with
    | .build _ _ _, .build _ _ _ | .build _ _ _, .buildOversized _ _ _
    | .buildOversized _ _ _, .build _ _ _ | .buildOversized _ _ _, .buildOversized _ _ _ =>
      exact sameLengths_storeBytes hs (List.cons.inj hcodec).1 target
  | flip h position mask mask' target =>
    match hlog, hlog' with
    | .flip hdata, .flip hdata' =>
      refine sameLengths_storeBytes hs ?_ target
      rw [length_flipAt, length_flipAt, length_eq_of_length? (length?_eq h hs) hdata hdata']
  | cut h length target =>
    match hlog, hlog' with
    | .cut hdata, .cut hdata' =>
      refine sameLengths_storeBytes hs ?_ target
      rw [List.length_take, List.length_take, length_eq_of_length? (length?_eq h hs) hdata hdata']
  | append h h' target =>
    match hlog, hlog' with
    | .append hdata htail, .append hdata' htail' =>
      refine sameLengths_storeBytes hs ?_ target
      rw [List.length_append, List.length_append,
        length_eq_of_length? (length?_eq h hs) hdata hdata',
        length_eq_of_length? (length?_eq h' hs) htail htail']
  | _ => cases hlog <;> cases hlog' <;> exact hs

/-- What a step answers and the lengths of its arguments decide the lengths of what is stored. -/
theorem Alike.sameLengths_run (hstep : step.Alike SameLength step') (hs : SameLengths s s')
    (hdisclosure : step.disclosure draw s = step'.disclosure draw' s')
    (hcodec : (step.run draw s).answer.toOption.map step.codecLengths
      = (step'.run draw' s').answer.toOption.map step'.codecLengths) :
    SameLengths (step.run draw s).state (step'.run draw' s').state := by
  have hsignature := congrArg Disclosure.signatureLength? hdisclosure
  simp only [disclosure] at hsignature
  cases hanswer : (step.run draw s).answer with
  | error failure =>
    cases hanswer' : (step'.run draw' s').answer with
    | error failure' =>
      -- a failure stores nothing.
      rw [((step.accounts_run draw s).failure failure hanswer).2,
        ((step'.accounts_run draw' s').failure failure' hanswer').2]
      exact hs
    | ok value' =>
      rw [hanswer, hanswer'] at hcodec
      cases hcodec
  | ok value =>
    cases hanswer' : (step'.run draw' s').answer with
    | error failure' =>
      rw [hanswer, hanswer'] at hcodec
      cases hcodec
    | ok value' =>
      rw [hanswer, hanswer'] at hcodec hsignature
      obtain ⟨log, hlog, -⟩ := (effect_run hanswer).log
      obtain ⟨log', hlog', -⟩ := (effect_run hanswer').log
      -- what a success stores depends on the step and its answer alone.
      rw [SameLengths, (effect_run hanswer).bytes, (effect_run hanswer').bytes]
      exact view_bytesAfter hstep hs hsignature (Option.some.inj hcodec) hlog hlog'

end Step

/-! ### Two sessions -/

/-- What is read off each step of a session, with the state before it. -/
def perStep {α : Type} (f : Draw → State → Step → α) (draws : ℕ → Draw) (steps : List Step) :
    List α :=
  steps.mapIdx fun k step => f (draws k) (stateAfter draws steps k) step

/-- What is said in the open about the steps of a session. -/
def disclosures : (ℕ → Draw) → List Step → List Disclosure :=
  perStep Step.disclosure

/-- How long the byte strings are that go into the steps of a session. -/
def inputLengths : (ℕ → Draw) → List Step → List (List (Option ℕ)) :=
  perStep fun _ s step => step.inputLengths s

/-- How long the byte strings are that a session reads from ECDSA signatures or writes as one. -/
def codecLengths : (ℕ → Draw) → List Step → List (Option (List ℕ)) :=
  perStep fun draw s step => (step.run draw s).answer.toOption.map step.codecLengths

/-- Whether the steps of a session that succeed were to write signatures that are too long for
it. -/
def oversized : (ℕ → Draw) → List Step → List (Option Bool) :=
  perStep fun draw s step => (step.run draw s).answer.toOption.map step.isOversized

/-- The descriptions that the steps of a session answer. -/
def descriptions (draws : ℕ → Draw) (steps : List Step) : List (Option Key.Description) :=
  (run draws steps).map fun outcome => outcome.answer.toOption.bind Value.description?

/-- What an observer sees of two sessions is the same: the events of each step and of the end, and
the descriptions. -/
structure SameView (draws : ℕ → Draw) (steps : List Step) (draws' : ℕ → Draw)
    (steps' : List Step) : Prop where
  events : eventParts draws steps = eventParts draws' steps'
  descriptions : descriptions draws steps = descriptions draws' steps'

variable {k : ℕ}

/-- Related lists are related at every place. -/
theorem exists_getElem?_of_forall₂ {α β : Type} {R : α → β → Prop} {l : List α} {l' : List β}
    (h : List.Forall₂ R l l') {a : α} (ha : l[k]? = some a) : ∃ b, l'[k]? = some b ∧ R a b := by
  obtain ⟨hk, rfl⟩ := List.getElem?_eq_some_iff.1 ha
  have hk' : k < l'.length := h.length_eq ▸ hk
  exact ⟨l'[k], List.getElem?_eq_getElem hk', (List.forall₂_iff_get.1 h).2 k hk hk'⟩

/-- What is read off a step is found at its place. -/
theorem getElem?_perStep {α : Type} (f : Draw → State → Step → α) (draws : ℕ → Draw)
    (steps : List Step) (k : ℕ) :
    (perStep f draws steps)[k]? = steps[k]?.map (f (draws k) (stateAfter draws steps k)) :=
  List.getElem?_mapIdx

/-- What is the same of two sessions is the same of their steps at each place. -/
theorem perStep_eq {α : Type} {f : Draw → State → Step → α}
    (h : perStep f draws steps = perStep f draws' steps') (hstep : steps[k]? = some step)
    (hstep' : steps'[k]? = some step') :
    f (draws k) (stateAfter draws steps k) step
      = f (draws' k) (stateAfter draws' steps' k) step' := by
  have hk := congrArg (·[k]?) h
  simp only [getElem?_perStep, hstep, hstep', Option.map_some] at hk
  exact Option.some.inj hk

/-- What is read off the steps of two sessions is the same if it is for steps that look alike. -/
theorem perStep_congr {α : Type} {f : Draw → State → Step → α}
    (hsteps : List.Forall₂ (Step.Alike r) steps steps')
    (h : ∀ k (step step' : Step), steps[k]? = some step → steps'[k]? = some step' →
      step.Alike r step' → f (draws k) (stateAfter draws steps k) step
        = f (draws' k) (stateAfter draws' steps' k) step') :
    perStep f draws steps = perStep f draws' steps' := by
  refine List.ext_getElem? fun k => ?_
  rw [getElem?_perStep, getElem?_perStep]
  cases hstep : steps[k]? with
  | some step =>
    obtain ⟨step', hstep', halike⟩ := exists_getElem?_of_forall₂ hsteps hstep
    rw [hstep']
    exact congrArg some (h k step step' hstep hstep' halike)
  | none =>
    -- behind the end of one session there is nothing in the other either.
    have hk : steps'.length ≤ k := hsteps.length_eq ▸ List.getElem?_eq_none_iff.1 hstep
    rw [List.getElem?_eq_none hk]
    rfl

/-- What holds of two sessions at the start, and is preserved by steps that look alike, holds of
them throughout. -/
theorem stateAfter_induction₂ {Q : State → State → Prop}
    (hsteps : List.Forall₂ (Step.Alike r) steps steps') (hzero : Q {} {})
    (hsucc : ∀ k step step', steps[k]? = some step → steps'[k]? = some step' →
      step.Alike r step' → Q (stateAfter draws steps k) (stateAfter draws' steps' k) →
      Q (step.run (draws k) (stateAfter draws steps k)).state
        (step'.run (draws' k) (stateAfter draws' steps' k)).state) :
    ∀ k ≤ steps.length, Q (stateAfter draws steps k) (stateAfter draws' steps' k) := by
  refine stateAfter_induction (Q := fun k s => Q s (stateAfter draws' steps' k)) hzero
    fun k step hstep ih => ?_
  obtain ⟨step', hstep', halike⟩ := exists_getElem?_of_forall₂ hsteps hstep
  rw [stateAfter_succ hstep']
  exact hsucc k step step' hstep hstep' halike ih

/-- The states of two such sessions look alike at every moment. -/
theorem alike_stateAfter (hsteps : List.Forall₂ (Step.Alike r) steps steps')
    (hdisclosed : disclosures draws steps = disclosures draws' steps')
    (hlengths : inputLengths draws steps = inputLengths draws' steps')
    (hoversized : oversized draws steps = oversized draws' steps') :
    ∀ k ≤ steps.length, (stateAfter draws steps k).Alike (stateAfter draws' steps' k) :=
  stateAfter_induction₂ hsteps ⟨rfl, rfl⟩ fun _ _ _ hstep hstep' halike hs =>
    (halike.run hs (perStep_eq hdisclosed hstep hstep') (perStep_eq hlengths hstep hstep')
      (perStep_eq hoversized hstep hstep')).1

/-- What is read off an outcome is read off its step and the state before it. -/
theorem map_run {α : Type} (f : Outcome → α) (draws : ℕ → Draw) (steps : List Step) :
    (run draws steps).map f = perStep (fun draw s step => f (step.run draw s)) draws steps := by
  refine List.ext_getElem? fun k => ?_
  rw [List.getElem?_map, getElem?_perStep]
  cases hstep : steps[k]? with
  | some step => rw [getElem?_run hstep, Option.map_some, Option.map_some]
  | none =>
    rw [List.getElem?_eq_none (length_run.trans_le (List.getElem?_eq_none_iff.1 hstep))]
    rfl

/-- Two sessions whose inputs have the same lengths throughout look the same. -/
theorem sameView_of_inputLengths (hsteps : List.Forall₂ (Step.Alike r) steps steps')
    (hdisclosed : disclosures draws steps = disclosures draws' steps')
    (hlengths : inputLengths draws steps = inputLengths draws' steps')
    (hoversized : oversized draws steps = oversized draws' steps') :
    SameView draws steps draws' steps' := by
  have hstates := alike_stateAfter hsteps hdisclosed hlengths hoversized
  have hrun : ∀ (k : ℕ) (step step' : Step), steps[k]? = some step → steps'[k]? = some step' →
      step.Alike r step' → _ := fun k _ _ hstep hstep' halike =>
    (halike.run (hstates k (List.getElem?_eq_some_iff.1 hstep).1.le)
      (perStep_eq hdisclosed hstep hstep') (perStep_eq hlengths hstep hstep')
      (perStep_eq hoversized hstep hstep')).2
  -- the events of the end come from the last state, those before from the steps.
  have hfinish := (hstates steps.length le_rfl).finish_eq
  rw [stateAfter_length, hsteps.length_eq, stateAfter_length] at hfinish
  constructor
  · rw [eventParts, eventParts, hfinish, map_run, map_run]
    refine congrArg (· ++ [_]) (perStep_congr hsteps fun k _ _ hstep hstep' halike => ?_)
    exact (hrun k _ _ hstep hstep' halike).1
  · rw [descriptions, descriptions, map_run, map_run]
    exact perStep_congr hsteps fun k _ _ hstep hstep' halike => (hrun k _ _ hstep hstep' halike).2

/-- If what is given in the steps has the same lengths, then so has all that goes into them
later. -/
theorem inputLengths_eq_of_codecLengths (hsteps : List.Forall₂ (Step.Alike SameLength) steps steps')
    (hdisclosed : disclosures draws steps = disclosures draws' steps')
    (hcodec : codecLengths draws steps = codecLengths draws' steps') :
    inputLengths draws steps = inputLengths draws' steps' := by
  -- the lengths in the slots are the invariant: each step finds the same ones and leaves the same
  -- ones.
  have hlengths : ∀ k ≤ steps.length,
      SameLengths (stateAfter draws steps k) (stateAfter draws' steps' k) :=
    stateAfter_induction₂ hsteps rfl fun _ _ _ hstep hstep' halike hs =>
      halike.sameLengths_run hs (perStep_eq hdisclosed hstep hstep')
        (perStep_eq hcodec hstep hstep')
  exact perStep_congr hsteps fun k _ _ hstep _ halike =>
    halike.inputLengths_eq (hlengths k (List.getElem?_eq_some_iff.1 hstep).1.le)

/-- Whether signatures were too long to be written follows from the lengths of what was written. -/
theorem oversized_eq_map (draws : ℕ → Draw) (steps : List Step) :
    oversized draws steps
      = (codecLengths draws steps).map (Option.map fun l => decide (l = [0])) := by
  refine List.ext_getElem? fun k => ?_
  simp only [oversized, codecLengths, List.getElem?_map, getElem?_perStep, Option.map_map,
    Function.comp_def, Step.isOversized_eq]

/-- Two sessions that differ in the contents of their arguments, their keys and their random values
look the same to an observer, if the same is said in the open about their steps, all byte strings
that go into steps have the same lengths, and the same signatures are too long to be written. For
that it is enough that the byte strings given in the steps have the same lengths, and those that are
read from or written as ECDSA signatures. -/
theorem sameView_of_disclosures (hdisclosed : disclosures draws steps = disclosures draws' steps') :
    (List.Forall₂ (Step.Alike fun _ _ => True) steps steps' →
      inputLengths draws steps = inputLengths draws' steps' →
      oversized draws steps = oversized draws' steps' →
      SameView draws steps draws' steps') ∧
    (List.Forall₂ (Step.Alike SameLength) steps steps' →
      codecLengths draws steps = codecLengths draws' steps' →
      SameView draws steps draws' steps') := by
  refine ⟨fun hsteps => sameView_of_inputLengths hsteps hdisclosed, fun hsteps hcodec => ?_⟩
  have hoversized : oversized draws steps = oversized draws' steps' := by
    rw [oversized_eq_map, oversized_eq_map, hcodec]
  exact sameView_of_inputLengths hsteps hdisclosed
    (inputLengths_eq_of_codecLengths hsteps hdisclosed hcodec) hoversized

/-- A session that makes a key, encrypts a text, keeps a part of the result and lets go of the
key. -/
def sampleSession (key text : Bytes) : List Step :=
  [.generate (some "a"),
    .encrypt .auto (.literal key) (.literal (List.replicate 12 0)) (.literal text) (some "c"),
    .cut (.slot "c") 2 (some "d"), .toPublic "a" none, .describe "a", .drop "a"]

/-- The random values of a session whose seeds repeat one byte. -/
def drawsOfByte (b : UInt8) (_ : ℕ) : Draw where
  seed := ⟨List.replicate 32 b, List.length_replicate⟩
  salt := ⟨List.replicate 32 b, List.length_replicate⟩
  mask := 1

theorem alike_sampleSession {key key' text text' : Bytes} (hkey : SameLength key key')
    (htext : SameLength text text') : List.Forall₂ (Step.Alike SameLength)
      (sampleSession key text) (sampleSession key' text') :=
  .cons (.generate _) <| .cons (.encrypt _ (.literal hkey) (.literal rfl) (.literal htext) _) <|
    .cons (.cut (.slot _) _ _) <| .cons (.toPublic _ _) <| .cons (.describe _) <|
    .cons (.drop _) .nil

/-- Two sessions with different seeds, keys and texts of one length look the same. -/
theorem sameView_sampleSession :
    SameView (drawsOfByte 1) (sampleSession (List.replicate 16 1) [1, 2, 3])
      (drawsOfByte 2) (sampleSession (List.replicate 16 2) [4, 5, 6]) := by
  have hdisclosed : disclosures (drawsOfByte 1) (sampleSession (List.replicate 16 1) [1, 2, 3])
      = disclosures (drawsOfByte 2) (sampleSession (List.replicate 16 2) [4, 5, 6]) := by
    decide +kernel
  have hcodec : codecLengths (drawsOfByte 1) (sampleSession (List.replicate 16 1) [1, 2, 3])
      = codecLengths (drawsOfByte 2) (sampleSession (List.replicate 16 2) [4, 5, 6]) := by
    decide +kernel
  exact (sameView_of_disclosures hdisclosed).2 (alike_sampleSession rfl rfl) hcodec

theorem alike_buildSession {r r' s s' : Bytes} (hr : SameLength r r') (hs : SameLength s s') :
    List.Forall₂ (Step.Alike SameLength) (buildSession r s) (buildSession r' s') :=
  .cons (.build (.literal hr) (.literal hs) _) .nil

/-- Nothing is said in the open about writing a signature but that it succeeds. -/
theorem disclosures_buildSession (draws : ℕ → Draw) (r s : Bytes) :
    disclosures draws (buildSession r s) = [⟨true, none, none, none⟩] :=
  rfl

theorem inputLengths_buildSession (draws : ℕ → Draw) (r s : Bytes) :
    inputLengths draws (buildSession r s) = [[some r.length, some s.length]] :=
  rfl

/-- An observer tells a signature that has an encoding from one that has none. -/
theorem not_sameView_of_hasEncoding {r r' s s' : Bytes} (h : EcdsaSignature.HasEncoding ⟨r, s⟩)
    (h' : ¬ EcdsaSignature.HasEncoding ⟨r', s'⟩) (draws draws' : ℕ → Draw) :
    ¬ SameView draws (buildSession r s) draws' (buildSession r' s') := by
  intro hview
  -- the session is one step and its end, and nothing is released.
  have hevents : [buildEvents ⟨r, s⟩, []] = [buildEvents ⟨r', s'⟩, []] := hview.events
  rw [buildEvents, buildEvents, EcdsaSignature.encode_of_hasEncoding h,
    EcdsaSignature.encode_of_not_hasEncoding h'] at hevents
  cases hevents

/-- Integers of the same lengths look different when they are written as signatures, if some of them
are zeros: what is told is that the others were too long. -/
theorem not_sameView_build :
    List.Forall₂ (Step.Alike SameLength)
      (buildSession (List.replicate halfLength 0) (List.replicate halfLength 0))
      (buildSession (List.replicate halfLength 1) (List.replicate halfLength 1)) ∧
    disclosures (drawsOfByte 1)
        (buildSession (List.replicate halfLength 0) (List.replicate halfLength 0))
      = disclosures (drawsOfByte 1)
        (buildSession (List.replicate halfLength 1) (List.replicate halfLength 1)) ∧
    inputLengths (drawsOfByte 1)
        (buildSession (List.replicate halfLength 0) (List.replicate halfLength 0))
      = inputLengths (drawsOfByte 1)
        (buildSession (List.replicate halfLength 1) (List.replicate halfLength 1)) ∧
    ¬ SameView (drawsOfByte 1)
      (buildSession (List.replicate halfLength 0) (List.replicate halfLength 0)) (drawsOfByte 1)
      (buildSession (List.replicate halfLength 1) (List.replicate halfLength 1)) := by
  -- the first signature is the shortest one, the second one has no encoding.
  have hlength : SameLength (List.replicate halfLength 0) (List.replicate halfLength 1) :=
    List.length_replicate.trans List.length_replicate.symm
  refine ⟨alike_buildSession hlength hlength, ?_, ?_, ?_⟩
  · rw [disclosures_buildSession, disclosures_buildSession]
  · rw [inputLengths_buildSession, inputLengths_buildSession, hlength]
  · exact not_sameView_of_hasEncoding (EcdsaSignature.hasEncoding_replicate_zero _ _)
      not_hasEncoding_halfLength _ _

end Keyring.Session
