import Keyring.Proofs.Key.PublicText
import Keyring.Proofs.Session.Ledger
/-!
# Where private keys come from

In every state of a session a slot holds a private key exactly if its handle descends through clones
alone from a step that made or imported a private key. No other step puts one into a slot: a public
half is public, and a handle keeps its key. The key of a handle is one that can come about, so what
holds of such keys holds of every handle in every session.

* `Step.Moves.givesPrivate_iff` says of a move when its handle is private, and
  `Step.holdsPrivate_run_iff` says it of each slot after a step.
* `descends_iff` is the induction over a session.
* `obtainable_of_get?` is another one: what a slot holds has come about by the library.
-/

namespace Keyring.Session

variable {draws : ℕ → Draw} {draw : Draw} {steps : List Step} {step : Step} {s : State} {k : ℕ}
  {name : String} {m : Move}

/-! ### Descent -/

/-- Whether a step is the `k`-th of a session and succeeds. -/
def Succeeds (draws : ℕ → Draw) (steps : List Step) (k : ℕ) (step : Step) : Prop :=
  steps[k]? = some step ∧ (step.run (draws k) (stateAfter draws steps k)).answer.isOk = true

/-- Whether the handle in a slot after `k` steps descends through clones alone from a step that made
or imported a private key. -/
inductive Descends (draws : ℕ → Draw) (steps : List Step) : ℕ → String → Prop
  | generate {k : ℕ} {name : String} (h : Succeeds draws steps k (.generate (some name))) :
    Descends draws steps (k + 1) name
  | importPrivate {k : ℕ} {pem : Operand String} {name : String}
    (h : Succeeds draws steps k (.importPrivate pem (some name))) :
    Descends draws steps (k + 1) name
  | clone {k : ℕ} {key name : String} (h : Succeeds draws steps k (.clone key (some name)))
    (hsource : Descends draws steps k key) : Descends draws steps (k + 1) name
  | keep {k : ℕ} {step : Step} {name : String} (hstep : steps[k]? = some step)
    (h : ¬(Succeeds draws steps k step ∧ step.keyTarget? = some name))
    (hbefore : Descends draws steps k name) : Descends draws steps (k + 1) name

/-- Whether a step that succeeds puts a private key into its target, where `source` says which slots
hold one. -/
def Step.GivesPrivate (source : String → Prop) : Step → Prop
  | .generate _ | .importPrivate .. => True
  | .clone key _ => source key
  | _ => False

/-- Descent after a step, by what the step does to the slot. -/
theorem descends_succ_iff (hstep : steps[k]? = some step) :
    Descends draws steps (k + 1) name ↔
      if (step.run (draws k) (stateAfter draws steps k)).answer.isOk = true
        ∧ step.keyTarget? = some name
      then step.GivesPrivate (Descends draws steps k) else Descends draws steps k name := by
  -- a place of the session has one step, so each way to descend is about this one.
  have hsame : ∀ {other}, Succeeds draws steps k other → step = other := fun h =>
    Option.some.inj (hstep.symm.trans h.1)
  constructor
  · rintro (h | h | ⟨h, hsource⟩ | ⟨hother, h, hbefore⟩)
    · obtain rfl := hsame h
      rw [if_pos ⟨h.2, rfl⟩]
      trivial
    · obtain rfl := hsame h
      rw [if_pos ⟨h.2, rfl⟩]
      trivial
    · obtain rfl := hsame h
      rw [if_pos ⟨h.2, rfl⟩]
      exact hsource
    · obtain rfl := Option.some.inj (hstep.symm.trans hother)
      rwa [if_neg fun hok => h ⟨⟨hstep, hok.1⟩, hok.2⟩]
  · split
    · next h =>
      -- the step wrote the slot: only three kinds of step give a private key.
      obtain ⟨hok, htarget⟩ := h
      intro hgives
      cases step with
      | generate target =>
        obtain rfl : target = some name := htarget
        exact .generate ⟨hstep, hok⟩
      | importPrivate pem target =>
        obtain rfl : target = some name := htarget
        exact .importPrivate ⟨hstep, hok⟩
      | clone key target =>
        obtain rfl : target = some name := htarget
        exact .clone ⟨hstep, hok⟩ hgives
      | _ => exact hgives.elim
    · next h => exact .keep hstep fun hok => h ⟨hok.1.2, hok.2⟩

/-! ### What a step does to private keys -/

/-- Whether a slot holds a private key. -/
def State.HoldsPrivate (s : State) (name : String) : Prop :=
  ∃ h, s.keys.get? name = some h ∧ h.describe.isPrivate = true

/-- What is imported as a private key is private. -/
theorem isPrivate_of_importPrivate {text : String} {key : Key}
    (h : Key.importPrivate text = .ok key) : key.isPrivate = true := by
  obtain ⟨k, rfl⟩ := Key.exists_eq_ofPrivate_of_importPrivate h
  rfl

/-- What is imported as a public key is public. -/
theorem isPrivate_of_importPublic {text : String} {key : Key}
    (h : Key.importPublic text = .ok key) : key.isPrivate = false := by
  obtain ⟨der, k, -, -, rfl⟩ := Key.importPublic_eq_ok_iff.1 h
  rfl

namespace Step

/-- What a move leaves in its target is a private key exactly if its step gives one. -/
theorem Moves.givesPrivate_iff (h : step.Moves draw s m) :
    (∃ g, m.content? s = some g ∧ g.describe.isPrivate = true) ↔
      step.GivesPrivate s.HoldsPrivate := by
  -- a clone is the only move that gives a private key on, and two moves make one.
  cases h with
  | generate hkey =>
    obtain rfl := Key.eq_ofPrivate_of_generate hkey
    exact iff_of_true ⟨_, rfl, rfl⟩ trivial
  | importPrivate htext hkey =>
    exact iff_of_true ⟨_, rfl, isPrivate_of_importPrivate hkey⟩ trivial
  | importPublic htext hkey =>
    refine iff_of_false ?_ id
    rintro ⟨g, hg, hprivate⟩
    obtain rfl := Option.some.inj hg
    exact absurd ((isPrivate_of_importPublic hkey).symm.trans hprivate) Bool.false_ne_true
  | @clone key target g hget =>
    show (∃ g', some g = some g' ∧ _) ↔ ∃ g', s.keys.get? key = some g' ∧ _
    rw [hget]
  | publicHalf hget hprivate =>
    refine iff_of_false ?_ id
    rintro ⟨g, hg, hprivate⟩
    obtain rfl := Option.some.inj hg
    cases hprivate
  | publicKey hget hpublic =>
    refine iff_of_false ?_ id
    rintro ⟨g, hg, hprivate⟩
    obtain rfl := Option.some.inj hg
    exact absurd (hpublic.symm.trans hprivate) Bool.false_ne_true
  | drop hget => exact iff_of_false (fun ⟨_, hg, _⟩ => nomatch hg) id

/-- A step without a move writes no slot for a key. -/
theorem keyTarget?_of_not_hasMove (h : step.hasMove = false) : step.keyTarget? = none := by
  cases step <;> first | rfl | cases h

/-- Whether a slot holds a private key after a step, by what the step does to the slot. -/
theorem holdsPrivate_run_iff :
    (step.run draw s).state.HoldsPrivate name ↔
      if (step.run draw s).answer.isOk = true ∧ step.keyTarget? = some name
      then step.GivesPrivate s.HoldsPrivate else s.HoldsPrivate name := by
  cases hmove : step.move? draw s with
  | none =>
    -- without a move the slots stay, and a success without one has no target.
    have hkeys := (run_of_move?_eq_none hmove).1
    have hnot : ¬((step.run draw s).answer.isOk = true ∧ step.keyTarget? = some name) := by
      rintro ⟨hok, htarget⟩
      cases hhas : step.hasMove with
      | true =>
        obtain ⟨m, hm⟩ := (isOk_run_iff hhas).1 hok
        rw [hmove] at hm
        cases hm
      | false =>
        rw [keyTarget?_of_not_hasMove hhas] at htarget
        cases htarget
    rw [if_neg hnot, State.HoldsPrivate, hkeys, State.HoldsPrivate]
  | some m =>
    -- with a move one slot changes, the target, and what it holds then is what the move left there.
    have hmoves := moves_of_move? hmove
    have hok := (isOk_run_iff hmoves.hasMove).2 ⟨m, hmove⟩
    rw [State.HoldsPrivate, (run_of_move? hmove).2.1, Move.get?_apply, hmoves.target?_eq]
    by_cases htarget : step.keyTarget? = some name
    · rw [if_pos htarget, if_pos ⟨hok, htarget⟩]
      exact hmoves.givesPrivate_iff
    · rw [if_neg htarget, if_neg fun h => htarget h.2]
      rfl

end Step

/-! ### Sessions -/

/-- A slot holds a private key exactly if what it holds descends from one. -/
theorem descends_iff : ∀ k ≤ steps.length, ∀ name,
    Descends draws steps k name ↔ (stateAfter draws steps k).HoldsPrivate name := by
  refine stateAfter_induction (Q := fun k s => ∀ name,
    Descends draws steps k name ↔ s.HoldsPrivate name) (fun name => ?_)
    fun k step hstep ih name => ?_
  · exact iff_of_false nofun nofun
  -- both sides change by the same rule at each step, so they agree throughout.
  · have hsources : Descends draws steps k = (stateAfter draws steps k).HoldsPrivate :=
      funext fun name => propext (ih name)
    rw [descends_succ_iff hstep, Step.holdsPrivate_run_iff, hsources]

/-- A step makes a key that can come about if those in the slots have. -/
theorem Step.Moves.obtainable {key : Key} (h : step.Moves draw s m)
    (hs : ∀ name h, s.keys.get? name = some h → Key.Obtainable h.key) (hmade : m.made? = some key) :
    Key.Obtainable key := by
  cases h with
  | generate hkey =>
    obtain rfl := Option.some.inj hmade
    exact .generate hkey
  | importPrivate htext hkey =>
    obtain rfl := Option.some.inj hmade
    exact .importPrivate hkey
  | importPublic htext hkey =>
    obtain rfl := Option.some.inj hmade
    exact .importPublic hkey
  | publicHalf hget hprivate =>
    obtain rfl := Option.some.inj hmade
    exact .toPublic (hs _ _ hget)
  | _ => cases hmade

/-- A slot holds after a step what some slot held before it, or a key that the step made. -/
theorem Step.get?_run_cases {h : Handle} (hget : (step.run draw s).state.keys.get? name = some h) :
    (∃ other, s.keys.get? other = some h) ∨
      ∃ m key, step.Moves draw s m ∧ m.made? = some key ∧ h = .ofKey s.made key := by
  cases hmove : step.move? draw s with
  | none => exact .inl ⟨name, (run_of_move?_eq_none hmove).1 ▸ hget⟩
  | some m =>
    have hmoves := moves_of_move? hmove
    rw [(run_of_move? hmove).2.1] at hget
    exact (Move.get?_apply_cases hmoves.isFrom hget).imp_right fun ⟨key, hnew⟩ =>
      ⟨m, key, hmoves, hnew⟩

/-- A key in a slot is one that can come about. -/
theorem obtainable_of_get? : ∀ k ≤ steps.length, ∀ name h,
    (stateAfter draws steps k).keys.get? name = some h → Key.Obtainable h.key := by
  refine stateAfter_induction (Q := fun _ s => ∀ name h, s.keys.get? name = some h →
    Key.Obtainable h.key) nofun fun k step _ ih name h hget => ?_
  obtain ⟨other, hother⟩ | ⟨m, key, hmoves, hmade, rfl⟩ := Step.get?_run_cases hget
  · exact ih other h hother
  · exact hmoves.obtainable ih hmade

/-- What a step with a move leaves in its target. -/
theorem Step.get?_run_of_move? (h : step.move? draw s = some m) (htarget : m.target? = some name) :
    (step.run draw s).state.keys.get? name = m.content? s := by
  rw [(run_of_move? h).2.1, Move.get?_apply, if_pos htarget]

/-- A clone puts the handle itself into its target. -/
theorem Step.get?_run_clone {key : String} {h : Handle} (hget : s.keys.get? key = some h) :
    ((clone key (some name)).run draw s).state.keys.get? name = some h :=
  get?_run_of_move? (m := .share h (some name)) (by rw [move?, hget]; rfl) rfl

/-- A public half is put into its target, be it a new key or the handle itself. -/
theorem Step.get?_run_toPublic {key : String} {h : Handle} (hget : s.keys.get? key = some h) :
    ∃ g, ((toPublic key (some name)).run draw s).state.keys.get? name = some g ∧
      g.key = h.key.toPublic := by
  cases hprivate : h.key.isPrivate with
  | true =>
    refine ⟨_, get?_run_of_move? (m := .make h.key.toPublic (some name)) ?_ rfl, rfl⟩
    rw [move?, hget, Option.map_some, if_pos hprivate]
  | false =>
    refine ⟨h, get?_run_of_move? (m := .share h (some name)) ?_ rfl,
      (Key.toPublic_of_not_isPrivate hprivate).symm⟩
    rw [move?, hget, Option.map_some, if_neg (by rw [hprivate]; exact Bool.false_ne_true)]

/-- Whether a step makes or imports a private key. -/
def Step.BringsPrivate : Step → Prop
  | .generate _ | .importPrivate .. => True
  | _ => False

/-- A step that makes a private key has generated or imported it. -/
theorem Step.Moves.bringsPrivate {key : Key} (h : step.Moves draw s m) (hmade : m.made? = some key)
    (hprivate : key.isPrivate = true) : step.BringsPrivate := by
  cases h with
  | generate | importPrivate => trivial
  | importPublic htext hkey =>
    obtain rfl := Option.some.inj hmade
    exact absurd ((isPrivate_of_importPublic hkey).symm.trans hprivate) Bool.false_ne_true
  | publicHalf hget _ =>
    obtain rfl := Option.some.inj hmade
    cases hprivate
  | _ => cases hmade

/-! ### Tags -/

/-- Whether the tag of a handle is the algorithm of its key, so that the handle is described and
checked as the key is, and signs and verifies as the key does. -/
structure Handle.IsFaithful (h : Handle) : Prop where
  algorithm : h.algorithm = h.key.algorithm
  describe : h.describe = h.key.describe
  require : ∀ expected needsPrivate,
    h.require expected needsPrivate = h.key.require expected needsPrivate
  sign : ∀ scheme draw message, h.sign scheme draw message = h.key.sign scheme draw message
  verify : ∀ scheme message signature,
    h.verify scheme message signature = h.key.verify scheme message signature

/-- The tag is all in which a handle could differ from its key. -/
theorem Handle.isFaithful {h : Handle} (htag : h.algorithm = h.key.algorithm) : h.IsFaithful := by
  -- the check reads the tag and nothing after it does.
  have hrequire : ∀ expected needsPrivate,
      h.require expected needsPrivate = h.key.require expected needsPrivate := by
    intro expected needsPrivate
    rw [require, Key.require, htag]
  refine ⟨htag, describe_eq htag, hrequire, ?_, ?_⟩
  · intro scheme draw message
    rw [sign, Key.sign, hrequire]
  · intro scheme message signature
    rw [verify, Key.verify, hrequire]

/-! ### The handles of a session -/

/-- What is promised of the handles of a session. -/
structure Sound (draws : ℕ → Draw) (steps : List Step) : Prop where
  /-- A key in a slot came about by generating, importing or taking the public half. -/
  obtainable : ∀ k ≤ steps.length, ∀ name h,
    (stateAfter draws steps k).keys.get? name = some h → Key.Obtainable h.key
  /-- The tag of its handle is its algorithm, so the handle is described and answers as the key. -/
  faithful : ∀ k ≤ steps.length, ∀ name h,
    (stateAfter draws steps k).keys.get? name = some h → h.IsFaithful
  /-- Its description decides what can be done with it. -/
  respects : ∀ k ≤ steps.length, ∀ name h,
    (stateAfter draws steps k).keys.get? name = some h → h.key.Respects
  /-- It is private exactly if its handle descends from a private key through clones alone. -/
  descends : ∀ k ≤ steps.length, ∀ name h, (stateAfter draws steps k).keys.get? name = some h →
    (h.describe.isPrivate = true ↔ Descends draws steps k name)
  /-- A clone is the handle that it was made of. -/
  clone : ∀ k key name h, steps[k]? = some (.clone key (some name)) →
    (stateAfter draws steps k).keys.get? key = some h →
    (stateAfter draws steps (k + 1)).keys.get? name = some h
  /-- A public half is that of the key that it was asked of. -/
  toPublic : ∀ k key name h, steps[k]? = some (.toPublic key (some name)) →
    (stateAfter draws steps k).keys.get? key = some h →
    ∃ g, (stateAfter draws steps (k + 1)).keys.get? name = some g ∧ g.key = h.key.toPublic
  /-- Handles of one key have it at all times. -/
  fixed : ∀ k ≤ steps.length, ∀ k' ≤ steps.length, ∀ name name' h h',
    (stateAfter draws steps k).keys.get? name = some h →
    (stateAfter draws steps k').keys.get? name' = some h' → h.id = h'.id → h.key = h'.key
  /-- A step leaves no private key that was not there before unless it made or imported it. -/
  brings : ∀ k (step : Step), steps[k]? = some step → ∀ name h,
    (stateAfter draws steps (k + 1)).keys.get? name = some h → h.describe.isPrivate = true →
    (∃ other, (stateAfter draws steps k).keys.get? other = some h) ∨ step.BringsPrivate

/-- In every state of every session the handles are what their descriptions say. -/
theorem sound_session (draws : ℕ → Draw) (steps : List Step) : Sound draws steps where
  obtainable := obtainable_of_get?
  faithful k hk name h hget := Handle.isFaithful (agrees_stateAfter k hk name h hget).2.2
  respects _ _ _ h _ := h.key.respects
  descends k hk name h hget := by
    rw [descends_iff k hk name]
    constructor
    · exact fun hprivate => ⟨h, hget, hprivate⟩
    · rintro ⟨g, hg, hprivate⟩
      obtain rfl := Option.some.inj (hget.symm.trans hg)
      exact hprivate
  clone k key name h hstep hget := by
    rw [stateAfter_succ hstep]
    exact Step.get?_run_clone hget
  toPublic k key name h hstep hget := by
    rw [stateAfter_succ hstep]
    exact Step.get?_run_toPublic hget
  fixed k hk k' hk' name name' h h' hget hget' hid := by
    -- both keys are the one that the table of the session has under their number.
    have hkey := (agrees_stateAfter k hk name h hget).2.1
    have hkey' := (agrees_stateAfter k' hk' name' h' hget').2.1
    exact Option.some.inj (hkey.symm.trans (hid ▸ hkey'))
  brings k step hstep name h hget hprivate := by
    rw [stateAfter_succ hstep] at hget
    obtain hold | ⟨m, key, hmoves, hmade, rfl⟩ := Step.get?_run_cases hget
    · exact .inl hold
    · exact .inr (hmoves.bringsPrivate hmade hprivate)

end Keyring.Session
