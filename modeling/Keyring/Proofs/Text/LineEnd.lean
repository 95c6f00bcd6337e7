import Keyring.Text.Pem
import Mathlib
/-!
# Line ends

Reading takes any line end off the front of a text and off its end. It is unambiguous as soon as the
text on the other side neither starts nor ends in one, so a text may change its line ends one by one
without a reader noticing.

* `EndsPlain` says of a text that its end is no part of a line end, which makes taking one off
  unambiguous.
* `Relined` relates a text to one with other line ends, character by character, and
  `Relined.exists_line` takes off a whole line.
-/

namespace Keyring.Text.Pem

/-- The ways to end a line. -/
def lineEnds : List (List Char) := [['\n'], ['\r'], ['\r', '\n']]

/-- A line end has no dash, so no mark reaches into it. -/
theorem dash_notMem_of_mem_lineEnds {e : List Char} (h : e ∈ lineEnds) : '-' ∉ e := by
  revert e
  decide

/-- A line end is not empty. -/
theorem ne_nil_of_mem_lineEnds {e : List Char} (h : e ∈ lineEnds) : e ≠ [] := by
  revert e
  decide

/-- A line end has two characters at most. -/
theorem length_le_two_of_mem_lineEnds {e : List Char} (h : e ∈ lineEnds) : e.length ≤ 2 := by
  revert e
  decide

/-! ### At the front -/

/-- What is dropped in front of a text is a line end. -/
theorem exists_dropLineEnd? {text rest : List Char} (h : dropLineEnd? text = some rest) :
    ∃ e ∈ lineEnds, text = e ++ rest := by
  unfold dropLineEnd? at h
  split at h
  · exact ⟨['\r', '\n'], by simp [lineEnds], by rw [← Option.some.inj h]; rfl⟩
  · exact ⟨['\r'], by simp [lineEnds], by rw [← Option.some.inj h]; rfl⟩
  · exact ⟨['\n'], by simp [lineEnds], by rw [← Option.some.inj h]; rfl⟩
  · cases h

/-- A line end is taken off as a whole if no line feed follows, which would belong to a carriage
return in front of it. -/
theorem dropLineEnd?_append {e text : List Char} (he : e ∈ lineEnds)
    (h : text.head? ≠ some '\n') : dropLineEnd? (e ++ text) = some text := by
  simp only [lineEnds, List.mem_cons, List.not_mem_nil, or_false] at he
  rcases he with rfl | rfl | rfl
  · rfl
  · cases text with
    | nil => rfl
    | cons c text =>
      have hc : c ≠ '\n' := fun hc => h (congrArg some hc)
      simp only [List.cons_append, List.nil_append]
      unfold dropLineEnd?
      split <;> simp_all
  · rfl

/-! ### At the end -/

/-- A text whose last character is no line end. -/
def EndsPlain (text : List Char) : Prop :=
  ∃ front c, text = front ++ [c] ∧ c ≠ '\n' ∧ c ≠ '\r'

/-- How a text ends does not depend on what stands in front of it. -/
theorem EndsPlain.append {text : List Char} (h : EndsPlain text) (front : List Char) :
    EndsPlain (front ++ text) := by
  obtain ⟨init, c, rfl, hc⟩ := h
  exact ⟨front ++ init, c, by rw [List.append_assoc], hc⟩

/-- A text that ends plainly has a last character. -/
theorem EndsPlain.ne_nil {text : List Char} (h : EndsPlain text) : text ≠ [] := by
  obtain ⟨front, c, rfl, -⟩ := h
  exact List.concat_ne_nil c front

/-- A line ends plainly, if it is not empty. -/
theorem endsPlain_of_forall {text : List Char} (hne : text ≠ [])
    (h : ∀ c ∈ text, c ≠ '\n' ∧ c ≠ '\r') : EndsPlain text :=
  ⟨text.dropLast, text.getLast hne, (List.dropLast_append_getLast hne).symm,
    h _ (List.getLast_mem hne)⟩

/-- A mark ends plainly. -/
theorem endsPlain_closeMark : EndsPlain closeMark :=
  ⟨['-', '-', '-', '-'], '-', rfl, by decide, by decide⟩

/-- What is dropped behind a text is a line end. -/
theorem exists_dropFinalLineEnd? {text rest : List Char}
    (h : dropFinalLineEnd? text = some rest) : ∃ e ∈ lineEnds, text = rest ++ e := by
  rw [← List.reverse_reverse text]
  unfold dropFinalLineEnd? at h
  split at h
  · next hrev => exact ⟨['\r', '\n'], by simp [lineEnds], by simp [hrev, ← Option.some.inj h]⟩
  · next hrev => exact ⟨['\r'], by simp [lineEnds], by simp [hrev, ← Option.some.inj h]⟩
  · next hrev => exact ⟨['\n'], by simp [lineEnds], by simp [hrev, ← Option.some.inj h]⟩
  · cases h

/-- Nothing is dropped behind a text that ends plainly. -/
theorem dropFinalLineEnd?_of_endsPlain {text : List Char} (h : EndsPlain text) :
    dropFinalLineEnd? text = none := by
  obtain ⟨front, c, rfl, hn, hr⟩ := h
  rw [dropFinalLineEnd?, List.reverse_concat]
  split <;> simp_all

/-- The line end behind a text that ends plainly is dropped as a whole. -/
theorem dropFinalLineEnd?_append {text e : List Char} (h : EndsPlain text) (he : e ∈ lineEnds) :
    dropFinalLineEnd? (text ++ e) = some text := by
  obtain ⟨front, c, rfl, hn, hr⟩ := h
  simp only [lineEnds, List.mem_cons, List.not_mem_nil, or_false] at he
  unfold dropFinalLineEnd?
  rcases he with rfl | rfl | rfl
  · rw [List.reverse_concat, List.reverse_concat]
    split <;> simp_all
  · rw [List.reverse_concat, List.reverse_concat]
    split <;> simp_all
  · simp

/-- Of a text that does not end in a line end, one that follows is taken off, if there is one. -/
theorem getD_dropFinalLineEnd?_append {text e : List Char} (h : EndsPlain text)
    (he : e ∈ [] :: lineEnds) : (dropFinalLineEnd? (text ++ e)).getD (text ++ e) = text := by
  rcases List.mem_cons.1 he with rfl | he
  · rw [List.append_nil, dropFinalLineEnd?_of_endsPlain h, Option.getD_none]
  · rw [dropFinalLineEnd?_append h he, Option.getD_some]

/-! ### Texts with other line ends -/

/-- Whether a text is another one with a line end in the place of each line feed, whichever one each
time. -/
inductive Relined : List Char → List Char → Prop
  | nil : Relined [] []
  | keep {c : Char} {text text' : List Char} (hc : c ≠ '\n') (h : Relined text text') :
    Relined (c :: text) (c :: text')
  | lineEnd {e text text' : List Char} (he : e ∈ lineEnds) (h : Relined text text') :
    Relined ('\n' :: text) (e ++ text')

/-- Whether a text is another one with other line ends, of which the last one may be missing. -/
def IsRelined (text text' : List Char) : Prop :=
  ∃ front front', ∃ e ∈ [] :: lineEnds,
    text = front ++ ['\n'] ∧ text' = front' ++ e ∧ Relined front front'

/-- The text with a given line end in the place of each line feed. -/
def withLineEnd (e text : List Char) : List Char :=
  text.flatMap fun c => if c = '\n' then e else [c]

/-- To use one line end throughout is a change of line ends. -/
theorem relined_withLineEnd {e : List Char} (he : e ∈ lineEnds) (text : List Char) :
    Relined text (withLineEnd e text) := by
  induction text with
  | nil => exact .nil
  | cons c text ih =>
    rw [withLineEnd, List.flatMap_cons, ← withLineEnd]
    by_cases hc : c = '\n'
    · subst hc
      exact .lineEnd he ih
    · rw [if_neg hc]
      exact .keep hc ih

/-- Every line may end alike, and the last one without an end. -/
theorem isRelined_withLineEnd {e final : List Char} (he : e ∈ lineEnds)
    (hfinal : final ∈ [] :: lineEnds) (text : List Char) :
    IsRelined (text ++ ['\n']) (withLineEnd e text ++ final) :=
  ⟨text, _, final, hfinal, rfl, rfl, relined_withLineEnd he text⟩

/-- The line feed is the line end that texts are written with. -/
theorem withLineEnd_lineFeed (text : List Char) : withLineEnd ['\n'] text = text := by
  have hid : (fun c => if c = '\n' then ['\n'] else [c]) = fun c : Char => [c] := by
    funext c
    split <;> simp_all
  rw [withLineEnd, hid, List.flatMap_singleton']

/-- A text may keep its line ends. -/
theorem Relined.refl (text : List Char) : Relined text text := by
  have h := relined_withLineEnd (e := ['\n']) (by simp [lineEnds]) text
  rwa [withLineEnd_lineFeed] at h

/-- Nothing changes within a line. -/
theorem Relined.eq_self {text text' : List Char} (h : Relined text text') (hline : '\n' ∉ text) :
    text' = text := by
  induction h with
  | nil => rfl
  | keep _ _ ih => rw [ih fun hmem => hline (List.mem_cons_of_mem _ hmem)]
  | lineEnd _ _ _ => exact absurd List.mem_cons_self hline

/-- The first line stays as it is, with some line end behind it. -/
theorem Relined.exists_line {line rest text' : List Char} (h : Relined (line ++ '\n' :: rest) text')
    (hline : '\n' ∉ line) :
    ∃ e ∈ lineEnds, ∃ rest', text' = line ++ (e ++ rest') ∧ Relined rest rest' := by
  -- characters of the line are kept one by one, up to its end.
  induction line generalizing text' with
  | nil =>
    rw [List.nil_append] at h
    cases h with
    | keep hc _ => exact absurd rfl hc
    | lineEnd he h => exact ⟨_, he, _, rfl, h⟩
  | cons c line ih =>
    obtain ⟨hc, hline⟩ := List.ne_and_not_mem_of_not_mem_cons hline
    rw [List.cons_append] at h
    cases h with
    | keep _ h =>
      obtain ⟨e, he, rest', rfl, hrest⟩ := ih h hline
      exact ⟨e, he, rest', rfl, hrest⟩
    | lineEnd _ _ => exact absurd rfl hc

end Keyring.Text.Pem
