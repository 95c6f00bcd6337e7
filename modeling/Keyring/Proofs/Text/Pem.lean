import Keyring.Proofs.Text.Base64
import Keyring.Proofs.Text.LineEnd
/-!
# Reading armoured text that was written

A written document is read back with its label and its bytes, also with other line ends and behind
other text. The reading peels the text from both ends, so the proof follows it: the text in front,
the first line, the last line, and then the lines of digits, of which every one but the last is
full.
-/

namespace Keyring

/-! ### Runs -/

/-- What fits into one line is one line. -/
theorem chunks_of_le {α : Type} {k : Nat} {l : List α} (hl : l ≠ []) (h : l.length ≤ k) :
    chunks k l = [l] := by
  have hpos := List.length_pos_of_ne_nil hl
  have hcount : (l.length + k - 1) / k = 1 := Nat.div_eq_of_lt_le (by omega) (by omega)
  rw [chunks, hcount, runs, runs, List.take_of_length_le h]

/-- From a longer text the first line is cut off. -/
theorem chunks_of_lt {α : Type} {k : Nat} {l : List α} (hk : 0 < k) (h : k < l.length) :
    chunks k l = l.take k :: chunks k (l.drop k) := by
  have hcount : (l.length + k - 1) / k = (l.length - k + k - 1) / k + 1 := by
    rw [← Nat.add_div_right _ hk]
    congr 1
    omega
  rw [chunks, hcount, runs, chunks, List.length_drop]

namespace Text.Pem

/-! ### Lines of digits -/

/-- The lines that hold a row of digits, each with its line end. -/
def lines (digits : List Char) : List Char :=
  (chunks lineWidth digits).flatMap (· ++ ['\n'])

/-- The lines of digits are joined again, whichever line ends they have, once the last one is gone.
Every line but the last one is full, so the digits are taken off one line at a time. -/
theorem exists_joinLines? {digits rest text' : List Char} (hne : digits ≠ [])
    (h : ∀ c ∈ digits, c ≠ '\n' ∧ c ≠ '\r') (hrelined : Relined (lines digits ++ rest) text') :
    ∃ text, ∃ e ∈ lineEnds, ∃ rest', text' = text ++ (e ++ rest') ∧ Relined rest rest' ∧
      EndsPlain text ∧ text.head? ≠ some '\n' ∧
        ∀ n, text.length < n → joinLines? n text = some digits := by
  have hhead : digits.head? ≠ some '\n' := fun hc => (h _ (List.mem_of_head? hc)).1 rfl
  by_cases hlast : digits.length ≤ lineWidth
  · -- the last line: no line end is left, and nothing is behind it.
    have hlines : lines digits ++ rest = digits ++ '\n' :: rest := by
      simp [lines, chunks_of_le hne hlast]
    rw [hlines] at hrelined
    obtain ⟨e, he, rest', rfl, hrest⟩ := hrelined.exists_line fun hmem => (h _ hmem).1 rfl
    refine ⟨digits, e, he, rest', rfl, hrest, endsPlain_of_forall hne h, hhead, fun n hn => ?_⟩
    obtain ⟨n, rfl⟩ : ∃ m, n = m + 1 := ⟨n - 1, by omega⟩
    have hdrop : digits.drop lineWidth = [] := List.drop_of_length_le hlast
    simp [joinLines?, hdrop, dropFinalLineEnd?_of_endsPlain (endsPlain_of_forall hne h)]
  · have hlt : lineWidth < digits.length := Nat.lt_of_not_le hlast
    have hmore : digits.drop lineWidth ≠ [] := by
      rw [ne_eq, List.drop_eq_nil_iff]
      exact hlast
    -- a full line in front of the others, whose digits are joined by the induction hypothesis.
    have hlines : lines digits ++ rest
        = digits.take lineWidth ++ '\n' :: (lines (digits.drop lineWidth) ++ rest) := by
      simp [lines, chunks_of_lt (by decide) hlt]
    rw [hlines] at hrelined
    obtain ⟨e, he, others, rfl, hothers⟩ :=
      hrelined.exists_line fun hmem => (h _ (List.mem_of_mem_take hmem)).1 rfl
    obtain ⟨text, e', he', rest', rfl, hrest, hplain, hstart, hjoin⟩ :=
      exists_joinLines? hmore (fun c hc => h c (List.mem_of_mem_drop hc)) hothers
    -- a full line in front of the others, whose digits are joined by the induction hypothesis.
    have hwidth : (digits.take lineWidth).length = lineWidth := by
      rw [List.length_take, Nat.min_eq_left hlt.le]
    refine ⟨digits.take lineWidth ++ (e ++ text), e', he', rest', ?_, hrest, ?_, ?_, fun n hn => ?_⟩
    · simp only [List.append_assoc]
    · exact (hplain.append e).append (digits.take lineWidth)
    · rw [List.head?_append_of_ne_nil _ (by simp [hne, lineWidth]), List.head?_take]
      exact hhead
    · have hpos : 0 < lineWidth := by decide
      rw [List.length_append, List.length_append, hwidth] at hn
      obtain ⟨n, rfl⟩ : ∃ m, n = m + 1 := ⟨n - 1, by omega⟩
      have htake : (digits.take lineWidth ++ (e ++ text)).take lineWidth = digits.take lineWidth :=
        List.take_left' hwidth
      have hdrop : (digits.take lineWidth ++ (e ++ text)).drop lineWidth = e ++ text :=
        List.drop_left' hwidth
      have hbehind : (e ++ text).isEmpty = false := by
        rw [List.isEmpty_eq_false_iff]
        exact List.append_ne_nil_of_left_ne_nil (ne_nil_of_mem_lineEnds he) text
      simp [joinLines?, htake, hdrop, hbehind, dropLineEnd?_append he hstart, hjoin n (by omega)]
termination_by digits.length
decreasing_by
  rw [List.length_drop]
  have : 0 < lineWidth := by decide
  omega

/-! ### The text in front -/

theorem isPrefixOf?_beginMark (rest : List Char) :
    beginMark.isPrefixOf? (beginMark ++ rest) = some rest :=
  List.isPrefixOf?_eq_some_iff_append_eq.2 rfl

/-- Nothing stands in front of a document that starts at once. -/
theorem skipPreamble?_beginMark (rest : List Char) :
    skipPreamble? (beginMark ++ rest) = some rest := by
  rw [skipPreamble?, isPrefixOf?_beginMark]

/-- A text that may stand in front of a document: it ends in a line feed, unless it is empty, has no
null character in it, and nothing that looks like the start of a document. -/
structure IsPreamble (text : List Char) : Prop where
  eq_nil_or : text = [] ∨ ∃ front, text = front ++ ['\n']
  null_notMem : '\x00' ∉ text
  not_infix : ¬ beginMark <:+: text

/-- A marker does not reach over a character that it lacks. -/
theorem prefix_of_prefix_append_cons {mark front rest : List Char} {c : Char} (hc : c ∉ mark)
    (h : mark <+: front ++ c :: rest) : mark <+: front := by
  induction front generalizing mark with
  | nil =>
    cases mark with
    | nil => exact List.nil_prefix
    | cons d mark => exact absurd (List.cons_prefix_cons.1 h).1 (List.ne_of_not_mem_cons hc).symm
  | cons f front ih =>
    cases mark with
    | nil => exact List.nil_prefix
    | cons d mark =>
      obtain ⟨rfl, hrest⟩ := List.cons_prefix_cons.1 h
      exact List.cons_prefix_cons.2 ⟨rfl, ih (List.not_mem_of_not_mem_cons hc) hrest⟩

/-- A first line does not start in front of a line feed and go on behind it. -/
theorem isPrefixOf?_eq_none {front : List Char} (h : ¬ beginMark <:+: front) (rest : List Char) :
    beginMark.isPrefixOf? (front ++ '\n' :: rest) = none := by
  refine Option.eq_none_iff_forall_ne_some.2 fun behind hbehind => h ?_
  have hmark : beginMark <+: front ++ '\n' :: rest :=
    ⟨behind, List.isPrefixOf?_eq_some_iff_append_eq.1 hbehind⟩
  exact (prefix_of_prefix_append_cons (by decide) hmark).isInfix

/-- The marker is found behind the line feed, if it is nowhere before. -/
theorem afterLineFeed_append {front : List Char} (hnull : '\x00' ∉ front)
    (hmark : ¬ beginMark <:+: front) (rest : List Char) :
    skipPreamble?.afterLineFeed (front ++ '\n' :: (beginMark ++ rest)) = some rest := by
  induction front with
  | nil =>
    rw [List.nil_append, skipPreamble?.afterLineFeed, if_neg (by decide), if_pos rfl,
      isPrefixOf?_beginMark]
  | cons c front ih =>
    obtain ⟨hc, hnull⟩ := List.ne_and_not_mem_of_not_mem_cons hnull
    have hfront : ¬ beginMark <:+: front :=
      fun h => hmark (h.trans (List.suffix_cons c front).isInfix)
    -- within the text in front no marker starts, so the reader goes on.
    have hnone : (if c = '\n' then beginMark.isPrefixOf? (front ++ '\n' :: (beginMark ++ rest))
        else none) = none := by
      rw [isPrefixOf?_eq_none hfront, ite_self]
    rw [List.cons_append, skipPreamble?.afterLineFeed, if_neg hc.symm, hnone]
    exact ih hnull hfront

/-- A preamble is skipped. -/
theorem skipPreamble?_append {front : List Char} (h : IsPreamble front) (rest : List Char) :
    skipPreamble? (front ++ (beginMark ++ rest)) = some rest := by
  rcases h.eq_nil_or with rfl | ⟨line, rfl⟩
  · exact skipPreamble?_beginMark rest
  · have hnull : '\x00' ∉ line := fun hmem => h.null_notMem (List.mem_append_left _ hmem)
    have hmark : ¬ beginMark <:+: line :=
      fun hin => h.not_infix (hin.trans (List.prefix_append line ['\n']).isInfix)
    rw [List.append_assoc, List.singleton_append, skipPreamble?, isPrefixOf?_eq_none hmark]
    exact afterLineFeed_append hnull hmark rest

/-! ### Documents -/

/-- The name of a label is read as this label. -/
theorem readLabel?_name (label : Label) (rest : List Char) :
    readLabel? (label.name.toList ++ closeMark ++ rest) = some (label, rest) := by
  cases label <;> rfl

/-- The parts of a text that is written, in the order in which the reader takes them off. -/
theorem encode_eq (name : List Char) (body : Bytes) :
    encode name body = (beginMark ++ name ++ closeMark) ++ '\n' :: (lines (Base64.encode body)
      ++ (endMark ++ name ++ closeMark)) ++ ['\n'] := by
  simp only [encode, lines, List.append_assoc, List.cons_append, List.nil_append]

/-- A document without bytes is written without a line between its first and its last one, and no
such text is read. -/
theorem decode?_encode_nil (label : Label) : decode? (encode label.name.toList []) = none := by
  cases label <;> decide

/-- The first line is one line. -/
theorem lineFeed_notMem_firstLine (label : Label) :
    '\n' ∉ beginMark ++ label.name.toList ++ closeMark := by
  cases label <;> decide

/-- The last line is one line. -/
theorem lineFeed_notMem_lastLine (label : Label) :
    '\n' ∉ endMark ++ label.name.toList ++ closeMark := by
  cases label <;> decide

/-- What was written is read back, whatever the label and the bytes, with any line ends and behind
any text that may stand in front of a document. -/
theorem decode?_relined (label : Label) {body : Bytes} (hbody : body ≠ []) {front text' : List Char}
    (hfront : IsPreamble front) (h : IsRelined (encode label.name.toList body) text') :
    decode? (front ++ text') = some (label, body) := by
  obtain ⟨init, init', final, hfinal, hencode, rfl, hrelined⟩ := h
  rw [encode_eq, List.append_cancel_right_eq] at hencode
  subst hencode
  obtain ⟨first, hfirst, _, rfl, hlines⟩ :=
    hrelined.exists_line (lineFeed_notMem_firstLine label)
  obtain ⟨text, e, he, _, rfl, hrest, hplain, hstart, hjoin⟩ :=
    exists_joinLines? (Base64.encode_ne_nil hbody) (fun c hc => Base64.ne_of_mem_encode hc) hlines
  obtain rfl := hrest.eq_self (lineFeed_notMem_lastLine label)
  -- the text with its parts put together in the order in which the reader takes them off.
  have htext : front ++ (beginMark ++ label.name.toList ++ closeMark
      ++ (first ++ (text ++ (e ++ (endMark ++ label.name.toList ++ closeMark)))) ++ final)
        = front ++ (beginMark ++ (label.name.toList ++ closeMark ++ (first
          ++ (text ++ e ++ (endMark ++ label.name.toList ++ closeMark) ++ final)))) := by
    simp only [List.append_assoc]
  have hbehind : (text ++ e ++ (endMark ++ label.name.toList ++ closeMark) ++ final).head?
      ≠ some '\n' := by
    rwa [List.append_assoc, List.append_assoc, List.head?_append_of_ne_nil _ hplain.ne_nil]
  have hlast : EndsPlain (text ++ e ++ (endMark ++ label.name.toList ++ closeMark)) :=
    (endsPlain_closeMark.append _).append _
  have hsuffix : (endMark ++ label.name.toList ++ closeMark).isSuffixOf?
      (text ++ e ++ (endMark ++ label.name.toList ++ closeMark)) = some (text ++ e) :=
    List.isSuffixOf?_eq_some_iff_append_eq.2 rfl
  rw [htext, decode?, skipPreamble?_append hfront]
  simp only [Option.bind_eq_bind, Option.bind_some, readLabel?_name,
    dropLineEnd?_append hfirst hbehind, getD_dropFinalLineEnd?_append hlast hfinal, hsuffix,
    dropFinalLineEnd?_append hplain he, hjoin _ (Nat.lt_succ_self _), Base64.decode?_encode]

/-- What was written is read back, whatever the label and the bytes. -/
theorem decode?_encode (label : Label) {body : Bytes} (hbody : body ≠ []) :
    decode? (encode label.name.toList body) = some (label, body) := by
  have hfront : IsPreamble [] := ⟨.inl rfl, List.not_mem_nil, by decide⟩
  have hself : IsRelined (encode label.name.toList body) (encode label.name.toList body) :=
    ⟨_, _, ['\n'], by simp [lineEnds], encode_eq _ _, encode_eq _ _, .refl _⟩
  have h := decode?_relined label hbody hfront hself
  rwa [List.nil_append] at h

end Text.Pem

end Keyring
