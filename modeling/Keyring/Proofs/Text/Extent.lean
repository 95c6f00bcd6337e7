import Keyring.Proofs.Text.Label
/-!
# How far a document reaches

A text that is read has as many dashes as its first and its last line, and behind the last dash at
most one line end. What is written has just as many, and the last dash in front of its last
character. So nothing can be cut off but this character, and nothing can be put behind it.
-/

namespace Keyring

/-- A run has no characters but those of the text. -/
theorem mem_of_mem_runs {α : Type} {k n : Nat} {l r : List α} {x : α} (hr : r ∈ runs k n l)
    (hx : x ∈ r) : x ∈ l := by
  induction n generalizing l with
  | zero => cases hr
  | succ n ih =>
    rcases List.mem_cons.1 hr with rfl | hr
    · exact List.mem_of_mem_take hx
    · exact List.mem_of_mem_drop (ih hr)

namespace Text.Pem

/-! ### Dashes -/

theorem count_dash_firstLine (label : Label) :
    (beginMark ++ label.name.toList ++ closeMark).count '-' = 10 := by
  cases label <;> decide

theorem count_dash_lastLine (label : Label) :
    (endMark ++ label.name.toList ++ closeMark).count '-' = 10 := by
  cases label <;> decide

/-- From a first to a last line there are twenty dashes, if there are none between. -/
theorem exists_document (label : Label) {between : List Char} (h : '-' ∉ between) :
    ∃ document, beginMark ++ label.name.toList ++ closeMark ++ between
        ++ (endMark ++ label.name.toList ++ closeMark) = document ++ ['-'] ∧
      document.count '-' = 19 := by
  -- the last dash is split off, so that nineteen remain in front of it.
  have hlast : endMark ++ label.name.toList ++ closeMark
      = endMark ++ label.name.toList ++ List.replicate 4 '-' ++ ['-'] := by
    rw [closeMark_eq_replicate, List.replicate_succ', ← List.append_assoc]
  refine ⟨beginMark ++ label.name.toList ++ closeMark ++ between
    ++ (endMark ++ label.name.toList ++ List.replicate 4 '-'), ?_, ?_⟩
  · rw [hlast, ← List.append_assoc]
  · have hcount := count_dash_lastLine label
    rw [hlast, List.count_append] at hcount
    rw [List.count_append, List.count_append, count_dash_firstLine, List.count_eq_zero.2 h]
    simp at hcount ⊢
    omega

theorem dash_notMem_lines {digits : List Char} (h : '-' ∉ digits) : '-' ∉ lines digits := by
  intro hmem
  obtain ⟨line, hline, hdash⟩ := List.mem_flatMap.1 hmem
  rcases List.mem_append.1 hdash with hdash | hdash
  · exact h (mem_of_mem_runs hline hdash)
  · exact absurd hdash (by decide)

/-- The last dash splits a text in one way. -/
theorem eq_of_append_dash_eq {front front' behind behind' : List Char}
    (h : front ++ '-' :: behind = front' ++ '-' :: behind') (hbehind : '-' ∉ behind)
    (hbehind' : '-' ∉ behind') : behind = behind' := by
  -- one front part reaches as far as the other: what it has more would contain the last dash.
  rcases List.append_eq_append_iff.1 h with ⟨more, -, hmore⟩ | ⟨more, -, hmore⟩
  · cases more with
    | nil => exact (List.cons.inj hmore).2
    | cons c more =>
      have hdash : '-' ∈ behind := by simp [(List.cons.inj hmore).2]
      exact absurd hdash hbehind
  · cases more with
    | nil => exact (List.cons.inj hmore).2.symm
    | cons c more =>
      have hdash : '-' ∈ behind' := by simp [(List.cons.inj hmore).2]
      exact absurd hdash hbehind'

theorem dash_notMem_of_mem_final {final : List Char} (h : final ∈ [] :: lineEnds) :
    '-' ∉ final := by
  revert final
  decide

/-! ### Texts that are read and texts that are written -/

/-- What is found behind a line feed is a marker in the text. -/
theorem exists_afterLineFeed {text rest : List Char}
    (h : skipPreamble?.afterLineFeed text = some rest) :
    ∃ front, text = front ++ (beginMark ++ rest) := by
  -- the marker is looked for behind every line feed, so the induction is on the text.
  induction text with
  | nil => cases h
  | cons c text ih =>
    rw [skipPreamble?.afterLineFeed] at h
    split at h
    · cases h
    · split at h
      · next hstart =>
        split at hstart
        · obtain rfl := Option.some.inj h
          exact ⟨[c], by rw [← List.isPrefixOf?_eq_some_iff_append_eq.1 hstart]; rfl⟩
        · cases hstart
      · obtain ⟨front, rfl⟩ := ih h
        exact ⟨c :: front, rfl⟩

/-- What is left when the preamble is skipped stands behind a marker in the text. -/
theorem exists_skipPreamble? {text rest : List Char} (h : skipPreamble? text = some rest) :
    ∃ front, text = front ++ (beginMark ++ rest) := by
  unfold skipPreamble? at h
  split at h
  · next hstart =>
    obtain rfl := Option.some.inj h
    exact ⟨[], (List.isPrefixOf?_eq_some_iff_append_eq.1 hstart).symm⟩
  · exact exists_afterLineFeed h

/-- A document that is read has twenty dashes, and a line end behind the last of them, or
nothing. -/
theorem exists_document_of_decode? {text : List Char} {label : Label} {body : Bytes}
    (h : decode? text = some (label, body)) :
    ∃ start, skipPreamble? text = some start ∧ ∃ document, ∃ final ∈ [] :: lineEnds,
      beginMark ++ start = document ++ '-' :: final ∧ document.count '-' = 19 := by
  obtain ⟨e, he, behind, between, hbetween, hskip, hlast⟩ := exists_parts_of_decode? h
  -- at most one line end is taken off before the last line is compared.
  obtain ⟨final, hfinal, hbehind⟩ : ∃ final ∈ [] :: lineEnds,
      behind = between ++ (endMark ++ label.name.toList ++ closeMark) ++ final := by
    cases hdrop : dropFinalLineEnd? behind with
    | none =>
      rw [hdrop, Option.getD_none] at hlast
      exact ⟨[], by simp, by rw [hlast, List.append_nil]⟩
    | some rest =>
      obtain ⟨final, hfinal, rfl⟩ := exists_dropFinalLineEnd? hdrop
      rw [hdrop, Option.getD_some] at hlast
      exact ⟨final, List.mem_cons_of_mem _ hfinal, by rw [hlast]⟩
  obtain ⟨document, hdocument, hcount⟩ :=
    exists_document label (List.not_mem_append (dash_notMem_of_mem_lineEnds he) hbetween)
  refine ⟨_, hskip, document, final, hfinal, ?_, hcount⟩
  rw [List.append_cons document, ← hdocument, hbehind]
  simp only [List.append_assoc]

/-- A document that is written has as many, and its last line feed behind them. -/
theorem exists_document_encode (label : Label) (body : Bytes) :
    ∃ document, encode label.name.toList body = document ++ ['-', '\n'] ∧
      document.count '-' = 19 := by
  have hdash : '-' ∉ '\n' :: lines (Base64.encode body) :=
    List.not_mem_cons_of_ne_of_not_mem (by decide)
      (dash_notMem_lines (Base64.dash_notMem_of_decode? (Base64.decode?_encode body)))
  obtain ⟨document, hdocument, hcount⟩ := exists_document label hdash
  refine ⟨document, ?_, hcount⟩
  rw [encode_eq, List.append_cons document, ← hdocument]
  simp only [List.append_assoc, List.cons_append]

/-! ### Cutting off and putting behind -/

/-- Of a text that is written no more than the last line feed can be cut off. -/
theorem decode?_eq_none_of_prefix {label : Label} {body : Bytes} {front : List Char}
    (h : front <+: encode label.name.toList body) (hne : front ≠ encode label.name.toList body)
    (hcut : front ++ ['\n'] ≠ encode label.name.toList body) : decode? front = none := by
  obtain ⟨document, hdocument, hcount⟩ := exists_document_encode label body
  rw [hdocument] at h hne hcut
  -- what is left has fewer dashes than a text that is read.
  have hfront : front <+: document := by
    rw [List.append_cons, List.prefix_concat_iff] at h
    have h' := h.resolve_left (by simpa using hne)
    rw [List.prefix_concat_iff] at h'
    exact h'.resolve_left fun heq => hcut (by simp [heq])
  have hless : front.count '-' ≤ 19 := hcount ▸ hfront.sublist.count_le '-'
  refine Option.eq_none_iff_forall_ne_some.2 ?_
  rintro ⟨label', body'⟩ hdecode
  obtain ⟨start, hskip, document', final, -, hparts, hcount'⟩ := exists_document_of_decode? hdecode
  obtain ⟨preamble, rfl⟩ := exists_skipPreamble? hskip
  simp only [hparts, List.count_append, List.count_cons_self, hcount'] at hless
  omega

/-- Nothing can be put behind a text that is written. -/
theorem decode?_append_eq_none (label : Label) (body : Bytes) {more : List Char} (h : more ≠ []) :
    decode? (encode label.name.toList body ++ more) = none := by
  obtain ⟨document, hdocument, hcount⟩ := exists_document_encode label body
  refine Option.eq_none_iff_forall_ne_some.2 ?_
  rintro ⟨label', body'⟩ hdecode
  obtain ⟨start, hskip, document', final, hfinal, hparts, hcount'⟩ :=
    exists_document_of_decode? hdecode
  have htext : encode label.name.toList body ++ more = beginMark ++ start := by
    simp only [encode, List.append_assoc] at hskip ⊢
    rw [skipPreamble?_beginMark, Option.some.injEq] at hskip
    rw [hskip]
  have hsplit : document ++ '-' :: ('\n' :: more) = document' ++ '-' :: final := by
    rw [← hparts, ← htext, hdocument]
    simp
  -- both texts have nineteen dashes before their last one, so the added text has none.
  have hmore : '-' ∉ '\n' :: more := by
    have hall := congrArg (List.count '-') hsplit
    have hfinal' := List.count_eq_zero.2 (dash_notMem_of_mem_final hfinal)
    simp only [List.count_append, List.count_cons_self, hcount, hcount', hfinal'] at hall
    exact List.count_eq_zero.1 (by omega)
  obtain rfl := eq_of_append_dash_eq hsplit hmore (dash_notMem_of_mem_final hfinal)
  simp [lineEnds, h] at hfinal

end Text.Pem

end Keyring
