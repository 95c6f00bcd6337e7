import Keyring.Proofs.Text.Pem
/-!
# The parts of a text that is read

A text that is read consists of a first line, lines of digits without a dash, and a last line with
the same label. So a document under one label is not read under another one, whatever characters the
label has: where a label goes on behind one that can be read, its own last line ends up among the
digits.
-/

namespace Keyring.Text.Pem

/-! ### The lines between -/

/-- Whatever is neither a digit nor a line end does not stand between the first and the last
line. -/
theorem dash_notMem_of_joinLines? {n : Nat} {text digits : List Char}
    (h : joinLines? n text = some digits) (hdigits : '-' ∉ digits) : '-' ∉ text := by
  induction n generalizing text digits with
  | zero => cases h
  | succ n ih =>
    rw [joinLines?] at h
    split at h
    · -- the last line, of which a line end may have been dropped.
      obtain rfl := Option.some.inj h
      cases hdrop : dropFinalLineEnd? text with
      | none =>
        rw [hdrop] at hdigits
        exact hdigits
      | some rest =>
        obtain ⟨e, he, rfl⟩ := exists_dropFinalLineEnd? hdrop
        rw [hdrop] at hdigits
        exact List.not_mem_append hdigits (dash_notMem_of_mem_lineEnds he)
    · simp only [Option.bind_eq_bind, Option.bind_eq_some_iff, Option.some.injEq] at h
      obtain ⟨rest, hdrop, more, hjoin, rfl⟩ := h
      obtain ⟨e, he, hparts⟩ := exists_dropLineEnd? hdrop
      obtain ⟨hline, hmore⟩ := not_or.1 (List.mem_append.not.1 hdigits)
      rw [← List.take_append_drop lineWidth text, hparts]
      exact List.not_mem_append hline
        (List.not_mem_append (dash_notMem_of_mem_lineEnds he) (ih hjoin hmore))

/-! ### Labels -/

theorem dash_notMem_name (label : Label) : '-' ∉ label.name.toList := by
  cases label <;> decide

theorem eq_of_splitLabel? {text name rest : List Char} (h : splitLabel? text = some (name, rest)) :
    text = name ++ closeMark ++ rest := by
  simp only [splitLabel?, Option.map_eq_some_iff, Prod.mk.injEq] at h
  obtain ⟨_, h, rfl, rfl⟩ := h
  have hname : text.takeWhile (· ≠ '-') = text.take (text.takeWhile (· ≠ '-')).length :=
    (List.prefix_iff_eq_take.1 (List.takeWhile_prefix _))
  rw [List.append_assoc, List.isPrefixOf?_eq_some_iff_append_eq.1 h]
  nth_rewrite 1 [hname]
  exact (List.take_append_drop _ _).symm

theorem eq_of_readLabel? {text rest : List Char} {label : Label}
    (h : readLabel? text = some (label, rest)) : text = label.name.toList ++ closeMark ++ rest := by
  simp only [readLabel?, Option.bind_eq_bind, Option.bind_eq_some_iff, Prod.exists,
    Option.some.injEq, Prod.mk.injEq] at h
  obtain ⟨name, _, hsplit, found, hfind, rfl, rfl⟩ := h
  have hname : found.name.toList = name := by simpa using List.find?_some hfind
  rw [eq_of_splitLabel? hsplit, hname]

/-- The parts of a text that is read. -/
theorem exists_parts_of_decode? {text : List Char} {label : Label} {body : Bytes}
    (h : decode? text = some (label, body)) :
    ∃ e ∈ lineEnds, ∃ behind between, '-' ∉ between ∧
      skipPreamble? text = some (label.name.toList ++ closeMark ++ (e ++ behind)) ∧
      (dropFinalLineEnd? behind).getD behind
        = between ++ (endMark ++ label.name.toList ++ closeMark) := by
  simp only [decode?, Option.bind_eq_bind, Option.bind_eq_some_iff, Prod.exists, Option.some.injEq,
    Prod.mk.injEq] at h
  obtain ⟨start, hstart, found, first, hlabel, behind, hfirst, between, hlast, lines, hlines,
    digits, hjoin, _, hdigits, rfl, rfl⟩ := h
  obtain ⟨e, he, rfl⟩ := exists_dropLineEnd? hfirst
  obtain ⟨e', he', rfl⟩ := exists_dropFinalLineEnd? hlines
  -- the lines hold digits and line ends, and neither has a dash.
  have hdash := dash_notMem_of_joinLines? hjoin (Base64.dash_notMem_of_decode? hdigits)
  refine ⟨e, he, behind, _, List.not_mem_append hdash (dash_notMem_of_mem_lineEnds he'), ?_, ?_⟩
  · rw [hstart, eq_of_readLabel? hlabel]
  · exact (List.isSuffixOf?_eq_some_iff_append_eq.1 hlast).symm

/-- Whether the document in a text stands between two lines with the given label, whatever stands
between them. -/
def IsLabelled (name text : List Char) : Prop :=
  ∃ content, ∃ e ∈ [] :: lineEnds, skipPreamble? text =
    some (name ++ closeMark ++ content ++ (endMark ++ name ++ closeMark ++ e))

theorem isLabelled_encode (name : List Char) (body : Bytes) :
    IsLabelled name (encode name body) := by
  refine ⟨'\n' :: lines (Base64.encode body), ['\n'], by simp [lineEnds], ?_⟩
  have hencode : encode name body = beginMark ++ (name ++ closeMark
      ++ '\n' :: lines (Base64.encode body) ++ (endMark ++ name ++ closeMark ++ ['\n'])) := by
    simp only [encode, lines, List.append_assoc, List.cons_append, List.nil_append]
  rw [hencode, skipPreamble?_beginMark]

theorem closeMark_eq_replicate : closeMark = List.replicate 5 '-' := rfl

/-- What goes on behind a label that is read, up to the mark of another one, starts with a mark: a
part of a mark has no line end behind it. -/
theorem exists_eq_closeMark_append {e behind more rest : List Char} (he : e ∈ lineEnds)
    (hmore : more ≠ []) (h : closeMark ++ (e ++ behind) = more ++ (closeMark ++ rest)) :
    ∃ more', more = closeMark ++ more' := by
  rcases List.append_eq_append_iff.1 h with ⟨more', hmore', -⟩ | ⟨dashes, hclose, hrest⟩
  · exact ⟨more', hmore'⟩
  · exfalso
    obtain ⟨x, e', rfl⟩ : ∃ x e', e = x :: e' :=
      List.exists_cons_of_ne_nil (by rintro rfl; revert he; decide)
    have hlt : dashes.length < 5 := by
      have hpos := List.length_pos_of_ne_nil hmore
      have hlength : 5 = more.length + dashes.length :=
        (congrArg List.length hclose).trans List.length_append
      omega
    -- the line end would stand where the second mark has a dash.
    have hdash : (closeMark ++ rest)[dashes.length]? = some '-' := by
      rw [List.getElem?_append_left hlt, closeMark_eq_replicate, List.getElem?_replicate_of_lt hlt]
    have hx : (closeMark ++ rest)[dashes.length]? = some x := by
      rw [hrest, List.getElem?_append_right le_rfl, Nat.sub_self]
      rfl
    obtain rfl : '-' = x := Option.some.inj (hdash.symm.trans hx)
    exact dash_notMem_of_mem_lineEnds he List.mem_cons_self

/-- Of two last lines behind one text the longer one starts among what is in front of the other. -/
theorem dash_mem_of_append_eq {front between name more : List Char} (hmore : more ≠ [])
    (h : front ++ (endMark ++ (name ++ more) ++ closeMark)
      = between ++ (endMark ++ name ++ closeMark)) : '-' ∈ between := by
  have hpos := List.length_pos_of_ne_nil hmore
  -- the line with the longer name starts further in front, so its first dash lies between.
  rcases List.append_eq_append_iff.1 h with ⟨part, rfl, hlast⟩ | ⟨part, rfl, hlast⟩
  · cases part with
    | nil =>
      have hlength := congrArg List.length hlast
      simp only [List.length_append, List.length_nil] at hlength
      omega
    | cons c part =>
      obtain rfl : '-' = c := (List.cons.inj hlast).1
      simp
  · have hlength := congrArg List.length hlast
    simp only [List.length_append] at hlength
    omega

/-- The label of the first line starts with the one that is read. -/
theorem exists_eq_name_append {name start rest : List Char} {label : Label}
    (h : label.name.toList ++ (closeMark ++ start) = name ++ (closeMark ++ rest)) :
    ∃ more, name = label.name.toList ++ more ∧
      closeMark ++ start = more ++ (closeMark ++ rest) := by
  rcases List.append_eq_append_iff.1 h with hname | ⟨more, hmore, hrest⟩
  · exact hname
  · cases more with
    | nil => exact ⟨[], by rw [hmore, List.append_nil, List.append_nil], hrest.symm⟩
    | cons c more =>
      -- the first dash would be a character of a label that is read.
      obtain rfl : '-' = c := (List.cons.inj hrest).1
      exact absurd (by simp [hmore]) (dash_notMem_name label)

/-- A text that is read is read under the label that it has. -/
theorem IsLabelled.eq_of_decode? {name text : List Char} {label : Label} {body : Bytes}
    (h : IsLabelled name text) (hdecode : decode? text = some (label, body)) :
    name = label.name.toList := by
  obtain ⟨content, final, hfinal, hskip⟩ := h
  obtain ⟨e, he, behind, between, hbetween, hskip', hlast⟩ := exists_parts_of_decode? hdecode
  rw [hskip', Option.some.injEq, List.append_assoc, List.append_assoc, List.append_assoc] at hskip
  obtain ⟨more, hname, hmark⟩ := exists_eq_name_append hskip
  by_contra hne
  have hmore : more ≠ [] := by
    rintro rfl
    exact hne (by rw [hname, List.append_nil])
  obtain ⟨more', rfl⟩ := exists_eq_closeMark_append he hmore hmark
  rw [List.append_assoc, List.append_cancel_left_eq, ← List.append_assoc,
    ← List.append_assoc] at hmark
  -- so the last line stands behind the line end of the first one.
  obtain ⟨front, rfl⟩ : ∃ front, behind = front ++ (endMark ++ name ++ closeMark ++ final) := by
    rcases List.append_eq_append_iff.1 hmark with ⟨front, -, hfront⟩ | ⟨part, hpart, -⟩
    · exact ⟨front, hfront⟩
    · have hle := length_le_two_of_mem_lineEnds he
      have hfive : closeMark.length = 5 := rfl
      simp only [hpart, List.length_append, hfive] at hle
      omega
  have hplain : EndsPlain (front ++ (endMark ++ name ++ closeMark)) :=
    (endsPlain_closeMark.append _).append _
  rw [← List.append_assoc, getD_dropFinalLineEnd?_append hplain hfinal, hname] at hlast
  exact hbetween (dash_mem_of_append_eq hmore hlast)

end Keyring.Text.Pem
