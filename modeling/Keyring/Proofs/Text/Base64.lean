import Keyring.Proofs.Bytes
import Keyring.Text.Base64
/-!
# Reading what was written in base64

The digits of a byte string give the byte string back, and they are not line ends, so that they can
be cut into lines.
-/

namespace Keyring.Text.Base64

open Bytes

/-! ### The alphabet -/

/-- A digit is looked up as its value. -/
theorem value?_digit {n : Nat} (h : n < 64) : value? (digit n) = some n := by
  revert n
  decide +kernel

/-- No digit is a filler or a line end. -/
theorem digit_ne {n : Nat} (h : n < 64) : digit n ≠ '=' ∧ digit n ≠ '\n' ∧ digit n ≠ '\r' := by
  revert n
  decide +kernel

/-! ### Groups -/

/-- The four digits of three bytes have values below 64, from which the bytes are put together
again. -/
theorem bytes_of_values (a b c : UInt8) :
    UInt8.ofNat (a.toNat / 4 * 4 + (a.toNat % 4 * 16 + b.toNat / 16) / 16) = a ∧
    UInt8.ofNat ((a.toNat % 4 * 16 + b.toNat / 16) % 16 * 16
      + (b.toNat % 16 * 4 + c.toNat / 64) / 4) = b ∧
    UInt8.ofNat ((b.toNat % 16 * 4 + c.toNat / 64) % 4 * 64 + c.toNat % 64) = c := by
  have ha := a.toNat_lt
  have hb := b.toNat_lt
  have hc := c.toNat_lt
  -- three bytes are cut into four six-bit values, and each byte is put together from two of them.
  have ha' : a.toNat / 4 * 4 + (a.toNat % 4 * 16 + b.toNat / 16) / 16 = a.toNat := by omega
  have hb' : (a.toNat % 4 * 16 + b.toNat / 16) % 16 * 16
      + (b.toNat % 16 * 4 + c.toNat / 64) / 4 = b.toNat := by omega
  have hc' : (b.toNat % 16 * 4 + c.toNat / 64) % 4 * 64 + c.toNat % 64 = c.toNat := by omega
  rw [ha', hb', hc', UInt8.ofNat_toNat, UInt8.ofNat_toNat, UInt8.ofNat_toNat]
  exact ⟨rfl, rfl, rfl⟩

/-- Four digits without a filler are a group, whatever follows. -/
theorem decode?_digits {a b c d : Nat} (ha : a < 64) (hb : b < 64) (hc : c < 64) (hd : d < 64)
    (rest : List Char) :
    decode? (digit a :: digit b :: digit c :: digit d :: rest) =
      (decode? rest).map fun bytes => UInt8.ofNat (a * 4 + b / 16)
        :: UInt8.ofNat (b % 16 * 16 + c / 4) :: UInt8.ofNat (c % 4 * 64 + d) :: bytes := by
  rw [decode?]
  · simp [value?_digit ha, value?_digit hb, value?_digit hc, value?_digit hd,
      Option.map_eq_bind]
  -- the two clauses in front of this one ask for a filler in the third or the fourth place.
  · intro _ h
    exact absurd h (digit_ne hd).1
  · intro h
    exact absurd h (digit_ne hd).1

/-- The bytes are read back from their digits. -/
@[simp] theorem decode?_encode (b : Bytes) : decode? (encode b) = some b := by
  induction b using encode.induct with
  | case1 => rfl
  | case2 a =>
    have ha := a.toNat_lt
    have hbyte := (bytes_of_values a 0 0).1
    -- the second digit ends in zeros, as the reader demands of it before a filler.
    -- the second digit ends in zeros, as the reader demands of it before a filler.
    have hfill : a.toNat % 4 * 16 % 16 = 0 := by omega
    rw [encode, decode?, value?_digit (by omega), value?_digit (by omega)]
    simpa [hfill] using hbyte
  | case3 a b =>
    have ha := a.toNat_lt
    have hb := b.toNat_lt
    obtain ⟨hbyte₁, hbyte₂, -⟩ := bytes_of_values a b 0
    have hfill : b.toNat % 16 * 4 % 4 = 0 := by omega
    have hne : digit (b.toNat % 16 * 4) ≠ '=' := (digit_ne (by omega)).1
    rw [encode, decode?, value?_digit (by omega), value?_digit (by omega), value?_digit (by omega)]
    · have hbyte₂ : UInt8.ofNat ((a.toNat % 4 * 16 + b.toNat / 16) % 16 * 16
          + b.toNat % 16 * 4 / 4) = b := by simpa using hbyte₂
      simp only [Option.bind_eq_bind, Option.bind_some, hfill, if_true]
      rw [hbyte₁, hbyte₂]
    · exact fun h => absurd h hne
  | case4 a b c rest ih =>
    have ha := a.toNat_lt
    have hb := b.toNat_lt
    have hc := c.toNat_lt
    obtain ⟨hbyte₁, hbyte₂, hbyte₃⟩ := bytes_of_values a b c
    rw [encode, decode?_digits (by omega) (by omega) (by omega) (by omega), ih, Option.map_some,
      hbyte₁, hbyte₂, hbyte₃]

/-! ### Characters -/

theorem encode_ne_nil {b : Bytes} (h : b ≠ []) : encode b ≠ [] := by
  unfold encode
  split <;> simp_all

theorem mem_encode {b : Bytes} {x : Char} (h : x ∈ encode b) :
    x = '=' ∨ ∃ n < 64, x = digit n := by
  -- the digits of each group are below 64, and a short last group is filled up.
  induction b using encode.induct with
  | case1 => simp [encode] at h
  | case2 a =>
    have ha := a.toNat_lt
    simp only [encode, List.mem_cons, List.not_mem_nil, or_false] at h
    rcases h with rfl | rfl | rfl | rfl
    · exact .inr ⟨_, by omega, rfl⟩
    · exact .inr ⟨_, by omega, rfl⟩
    · exact .inl rfl
    · exact .inl rfl
  | case3 a b =>
    have ha := a.toNat_lt
    have hb := b.toNat_lt
    simp only [encode, List.mem_cons, List.not_mem_nil, or_false] at h
    rcases h with rfl | rfl | rfl | rfl
    · exact .inr ⟨_, by omega, rfl⟩
    · exact .inr ⟨_, by omega, rfl⟩
    · exact .inr ⟨_, by omega, rfl⟩
    · exact .inl rfl
  | case4 a b c rest ih =>
    have ha := a.toNat_lt
    have hb := b.toNat_lt
    have hc := c.toNat_lt
    simp only [encode, List.mem_cons] at h
    rcases h with rfl | rfl | rfl | rfl | h
    · exact .inr ⟨_, by omega, rfl⟩
    · exact .inr ⟨_, by omega, rfl⟩
    · exact .inr ⟨_, by omega, rfl⟩
    · exact .inr ⟨_, by omega, rfl⟩
    · exact ih h

/-- The digits and the fillers are no line ends. -/
theorem ne_of_mem_encode {b : Bytes} {x : Char} (h : x ∈ encode b) : x ≠ '\n' ∧ x ≠ '\r' := by
  rcases mem_encode h with rfl | ⟨n, hn, rfl⟩
  · decide
  · exact (digit_ne hn).2

/-! ### Characters that are read -/

theorem mem_alphabet_of_value? {c : Char} {n : Nat} (h : value? c = some n) : c ∈ alphabet := by
  by_contra hc
  rw [value?, List.idxOf?_eq_none_iff.2 hc] at h
  cases h

/-- Nothing but digits and fillers is read. -/
theorem mem_alphabet_of_decode? {digits : List Char} {b : Bytes} (h : decode? digits = some b) :
    ∀ c ∈ digits, c ∈ alphabet ∨ c = '=' := by
  -- every character of a group was looked up, but for the filling of the last one.
  induction digits using decode?.induct generalizing b with
  | case1 => simp
  | case2 x y =>
    simp only [decode?, Option.bind_eq_bind, Option.bind_eq_some_iff] at h
    obtain ⟨_, hx, _, hy, -⟩ := h
    simp [mem_alphabet_of_value? hx, mem_alphabet_of_value? hy]
  | case3 x y z hz =>
    rw [decode?.eq_3 _ _ _ hz] at h
    simp only [Option.bind_eq_bind, Option.bind_eq_some_iff] at h
    obtain ⟨_, hx, _, hy, _, hz, -⟩ := h
    simp [mem_alphabet_of_value? hx, mem_alphabet_of_value? hy, mem_alphabet_of_value? hz]
  | case4 x y z w rest htwo hone ih =>
    rw [decode?.eq_4 _ _ _ _ _ htwo hone] at h
    simp only [Option.bind_eq_bind, Option.bind_eq_some_iff] at h
    obtain ⟨_, hx, _, hy, _, hz, _, hw, _, hrest, -⟩ := h
    simp only [List.forall_mem_cons]
    exact ⟨.inl (mem_alphabet_of_value? hx), .inl (mem_alphabet_of_value? hy),
      .inl (mem_alphabet_of_value? hz), .inl (mem_alphabet_of_value? hw), ih hrest⟩
  | case5 rest h₁ h₂ h₃ h₄ =>
    rw [decode?.eq_5 _ h₁ h₂ h₃ h₄] at h
    cases h

/-- Nothing with a dash is read. -/
theorem dash_notMem_of_decode? {digits : List Char} {b : Bytes} (h : decode? digits = some b) :
    '-' ∉ digits := by
  intro hdash
  rcases mem_alphabet_of_decode? h _ hdash with h | h
  · exact absurd h (by decide)
  · exact absurd h (by decide)

end Keyring.Text.Base64
