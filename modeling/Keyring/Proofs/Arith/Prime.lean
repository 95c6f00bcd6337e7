import Keyring.Proofs.Arith.Power
/-!
# Certified primes

The fields of the curves, and the order of the group of one of them, are numbers of 256 bits. That
they are prime follows by Lucas's test from the factors of their predecessors, and for the large
ones among those factors in the same way. A certificate lists the steps, smallest number first; what
it certifies can be evaluated.
-/

namespace Keyring.Arith

/-! ### Small numbers -/

/-- Whether a number has no divisor from `m` on up to its square root, which so many have to
reach. -/
def hasNoDivisor (n : ℕ) : ℕ → ℕ → Bool
  | 0, m => n < m * m
  | tries + 1, m => n < m * m || (n % m ≠ 0 && hasNoDivisor n tries (m + 1))

theorem not_dvd_of_hasNoDivisor {n tries m k : ℕ} (h : hasNoDivisor n tries m = true) (hm : m ≤ k)
    (hk : k * k ≤ n) : ¬ k ∣ n := by
  have hsquare : ¬ n < m * m := Nat.not_lt.2 ((Nat.mul_self_le_mul_self hm).trans hk)
  induction tries generalizing m with
  | zero => exact absurd (of_decide_eq_true h) hsquare
  | succ tries ih =>
    rw [hasNoDivisor, Bool.or_eq_true, Bool.and_eq_true, decide_eq_true_eq, decide_eq_true_eq] at h
    obtain ⟨hmod, hrest⟩ := h.resolve_left hsquare
    rcases hm.eq_or_lt with rfl | hlt
    · exact fun hdvd => hmod (Nat.mod_eq_zero_of_dvd hdvd)
    · exact ih hrest hlt (Nat.not_lt.2 ((Nat.mul_self_le_mul_self hlt).trans hk))

/-- Whether a number below a million has no divisor up to its square root. -/
def isSmallPrime (n : ℕ) : Bool :=
  2 ≤ n && hasNoDivisor n 998 2

theorem prime_of_isSmallPrime {n : ℕ} (h : isSmallPrime n = true) : n.Prime := by
  rw [isSmallPrime, Bool.and_eq_true, decide_eq_true_eq] at h
  exact Nat.prime_def_le_sqrt.2
    ⟨h.1, fun m hm hsqrt => not_dvd_of_hasNoDivisor h.2 hm (Nat.le_sqrt.1 hsqrt)⟩

/-! ### Lucas's test -/

/-- One step of a certificate: a number, a base, and the prime factors of the predecessor of the
number, each as often as it divides it. -/
structure LucasStep where
  /-- The number that is certified. -/
  p : ℕ
  /-- The base whose powers are taken. -/
  base : ℕ
  /-- The prime factors of the predecessor. -/
  factors : List ℕ

/-- Whether a step certifies its number, when the numbers in `known` are prime: the base has the
predecessor for its order. -/
def LucasStep.isValid (known : List ℕ) (s : LucasStep) : Bool :=
  1 < s.p && s.factors.prod == s.p - 1 && powMod s.p s.base (s.p - 1) == 1 &&
    s.factors.all fun q =>
      (known.contains q || isSmallPrime q) && powMod s.p s.base ((s.p - 1) / q) != 1

/-- Whether all steps certify their numbers, each with the help of those before it. -/
def isCertificate : List ℕ → List LucasStep → Bool
  | _, [] => true
  | known, s :: rest => s.isValid known && isCertificate (s.p :: known) rest

theorem cast_pow_eq_one_iff {p : ℕ} (hp : 1 < p) (a e : ℕ) :
    (a : ZMod p) ^ e = 1 ↔ powMod p a e = 1 := by
  have hlt : powMod p a e < p := powMod_lt (by omega) a e
  rw [← cast_powMod, ← Nat.cast_one, ZMod.natCast_eq_natCast_iff', Nat.mod_eq_of_lt hlt,
    Nat.mod_eq_of_lt hp]

theorem LucasStep.prime_of_isValid {known : List ℕ} {s : LucasStep}
    (hknown : ∀ q ∈ known, q.Prime) (h : s.isValid known = true) : s.p.Prime := by
  simp only [isValid, Bool.and_eq_true, decide_eq_true_eq, beq_iff_eq, List.all_eq_true,
    Bool.or_eq_true, List.contains_iff_mem, bne_iff_ne] at h
  obtain ⟨⟨⟨hp, hprod⟩, hone⟩, hfactors⟩ := h
  refine lucas_primality s.p (s.base : ZMod s.p) ((cast_pow_eq_one_iff hp _ _).2 hone) ?_
  intro q hq hdvd
  rw [← hprod] at hdvd
  -- a prime factor of the predecessor divides one of the listed primes, so it is that one.
  -- a prime factor of the predecessor divides one of the listed primes, so it is that one.
  obtain ⟨f, hf, hqf⟩ := (Prime.dvd_prod_iff hq.prime).1 hdvd
  obtain ⟨hprime, hne⟩ := hfactors f hf
  have hfprime : f.Prime := hprime.elim (hknown f) prime_of_isSmallPrime
  obtain rfl : q = f := (Nat.prime_dvd_prime_iff_eq hq hfprime).1 hqf
  rwa [ne_eq, cast_pow_eq_one_iff hp]

/-- Every number in a certificate is prime. -/
theorem prime_of_isCertificate {known : List ℕ} {steps : List LucasStep}
    (hknown : ∀ q ∈ known, q.Prime) (h : isCertificate known steps = true) :
    ∀ s ∈ steps, s.p.Prime := by
  induction steps generalizing known with
  | nil => simp
  | cons s rest ih =>
    rw [isCertificate, Bool.and_eq_true] at h
    have hs : s.p.Prime := LucasStep.prime_of_isValid hknown h.1
    exact List.forall_mem_cons.2 ⟨hs, ih (List.forall_mem_cons.2 ⟨hs, hknown⟩) h.2⟩

/-- A certificate for a number: valid steps, of which the last one is about the number. -/
structure Certificate (p : ℕ) where
  /-- The steps, each of which may use those before it. -/
  steps : List LucasStep
  isValid : isCertificate [] steps = true
  getLast?_steps : steps.getLast?.map LucasStep.p = some p

/-- A number with a certificate is prime. -/
theorem Certificate.prime {p : ℕ} (c : Certificate p) : p.Prime := by
  obtain ⟨s, hs, hp⟩ := Option.map_eq_some_iff.1 c.getLast?_steps
  rw [← hp]
  exact prime_of_isCertificate (by simp) c.isValid s (List.mem_of_getLast? hs)

/-- A number whose predecessor is a power of two times a small prime needs no list of factors. -/
theorem prime_of_mul_two_pow {p f k : ℕ} (base : ℕ) (hp : p = f * 2 ^ k + 1)
    (hf : isSmallPrime f = true) (hone : powMod p base (p - 1) = 1)
    (htwo : powMod p base ((p - 1) / 2) ≠ 1) (hne : powMod p base ((p - 1) / f) ≠ 1) :
    p.Prime := by
  have hfprime := prime_of_isSmallPrime hf
  have hlt : 1 < p := by
    have := Nat.mul_pos hfprime.pos (Nat.two_pow_pos k)
    omega
  refine lucas_primality p (base : ZMod p) ((cast_pow_eq_one_iff hlt _ _).2 hone) ?_
  intro q hq hdvd
  rw [ne_eq, cast_pow_eq_one_iff hlt]
  rw [hp, Nat.add_sub_cancel] at hdvd
  -- the number less one has two prime factors, and a power was checked for each.
  rcases (Nat.Prime.dvd_mul hq).1 hdvd with hdvd | hdvd
  · obtain rfl : q = f := (Nat.prime_dvd_prime_iff_eq hq hfprime).1 hdvd
    exact hne
  · obtain rfl : q = 2 := (Nat.prime_dvd_prime_iff_eq hq Nat.prime_two).1 (hq.dvd_of_dvd_pow hdvd)
    exact htwo

end Keyring.Arith
