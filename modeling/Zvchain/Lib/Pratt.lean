import Mathlib.NumberTheory.LucasPrimality
import Mathlib.Data.List.Prime

/-!
# Primality of large constants by Lucas's test

`lucas_primality` proves `p` prime from a base `a` whose order modulo `p` is `p - 1`: the power
`a ^ (p - 1)` is one and no power `a ^ ((p - 1) / q)` for a prime `q` dividing `p - 1` is.
Given the factorization of `p - 1`, the powers are a finite computation; `lucasCheck` does it by
repeated squaring, so that the kernel checks a 254-bit prime in a few hundred multiplications.
The primality of the factors is proved beforehand, by the same test or by `norm_num`.
-/

namespace Pratt

/-- `b ^ e % m` by repeated squaring over the low `bits` bits of `e`. -/
def powMod (m : ℕ) : ℕ → ℕ → ℕ → ℕ
  | 0, _, _ => 1 % m
  | bits + 1, b, e => (if e % 2 = 0 then 1 else b) * powMod m bits (b * b % m) (e / 2) % m

theorem powMod_eq (m : ℕ) : ∀ bits b e, e < 2 ^ bits → powMod m bits b e = b ^ e % m
  | 0, b, e, he => by
    have he0 : e = 0 := by simpa using he
    simp [powMod, he0]
  | bits + 1, b, e, he => by
    have hhalf : e / 2 < 2 ^ bits := by rw [pow_succ] at he; omega
    -- the squared base to half the exponent is the base to the even part of it
    have hsq : (b * b % m) ^ (e / 2) % m = b ^ (2 * (e / 2)) % m := by
      rw [← Nat.pow_mod, pow_mul, sq]
    rw [powMod, powMod_eq m bits _ _ hhalf, hsq, Nat.mul_mod_mod]
    rcases Nat.mod_two_eq_zero_or_one e with h0 | h1
    · rw [if_pos h0, one_mul, show 2 * (e / 2) = e by omega]
    · rw [if_neg (by omega), ← pow_succ', show 2 * (e / 2) + 1 = e by omega]

/-- Lucas's conditions on the base `a` for `p`, over exponents of `bits` bits, with the prime
factors of `p - 1` listed with their exponents. -/
def lucasCheck (p bits a : ℕ) (factors : List (ℕ × ℕ)) : Bool :=
  p ≤ 2 ^ bits && powMod p bits a (p - 1) == 1 &&
    factors.all fun f => powMod p bits a ((p - 1) / f.1) != 1

/-- In `ZMod p`, a power is one exactly when it is one modulo `p`. -/
theorem zmod_pow_eq_one_iff {p : ℕ} (hp : 2 ≤ p) (a e : ℕ) :
    (a : ZMod p) ^ e = 1 ↔ a ^ e % p = 1 := by
  rw [← Nat.cast_pow, ← Nat.cast_one, ZMod.natCast_eq_natCast_iff', Nat.one_mod_eq_one.mpr (by omega)]

/-- A prime dividing a product of prime powers is one of the primes. -/
theorem mem_of_prime_dvd_prod {q : ℕ} (hq : q.Prime) {factors : List (ℕ × ℕ)}
    (hprime : ∀ f ∈ factors, f.1.Prime) (hdvd : q ∣ (factors.map fun f => f.1 ^ f.2).prod) :
    ∃ f ∈ factors, f.1 = q := by
  obtain ⟨x, hx, hqx⟩ := (Prime.dvd_prod_iff hq.prime).mp hdvd
  obtain ⟨f, hf, rfl⟩ := List.mem_map.mp hx
  exact ⟨f, hf, ((Nat.prime_dvd_prime_iff_eq hq (hprime f hf)).mp (hq.dvd_of_dvd_pow hqx)).symm⟩

/-- Lucas's test: `p` is prime when `p - 1` is the product of the listed prime powers and the base
passes `lucasCheck`. -/
theorem prime_of_lucasCheck {p : ℕ} (bits a : ℕ) (factors : List (ℕ × ℕ)) (hp : 2 ≤ p)
    (hprime : ∀ f ∈ factors, f.1.Prime) (hprod : (factors.map fun f => f.1 ^ f.2).prod = p - 1)
    (hcheck : lucasCheck p bits a factors = true) : p.Prime := by
  simp only [lucasCheck, Bool.and_eq_true, decide_eq_true_eq, beq_iff_eq, List.all_eq_true,
    bne_iff_ne, ne_eq] at hcheck
  obtain ⟨⟨hbits, hfull⟩, hpart⟩ := hcheck
  have hlt : ∀ e, e ≤ p - 1 → e < 2 ^ bits := fun e he => by omega
  refine lucas_primality p a ?_ fun q hq hdvd => ?_
  · rw [zmod_pow_eq_one_iff hp, ← powMod_eq p bits a _ (hlt _ le_rfl)]
    exact hfull
  · rw [← hprod] at hdvd
    obtain ⟨f, hf, rfl⟩ := mem_of_prime_dvd_prod hq hprime hdvd
    rw [ne_eq, zmod_pow_eq_one_iff hp, ← powMod_eq p bits a _ (hlt _ (Nat.div_le_self _ _))]
    exact hpart f hf

end Pratt
