import Zvchain.Lib.Pratt
import Mathlib.Tactic.NormNum.Prime

/-!
# The order of the groups of `bncurve` (`consensus/groupsig/bncurve/constants.go`)

`Order` is the order of the groups G1 and G2 of the BN curve, and the modulus of the secret keys
and identifiers of `groupsig` (`curveOrder`).  It is prime, so the scalars form the field
`ZMod Order`, over which the threshold scheme interpolates.  Its primality is proved by Lucas's
test, with the large prime factors of `Order - 1` and of their predecessors certified the same
way and the small ones by `norm_num`.
-/

namespace Zvchain

/-- `bncurve.Order`. -/
def Order : ℕ := 21888242871839275222246405745257275088548364400416034343698204186575808495617

/-- `curveOrder`, the big integer the key arithmetic reduces by. -/
def curveOrder : ℤ := Order

namespace Bncurve

/-- The Lucas certificates of `Order` and of the large primes below it: each number with its base
and the factorization of its predecessor. -/
def certificates : List (ℕ × ℕ × List (ℕ × ℕ)) :=
  [(639533339, 2, [(2, 1), (229, 1), (853, 1), (1637, 1)]),
   (65865678001877903, 5, [(2, 1), (83, 1), (379, 1), (1637, 1), (639533339, 1)]),
   (13818364434197438864469338081, 3,
     [(2, 5), (5, 1), (823, 1), (1593227, 1), (65865678001877903, 1)]),
   (12048837557, 2, [(2, 2), (7, 2), (661, 1), (93001, 1)]),
   (5156902474397, 2, [(2, 2), (107, 1), (12048837557, 1)]),
   (1670836401704629, 2, [(2, 2), (3, 4), (5156902474397, 1)]),
   (405928799, 22, [(2, 1), (11, 1), (3691, 1), (4999, 1)]),
   (Order, 5, [(2, 28), (3, 2), (13, 1), (29, 1), (983, 1), (11003, 1), (237073, 1),
     (405928799, 1), (1670836401704629, 1), (13818364434197438864469338081, 1)])]

/-- Every certificate passes Lucas's test; the kernel evaluates all of them at once. -/
theorem certificates_check :
    (certificates.all fun c => Pratt.lucasCheck c.1 256 c.2.1 c.2.2) = true := by
  decide +kernel

theorem lucasCheck_of_mem {p a : ℕ} {factors : List (ℕ × ℕ)} (h : (p, a, factors) ∈ certificates) :
    Pratt.lucasCheck p 256 a factors = true :=
  List.all_eq_true.mp certificates_check _ h

theorem prime_639533339 : Nat.Prime 639533339 :=
  Pratt.prime_of_lucasCheck 256 2 [(2, 1), (229, 1), (853, 1), (1637, 1)] (by norm_num)
    (by norm_num) (by norm_num) (lucasCheck_of_mem (by simp [certificates]))

theorem prime_65865678001877903 : Nat.Prime 65865678001877903 :=
  Pratt.prime_of_lucasCheck 256 5
    [(2, 1), (83, 1), (379, 1), (1637, 1), (639533339, 1)] (by norm_num)
    (by simp only [List.forall_mem_cons, prime_639533339]; norm_num) (by norm_num)
    (lucasCheck_of_mem (by simp [certificates]))

theorem prime_13818364434197438864469338081 : Nat.Prime 13818364434197438864469338081 :=
  Pratt.prime_of_lucasCheck 256 3
    [(2, 5), (5, 1), (823, 1), (1593227, 1), (65865678001877903, 1)] (by norm_num)
    (by simp only [List.forall_mem_cons, prime_65865678001877903]; norm_num) (by norm_num)
    (lucasCheck_of_mem (by simp [certificates]))

theorem prime_12048837557 : Nat.Prime 12048837557 :=
  Pratt.prime_of_lucasCheck 256 2 [(2, 2), (7, 2), (661, 1), (93001, 1)] (by norm_num)
    (by norm_num) (by norm_num) (lucasCheck_of_mem (by simp [certificates]))

theorem prime_5156902474397 : Nat.Prime 5156902474397 :=
  Pratt.prime_of_lucasCheck 256 2 [(2, 2), (107, 1), (12048837557, 1)] (by norm_num)
    (by simp only [List.forall_mem_cons, prime_12048837557]; norm_num) (by norm_num)
    (lucasCheck_of_mem (by simp [certificates]))

theorem prime_1670836401704629 : Nat.Prime 1670836401704629 :=
  Pratt.prime_of_lucasCheck 256 2 [(2, 2), (3, 4), (5156902474397, 1)] (by norm_num)
    (by simp only [List.forall_mem_cons, prime_5156902474397]; norm_num) (by norm_num)
    (lucasCheck_of_mem (by simp [certificates]))

theorem prime_405928799 : Nat.Prime 405928799 :=
  Pratt.prime_of_lucasCheck 256 22 [(2, 1), (11, 1), (3691, 1), (4999, 1)] (by norm_num)
    (by norm_num) (by norm_num) (lucasCheck_of_mem (by simp [certificates]))

theorem order_prime : Nat.Prime Order :=
  Pratt.prime_of_lucasCheck 256 5
    [(2, 28), (3, 2), (13, 1), (29, 1), (983, 1), (11003, 1), (237073, 1), (405928799, 1),
      (1670836401704629, 1), (13818364434197438864469338081, 1)] (by norm_num [Order])
    (by
      simp only [List.forall_mem_cons, prime_405928799, prime_1670836401704629,
        prime_13818364434197438864469338081]
      norm_num)
    (by norm_num [Order]) (lucasCheck_of_mem (by simp [certificates]))

instance : Fact (Nat.Prime Order) := ⟨order_prime⟩

end Bncurve

end Zvchain
