import Mathlib.LinearAlgebra.Lagrange

/-!
# Coefficient lists, Horner's rule and interpolation at a point

A polynomial given by its list of coefficients, constant term first, is evaluated by Horner's
rule from the top coefficient down; the same rule evaluates it on the points of a module, where
each coefficient is a point.  Through distinct nodes, a polynomial of degree below their number
takes at any point the weighted sum of its values at the nodes, with Lagrange's weights
`∏ (v j - t) / (v j - v i)`.  A loop that multiplies over the indices below `k` other than `i`
is the product over `(range k).erase i`.
-/

open Polynomial Finset

namespace Interp

section Coeffs

variable {R : Type*} [CommRing R]

/-- The polynomial with the coefficients `cs`, constant term first. -/
noncomputable def ofCoeffs : List R → R[X]
  | [] => 0
  | c :: cs => C c + X * ofCoeffs cs

@[simp] theorem ofCoeffs_nil : ofCoeffs ([] : List R) = 0 := rfl

@[simp] theorem ofCoeffs_cons (c : R) (cs : List R) : ofCoeffs (c :: cs) = C c + X * ofCoeffs cs :=
  rfl

theorem eval_ofCoeffs_append_singleton (x a : R) (cs : List R) :
    (ofCoeffs (cs ++ [a])).eval x = (ofCoeffs cs).eval x + a * x ^ cs.length := by
  induction cs with
  | nil => simp
  | cons c cs ih =>
    simp only [List.cons_append, ofCoeffs_cons, eval_add, eval_C, eval_mul, eval_X, ih,
      List.length_cons]
    ring

/-- A list of `n` coefficients gives a polynomial of degree below `n`. -/
theorem degree_ofCoeffs_lt [Nontrivial R] (cs : List R) : (ofCoeffs cs).degree < cs.length := by
  induction cs with
  | nil => simp
  | cons c cs ih =>
    rw [degree_lt_iff_coeff_zero] at ih ⊢
    intro m hm
    obtain ⟨m, rfl⟩ : ∃ m', m = m' + 1 := ⟨m - 1, by simp at hm; omega⟩
    simp only [ofCoeffs_cons, coeff_add, coeff_C, coeff_X_mul, Nat.add_one_ne_zero, if_false,
      zero_add]
    exact ih m (by simpa using hm)

/-- Horner's rule from the top coefficient `a` down through the lower ones `cs`, listed from the
top: the lower coefficients are `cs.reverse`. -/
theorem foldl_horner (x a : R) (cs : List R) :
    cs.reverse.foldl (fun s c => s * x + c) a = (ofCoeffs (cs ++ [a])).eval x := by
  induction cs generalizing a with
  | nil => simp
  | cons c cs ih =>
    simp only [List.reverse_cons, List.foldl_append, ih, List.foldl_cons, List.foldl_nil,
      List.cons_append, ofCoeffs_cons, eval_add, eval_C, eval_mul, eval_X,
      eval_ofCoeffs_append_singleton]
    ring

end Coeffs

section Module

variable {R M : Type*} [CommRing R] [AddCommGroup M] [Module R M]

/-- The points `cs` as the coefficients of a polynomial, evaluated at `x`. -/
def evalPoints (x : R) : List M → M
  | [] => 0
  | c :: cs => c + x • evalPoints x cs

/-- Horner's rule on points from the top point `a` down through `cs`, listed from the top. -/
theorem foldl_horner_smul (x : R) (a : M) (cs : List M) :
    cs.reverse.foldl (fun s c => x • s + c) a = evalPoints x (cs ++ [a]) := by
  induction cs generalizing a with
  | nil => simp [evalPoints]
  | cons c cs ih =>
    simp only [List.reverse_cons, List.foldl_append, ih, List.foldl_cons, List.foldl_nil,
      List.cons_append, evalPoints]
    exact add_comm _ _

/-- The points `c • g` of a polynomial's coefficients `c` evaluate to its value times `g`. -/
theorem evalPoints_map_smul (x : R) (g : M) (cs : List R) :
    evalPoints x (cs.map (· • g)) = (ofCoeffs cs).eval x • g := by
  induction cs with
  | nil => simp [evalPoints]
  | cons c cs ih => simp [evalPoints, ih, add_smul, mul_smul]

end Module

section Loops

/-- A loop over the indices below `k` that multiplies at every index other than `i`. -/
theorem foldl_range_ne_mul {M : Type*} [CommMonoid M] (k i : ℕ) (a : ℕ → M) (init : M) :
    (List.range k).foldl (fun acc j => if j ≠ i then acc * a j else acc) init =
      init * ∏ j ∈ (range k).erase i, a j := by
  rw [← filter_ne', prod_filter]
  induction k with
  | zero => simp
  | succ k ih =>
    rw [List.range_succ, List.foldl_append, ih, prod_range_succ, List.foldl_cons, List.foldl_nil]
    split_ifs <;> simp [mul_assoc]

/-- A loop over the indices below `k` that adds at every index. -/
theorem foldl_range_add {M : Type*} [AddCommMonoid M] (k : ℕ) (a : ℕ → M) (init : M) :
    (List.range k).foldl (fun acc j => acc + a j) init = init + ∑ j ∈ range k, a j := by
  induction k with
  | zero => simp
  | succ k ih =>
    rw [List.range_succ, List.foldl_append, ih, sum_range_succ, List.foldl_cons, List.foldl_nil,
      add_assoc]

/-- A loop over the indices below `k` that takes the term at index zero as the sum so far and
adds the later ones to it. -/
theorem foldl_range_first_add {M : Type*} [AddCommMonoid M] (a : ℕ → M) :
    ∀ {k : ℕ}, 0 < k → (List.range k).foldl
      (fun sum j => if j = 0 then some (a j) else sum.map (· + a j)) none =
        some (∑ j ∈ range k, a j)
  | 0, hk => absurd hk (lt_irrefl 0)
  | 1, _ => by simp
  | k + 2, _ => by
    rw [List.range_succ, List.foldl_append, foldl_range_first_add a (Nat.succ_pos k),
      sum_range_succ _ (k + 1)]
    simp

end Loops

section Lagrange

variable {F : Type*} [Field F] {ι : Type*} [DecidableEq ι]

/-- The weight of node `i` in the value at `t` of the polynomial through the nodes `v` of `s`. -/
def weight (s : Finset ι) (v : ι → F) (t : F) (i : ι) : F :=
  ∏ j ∈ s.erase i, (v j - t) / (v j - v i)

theorem eval_basis (s : Finset ι) (v : ι → F) (t : F) (i : ι) :
    (Lagrange.basis s v i).eval t = weight s v t i := by
  rw [Lagrange.basis, eval_prod, weight]
  refine prod_congr rfl fun j _ => ?_
  rw [Lagrange.basisDivisor, eval_mul, eval_C, eval_sub, eval_X, eval_C, ← neg_sub (v j) (v i),
    inv_neg, div_eq_mul_inv]
  ring

/-- Lagrange interpolation: through nodes distinct on `s`, a polynomial of degree below their
number takes at `t` the weighted sum of its values at the nodes. -/
theorem eval_eq_sum_weight {s : Finset ι} {v : ι → F} {f : F[X]} (hinj : Set.InjOn v s)
    (hdeg : f.degree < s.card) (t : F) :
    f.eval t = ∑ i ∈ s, f.eval (v i) * weight s v t i := by
  conv_lhs => rw [Lagrange.eq_interpolate hinj hdeg]
  simp only [Lagrange.interpolate_apply, eval_finsetSum, eval_mul, eval_C, eval_basis]

/-- Two polynomials of degree below the number of distinct nodes that agree on them are equal. -/
theorem eq_of_eval_eq {s : Finset ι} {v : ι → F} {f g : F[X]} (hinj : Set.InjOn v s)
    (hf : f.degree < s.card) (hg : g.degree < s.card) (h : ∀ i ∈ s, f.eval (v i) = g.eval (v i)) :
    f = g := by
  rw [Lagrange.eq_interpolate hinj hf]
  exact (Lagrange.eq_interpolate_of_eval_eq _ hinj hg fun i hi => (h i hi).symm).symm

end Lagrange

end Interp
