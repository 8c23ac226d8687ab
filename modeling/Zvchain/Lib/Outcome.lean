import Mathlib

/-!
# Outcomes of a function that returns an error or panics

A Go function returns a value or an error, and it may panic instead of returning.  `Outcome`
keeps the three apart; as a monad it stops at the first error or panic, which is how a
sequence of checks that return early reads.
-/

/-- A value, a returned error, or a panic, each error and panic with its message. -/
inductive Outcome (α : Type) where
  | ok (a : α)
  | error (msg : String)
  | panic (msg : String)
  deriving DecidableEq, Repr

namespace Outcome

variable {α β : Type}

/-- Continue with the value; an error or a panic ends the computation. -/
def bind : Outcome α → (α → Outcome β) → Outcome β
  | ok a, f => f a
  | error m, _ => error m
  | panic m, _ => panic m

instance : Monad Outcome where
  pure := ok
  bind := bind

/-- Whether the computation panicked. -/
def IsPanic : Outcome α → Bool
  | panic _ => true
  | _ => false

/-- Dereferencing a pointer that may be nil. -/
def deref : Option α → Outcome α
  | some a => ok a
  | none => panic "runtime error: invalid memory address or nil pointer dereference"

/-- `xs[i]` on a slice. -/
def index (xs : List α) (i : ℕ) : Outcome α :=
  match xs[i]? with
  | some a => ok a
  | none => panic "runtime error: index out of range"

/-- `xs[lo:hi]` on a slice whose capacity is its length. -/
def slice (xs : List α) (lo hi : ℕ) : Outcome (List α) :=
  if lo ≤ hi ∧ hi ≤ xs.length then ok ((xs.drop lo).take (hi - lo))
  else panic "runtime error: slice bounds out of range"

/-- A result of a function that returns an error and never panics. -/
def ofExcept : Except String α → Outcome α
  | .ok a => ok a
  | .error m => error m

/-- Unsigned 64-bit division. -/
def div (a b : UInt64) : Outcome UInt64 :=
  if b = 0 then panic "runtime error: integer divide by zero" else ok (a / b)

@[simp] theorem pure_eq (a : α) : (pure a : Outcome α) = ok a := rfl

@[simp] theorem ok_bind (a : α) (f : α → Outcome β) : (ok a >>= f) = f a := rfl

@[simp] theorem error_bind (m : String) (f : α → Outcome β) : (error m >>= f) = error m := rfl

@[simp] theorem panic_bind (m : String) (f : α → Outcome β) : (panic m >>= f) = panic m := rfl

@[simp] theorem isPanic_ok (a : α) : (ok a).IsPanic = false := rfl

@[simp] theorem isPanic_error (m : String) : (error m : Outcome α).IsPanic = false := rfl

@[simp] theorem isPanic_panic (m : String) : (panic m : Outcome α).IsPanic = true := rfl

/-- A computation panics when its first part panics, or when that part returns and the rest
panics. -/
theorem isPanic_bind {x : Outcome α} {f : α → Outcome β} (h : (x >>= f).IsPanic = true) :
    x.IsPanic = true ∨ ∃ a, x = ok a ∧ (f a).IsPanic = true := by
  cases x with
  | ok a => exact Or.inr ⟨a, rfl, h⟩
  | error m => simp at h
  | panic m => exact Or.inl rfl

/-- A computation does not panic when its first part does not and no value that part returns
makes the rest panic; as a simp lemma it takes a chain of checks apart. -/
@[simp] theorem isPanic_bind_eq_false_iff {x : Outcome α} {f : α → Outcome β} :
    (x >>= f).IsPanic = false ↔ x.IsPanic = false ∧ ∀ a, x = ok a → (f a).IsPanic = false := by
  cases x with
  | ok a => simp
  | error m => simp
  | panic m => simp

@[simp] theorem isPanic_ite (c : Prop) [Decidable c] (x y : Outcome α) :
    (if c then x else y).IsPanic = if c then x.IsPanic else y.IsPanic := by
  split <;> rfl

@[simp] theorem isPanic_pure (a : α) : (pure a : Outcome α).IsPanic = false := rfl

@[simp] theorem isPanic_ofExcept (x : Except String α) : (ofExcept x).IsPanic = false := by
  cases x <;> rfl

@[simp] theorem ofExcept_ok (a : α) : ofExcept (.ok a : Except String α) = ok a := rfl

@[simp] theorem ofExcept_error (m : String) : ofExcept (.error m : Except String α) = error m := rfl

theorem ofExcept_eq_ok {x : Except String α} {a : α} : ofExcept x = ok a ↔ x = .ok a := by
  cases x <;> simp [ofExcept]

/-- A computation does not return `b` when no value of its first part makes the rest return `b`;
an error or a panic of the first part never returns. -/
theorem bind_ne_ok {x : Outcome α} {f : α → Outcome β} {b : β} (h : ∀ a, x = ok a → f a ≠ ok b) :
    x >>= f ≠ ok b := by
  cases x with
  | ok a => exact h a rfl
  | error m => simp
  | panic m => simp

@[simp] theorem deref_some (a : α) : deref (some a) = ok a := rfl

theorem index_of_lt {xs : List α} {i : ℕ} (h : i < xs.length) : index xs i = ok xs[i] := by
  simp [index, List.getElem?_eq_getElem h]

theorem index_eq_ok {xs : List α} {i : ℕ} {a : α} : index xs i = ok a ↔ xs[i]? = some a := by
  unfold index
  cases xs[i]? <;> simp

theorem bind_eq_ok {x : Outcome α} {f : α → Outcome β} {b : β} :
    (x >>= f) = ok b ↔ ∃ a, x = ok a ∧ f a = ok b := by
  cases x <;> simp

theorem slice_of_le {xs : List α} {lo hi : ℕ} (hlo : lo ≤ hi) (hhi : hi ≤ xs.length) :
    slice xs lo hi = ok ((xs.drop lo).take (hi - lo)) := by
  rw [slice, if_pos ⟨hlo, hhi⟩]

theorem slice_of_length_lt {xs : List α} {lo hi : ℕ} (h : xs.length < hi) :
    slice xs lo hi = panic "runtime error: slice bounds out of range" := by
  rw [slice, if_neg (fun h' => by omega)]

theorem index_eq_getD {xs : List α} {i : ℕ} (h : i < xs.length) (d : α) :
    index xs i = ok (xs.getD i d) := by
  rw [index_of_lt h, List.getD_eq_getElem _ _ h]

instance : LawfulMonad Outcome :=
  LawfulMonad.mk' Outcome (fun x => by cases x <;> rfl) (fun _ _ => rfl)
    (fun x _ _ => by cases x <;> rfl)

/-! ## Loops whose steps do not fail -/

/-- A loop whose every step returns is the loop of the returned values. -/
theorem foldlM_eq_ok {γ : Type} {f : β → γ → Outcome β} {g : β → γ → β} {l : List γ}
    (h : ∀ b, ∀ a ∈ l, f b a = ok (g b a)) (init : β) : l.foldlM f init = ok (l.foldl g init) := by
  induction l generalizing init with
  | nil => rfl
  | cons a l ih =>
    rw [List.foldlM_cons, h init a List.mem_cons_self, ok_bind, List.foldl_cons]
    exact ih (fun b a' ha' => h b a' (List.mem_cons_of_mem _ ha')) _

/-- Mapping a function that returns on every element returns the list of its values. -/
theorem mapM_eq_ok {γ : Type} {f : γ → Outcome β} {g : γ → β} {l : List γ}
    (h : ∀ a ∈ l, f a = ok (g a)) : l.mapM f = ok (l.map g) := by
  induction l with
  | nil => rfl
  | cons a l ih =>
    rw [List.mapM_cons, h a List.mem_cons_self, ok_bind,
      ih fun a' ha' => h a' (List.mem_cons_of_mem _ ha')]
    rfl

/-- The values a map returns count, for each value, the elements the function returns it for. -/
theorem count_of_mapM_eq_ok [DecidableEq β] {γ : Type} {f : γ → Outcome β} {l : List γ}
    {ys : List β} (h : l.mapM f = ok ys) (b : β) :
    ys.count b = (l.filter fun a => f a = ok b).length := by
  induction l generalizing ys with
  | nil =>
    cases h
    rfl
  | cons a l ih =>
    rw [List.mapM_cons] at h
    obtain ⟨y, hy, h⟩ := bind_eq_ok.mp h
    obtain ⟨ys', hys', h⟩ := bind_eq_ok.mp h
    cases h
    rw [List.count_cons, ih hys', List.filter_cons, hy]
    by_cases hyb : y = b
    · simp [hyb]
    · simp [hyb]

/-- A check over a list that stops at the first false holds when the check of every element
returns true, and only then. -/
theorem allM_eq_ok_true_iff {p : α → Outcome Bool} {l : List α} :
    l.allM p = ok true ↔ ∀ a ∈ l, p a = ok true := by
  induction l with
  | nil => simp
  | cons a l ih =>
    rw [List.allM_cons, List.forall_mem_cons, ← ih]
    rcases p a with (_ | _) | m | m <;> simp

/-! ## Loops that stop at the first error -/

/-- Go on with the value; an error, a panic or the end of the fuel (`none`) is passed on. -/
def andThen (r : Option (Outcome α)) (f : α → Option (Outcome β)) : Option (Outcome β) :=
  match r with
  | some (ok a) => f a
  | some (error m) => some (error m)
  | some (panic m) => some (panic m)
  | none => none

@[simp] theorem andThen_ok (a : α) (f : α → Option (Outcome β)) :
    andThen (some (ok a)) f = f a :=
  rfl

theorem andThen_eq_ok {r : Option (Outcome α)} {f : α → Option (Outcome β)} {b : β} :
    andThen r f = some (ok b) ↔ ∃ a, r = some (ok a) ∧ f a = some (ok b) := by
  rcases r with _ | (a | m | m) <;> simp [andThen]

theorem andThen_stopped {r : Option (Outcome β)} (hr : ∀ b, r ≠ some (ok b))
    (f : β → Option (Outcome β)) : andThen r f = r := by
  rcases r with _ | (b | m | m)
  · rfl
  · exact absurd rfl (hr b)
  · rfl
  · rfl

section StopLoop

variable {γ : Type} {F : Option (Outcome β) → γ → Option (Outcome β)}

/-- A loop whose body passes on anything but a value ends with what it was passed. -/
theorem foldl_of_stopped (hF : ∀ r a, (∀ b, r ≠ some (ok b)) → F r a = r) (l : List γ)
    {r : Option (Outcome β)} (hr : ∀ b, r ≠ some (ok b)) : l.foldl F r = r := by
  induction l with
  | nil => rfl
  | cons a l ih => rw [List.foldl_cons, hF r a hr, ih]

/-- When a loop whose body passes on anything but a value ends with a value, each element ran
from a value to a value, and each run, as the whole loop, keeps any reflexive and transitive
relation that every run keeps. -/
theorem foldl_ok_steps (hF : ∀ r a, (∀ b, r ≠ some (ok b)) → F r a = r) (R : β → β → Prop)
    (hrefl : ∀ b, R b b) (htrans : ∀ a b c, R a b → R b c → R a c) {l : List γ}
    (hstep : ∀ b a b', a ∈ l → F (some (ok b)) a = some (ok b') → R b b') {b b' : β}
    (h : l.foldl F (some (ok b)) = some (ok b')) :
    R b b' ∧ ∀ a ∈ l, ∃ b₁ b₂, R b b₁ ∧ F (some (ok b₁)) a = some (ok b₂) ∧ R b₂ b' := by
  induction l generalizing b with
  | nil =>
    cases h
    exact ⟨hrefl _, fun a ha => by cases ha⟩
  | cons a l ih =>
    rw [List.foldl_cons] at h
    by_cases hr : ∃ b₁, F (some (ok b)) a = some (ok b₁)
    · obtain ⟨b₁, hb₁⟩ := hr
      rw [hb₁] at h
      have hab₁ := hstep b a b₁ List.mem_cons_self hb₁
      obtain ⟨hrest, heach⟩ := ih (fun c a' c' ha' => hstep c a' c' (List.mem_cons_of_mem a ha')) h
      refine ⟨htrans _ _ _ hab₁ hrest, fun a' ha' => ?_⟩
      rcases List.mem_cons.mp ha' with rfl | ha'
      · exact ⟨b, b₁, hrefl b, hb₁, hrest⟩
      · obtain ⟨c₁, c₂, h₁, hc, h₂⟩ := heach a' ha'
        exact ⟨c₁, c₂, htrans _ _ _ hab₁ h₁, hc, h₂⟩
    · -- the first run stopped, and the loop passes the stop on
      have hstop : ∀ b₁, F (some (ok b)) a ≠ some (ok b₁) := fun b₁ h₁ => hr ⟨b₁, h₁⟩
      rw [foldl_of_stopped hF l hstop] at h
      exact absurd h (hstop b')

/-- A loop of steps that each return, from a value with `Inv`, a value with `Inv` returns one. -/
theorem foldl_andThen_inv (Inv : β → Prop) {step : γ → β → Option (Outcome β)} {l : List γ}
    (hstep : ∀ a ∈ l, ∀ b, Inv b → ∃ b', step a b = some (ok b') ∧ Inv b') :
    ∀ {b}, Inv b →
      ∃ b', l.foldl (fun r a => andThen r (step a)) (some (ok b)) = some (ok b') ∧ Inv b' := by
  induction l with
  | nil =>
    intro b hb
    exact ⟨b, rfl, hb⟩
  | cons a l ih =>
    intro b hb
    obtain ⟨b₁, hb₁, hinv⟩ := hstep a List.mem_cons_self b hb
    simp only [List.foldl_cons, andThen_ok, hb₁]
    exact ih (fun a' ha' => hstep a' (List.mem_cons_of_mem a ha')) hinv

end StopLoop

end Outcome
