import Mathlib

/-!
# Draining a queue of chunks into a buffer

A reader that needs `n` elements takes whole chunks off the front of a queue and writes each into
its buffer until the buffer holds `n` or the queue is empty (`gather`).  Whatever the chunks, no
element is lost or read twice: the buffer and the queue left hold together what the buffer and
the queue held before (`gather_content`).  When there were `n` in all, the buffer ends with at
least `n` (`gather_enough`).
-/

namespace ChunkQueue

variable {α β γ : Type*} (content : β → List α) (chunk : γ → List α) (write : β → List α → β)

/-- Take chunks off the queue into `acc` while it holds fewer than `n`; an empty chunk is
dropped. -/
def gather (n : ℕ) : β → List γ → β × List γ
  | acc, [] => (acc, [])
  | acc, c :: q =>
    if (content acc).length < n then
      gather n (if (chunk c).length > 0 then write acc (chunk c) else acc) q
    else (acc, c :: q)

@[simp] theorem gather_nil (n : ℕ) (acc : β) : gather content chunk write n acc [] = (acc, []) :=
  rfl

theorem gather_cons (n : ℕ) (acc : β) (c : γ) (q : List γ) :
    gather content chunk write n acc (c :: q) =
      if (content acc).length < n then
        gather content chunk write n (if (chunk c).length > 0 then write acc (chunk c) else acc) q
      else (acc, c :: q) :=
  rfl

variable {content chunk write}

section Write

-- a write appends to the buffer's content
variable (hwrite : ∀ b p, content (write b p) = content b ++ p)
include hwrite

/-- One chunk taken off the queue: the buffer's content and the rest of the queue hold what the
buffer and the queue held. -/
theorem content_take_chunk (acc : β) (c : γ) (q : List γ) :
    content (if (chunk c).length > 0 then write acc (chunk c) else acc) ++ (q.map chunk).flatten =
      content acc ++ ((c :: q).map chunk).flatten := by
  rw [List.map_cons, List.flatten_cons]
  split_ifs with hpos
  · rw [hwrite, List.append_assoc]
  · have hnil : chunk c = [] := List.length_eq_zero_iff.mp (by omega)
    rw [hnil, List.nil_append]

/-- Nothing is lost or read twice. -/
theorem gather_content (n : ℕ) (acc : β) (q : List γ) :
    content (gather content chunk write n acc q).1 ++
        ((gather content chunk write n acc q).2.map chunk).flatten =
      content acc ++ (q.map chunk).flatten := by
  induction q generalizing acc with
  | nil => rfl
  | cons c q ih =>
    by_cases hlt : (content acc).length < n
    · rw [gather_cons, if_pos hlt, ih, content_take_chunk hwrite]
    · rw [gather_cons, if_neg hlt]

/-- With `n` elements in all, the buffer ends with at least `n`. -/
theorem gather_enough {n : ℕ} {acc : β} {q : List γ}
    (h : n ≤ (content acc ++ (q.map chunk).flatten).length) :
    n ≤ (content (gather content chunk write n acc q).1).length := by
  induction q generalizing acc with
  | nil => simpa using h
  | cons c q ih =>
    by_cases hlt : (content acc).length < n
    · rw [gather_cons, if_pos hlt]
      exact ih (by rw [content_take_chunk hwrite]; exact h)
    · rw [gather_cons, if_neg hlt]
      exact Nat.le_of_not_lt hlt

end Write

end ChunkQueue
