import Mathlib

/-!
# Big-endian numbers in bytes, and reading from a byte stream

`binary.BigEndian` writes a number most significant byte first; `ofBE` reads such a run back.
`read` is the `Read` method of a reader over a byte slice: at the end of the input it reports
end of file, and otherwise it overwrites as much of the caller's buffer as the input fills and
moves on by as many bytes.  The buffer is the caller's: a short read leaves the tail of the
buffer as it was.
-/

namespace Bytes

/-- The low `n` bytes of `x`, most significant first. -/
def toBE : ℕ → ℕ → List UInt8
  | 0, _ => []
  | n + 1, x => toBE n (x / 256) ++ [UInt8.ofNat (x % 256)]

/-- The number a run of bytes spells, most significant first. -/
def ofBE (bs : List UInt8) : ℕ := bs.foldl (fun acc b => acc * 256 + b.toNat) 0

@[simp] theorem length_toBE (n x : ℕ) : (toBE n x).length = n := by
  induction n generalizing x with
  | zero => rfl
  | succ n ih => simp [toBE, ih]

@[simp] theorem ofBE_nil : ofBE [] = 0 := rfl

theorem ofBE_append_singleton (bs : List UInt8) (b : UInt8) :
    ofBE (bs ++ [b]) = ofBE bs * 256 + b.toNat := by
  simp only [ofBE, List.foldl_append, List.foldl_cons, List.foldl_nil]

/-- Written in `n` bytes and read back, a number keeps its low `n` bytes. -/
theorem ofBE_toBE (n x : ℕ) : ofBE (toBE n x) = x % 256 ^ n := by
  induction n generalizing x with
  | zero => simp [toBE, Nat.mod_one]
  | succ n ih =>
    have hbyte : x % 256 % 2 ^ 8 = x % 256 := Nat.mod_eq_of_lt (by omega)
    rw [toBE, ofBE_append_singleton, ih, UInt8.toNat_ofNat', hbyte]
    -- the low byte, and 256 times the rest
    have hsplit : x % (256 * 256 ^ n) = x % 256 + 256 * (x / 256 % 256 ^ n) := Nat.mod_mul
    rw [pow_succ' 256 n, hsplit]
    omega

theorem ofBE_toBE_of_lt {n x : ℕ} (h : x < 256 ^ n) : ofBE (toBE n x) = x := by
  rw [ofBE_toBE, Nat.mod_eq_of_lt h]

/-- `bytes.Reader.Read(buf)` on the unread input `rest`: `none` is `io.EOF`; otherwise the count
of bytes read, the buffer after the copy, and the input left. -/
def read (buf rest : List UInt8) : Option (ℕ × List UInt8 × List UInt8) :=
  if rest = [] then none
  else some (min buf.length rest.length, rest.take buf.length ++ buf.drop rest.length,
    rest.drop buf.length)

/-- `bytes.Reader.ReadByte`. -/
def readByte : List UInt8 → Option (UInt8 × List UInt8)
  | [] => none
  | b :: rest => some (b, rest)

/-- A read into a buffer that the input fills takes the buffer's length of bytes off the front. -/
theorem read_append {buf front back : List UInt8} (hlen : front.length = buf.length)
    (hne : front ≠ []) : read buf (front ++ back) = some (buf.length, front, back) := by
  have hfb : front ++ back ≠ [] := by simp [hne]
  have hle : buf.length ≤ (front ++ back).length := by simp [hlen]
  rw [read, if_neg hfb, min_eq_left hle, ← hlen, List.take_left' rfl, List.drop_left' rfl,
    List.drop_eq_nil_of_le (by rw [List.length_append]; omega), List.append_nil]

/-- A read that takes bytes leaves less input. -/
theorem read_rest_length {buf rest buf' rest' : List UInt8} {n : ℕ}
    (h : read buf rest = some (n, buf', rest')) (hn : 0 < n) : rest'.length < rest.length := by
  unfold read at h
  split_ifs at h with hr
  simp only [Option.some.injEq, Prod.mk.injEq] at h
  obtain ⟨rfl, -, rfl⟩ := h
  simp only [List.length_drop]
  omega

/-- `io.ReadFull` of `n` bytes from the unread input `rest`: the bytes and the input left; `EOF`
when the input is empty and `unexpected EOF` when it ends inside the `n` bytes.  No byte is
needed for `n = 0`. -/
def readFull (n : ℕ) (rest : List UInt8) : Except String (List UInt8 × List UInt8) :=
  if n ≤ rest.length then .ok (rest.take n, rest.drop n)
  else if rest = [] then .error "EOF" else .error "unexpected EOF"

theorem readFull_append {n : ℕ} {front back : List UInt8} (hlen : front.length = n) :
    readFull n (front ++ back) = .ok (front, back) := by
  have hle : n ≤ (front ++ back).length := by simp [hlen]
  rw [readFull, if_pos hle, ← hlen, List.take_left' rfl, List.drop_left' rfl]

theorem length_of_readFull {n : ℕ} {rest bs rest' : List UInt8}
    (h : readFull n rest = .ok (bs, rest')) : bs.length = n := by
  unfold readFull at h
  split_ifs at h with hle
  · cases h
    exact List.length_take_of_le hle

end Bytes
