import Zvchain.Core.Rewards
import Zvchain.Types.Block
import Zvchain.Lib.Outcome

/-!
# Block bodies (`core/tx_codec.go`) and the size check of `validateBlock`

A block's transactions are stored as the codec version, the count of transactions, the length of
each transaction's encoding, and then the encodings one after the other; every number takes two
bytes, cut to `uint16` by the encoder.  The decoders read the lengths into a buffer of
`txNum * 2` bytes, a product again in `uint16`: from 32768 transactions on the buffer is shorter
than the lengths, and the loop slices past its end before it has read every transaction.

Transactions are encoded with msgpack, which is not modelled: `marshalTx` and `unmarshalTx` are
parameters, and the round trip assumes only that decoding an encoding gives the transaction back.

`validateBlock` bounds the sum of `Size()` over a block's transactions, and every transaction
counts at least `txFixSize` bytes, so a valid block has at most 5242 transactions.
-/

namespace Zvchain

def codecVersion : ℕ := 1

def txFixSize : ℕ := 200

def txAccumulateSizeMaxPerBlock : ℕ := 1024 * 1024

/-- `RawTransaction.Size`: the data, the extra data and a fixed part. -/
def RawTransaction.Size {Address : Type} (tx : RawTransaction Address) : ℕ :=
  txFixSize + tx.data.length + tx.extraData.length

section Codec

variable {Address : Type} (marshalTx : RawTransaction Address → Except String (List UInt8))
  (unmarshalTx : List UInt8 → Except String (RawTransaction Address))

/-- The loop of `encodeBlockTransactions`: the `uint16` length of each encoding to `dataBuf`, the
encoding to `txBuf`. -/
def writeTxs : List (RawTransaction Address) → List UInt8 → List UInt8 →
    Except String (List UInt8 × List UInt8)
  | [], dataBuf, txBuf => pure (dataBuf, txBuf)
  | tx :: txs, dataBuf, txBuf => do
    let txBytes ← marshalTx tx
    writeTxs txs (dataBuf ++ UInt16ToByte (UInt16.ofNat txBytes.length)) (txBuf ++ txBytes)

/-- `encodeBlockTransactions`. -/
def encodeBlockTransactions (b : Block Address) : Except String (List UInt8) :=
  let dataBuf := UInt16ToByte (UInt16.ofNat codecVersion) ++
    UInt16ToByte (UInt16.ofNat b.transactions.length)
  if b.transactions.length > 0 then do
    let (dataBuf, txBuf) ← writeTxs marshalTx b.transactions dataBuf []
    pure (dataBuf ++ txBuf)
  else pure dataBuf

/-- The loop of `decodeBlockTransactions` with `k` rounds left from round `i`: the length of
transaction `i` from `lenBytes[2*i : 2*(i+1)]`, then as many bytes of the input. -/
def readTxs (lenBytes : List UInt8) : ℕ → ℕ → List UInt8 → List (RawTransaction Address) →
    Outcome (List (RawTransaction Address))
  | 0, _, _, txs => pure txs
  | k + 1, i, rest, txs => do
    let lb ← Outcome.slice lenBytes (2 * i) (2 * (i + 1))
    let (txBytes, rest) ← Outcome.ofExcept (Bytes.readFull (ByteToUInt16 lb).toNat rest)
    let tx ← Outcome.ofExcept (unmarshalTx txBytes)
    readTxs lenBytes k (i + 1) rest (txs ++ [tx])

/-- `decodeBlockTransactions`. -/
def decodeBlockTransactions (data : List UInt8) : Outcome (List (RawTransaction Address)) :=
  if data.length = 0 then .error "data is empty"
  else do
    let (twoBytes, rest) ← Outcome.ofExcept (Bytes.readFull 2 data)
    if ByteToUInt16 twoBytes ≠ UInt16.ofNat codecVersion then .error "version error"
    else
      let (twoBytes, rest) ← Outcome.ofExcept (Bytes.readFull 2 rest)
      let txNum := ByteToUInt16 twoBytes
      if txNum = 0 then pure []
      else
        let (lenBytes, rest) ← Outcome.ofExcept (Bytes.readFull (txNum * 2).toNat rest)
        readTxs unmarshalTx lenBytes txNum.toNat 0 rest []

/-- The loop of `decodeTransaction` with `k` rounds left from round `i`: it skips the encodings
before `idx` and decodes the one at `idx`. -/
def findTx (idx : ℤ) (lenBytes : List UInt8) : ℕ → ℕ → List UInt8 →
    Outcome (RawTransaction Address)
  | 0, _, _ => .error "tx not found"
  | k + 1, i, rest => do
    let lb ← Outcome.slice lenBytes (2 * i) (2 * (i + 1))
    let (txBytes, rest) ← Outcome.ofExcept (Bytes.readFull (ByteToUInt16 lb).toNat rest)
    if idx = i then Outcome.ofExcept (unmarshalTx txBytes)
    else findTx idx lenBytes k (i + 1) rest

/-- `decodeTransaction`. -/
def decodeTransaction (idx : ℤ) (data : List UInt8) : Outcome (RawTransaction Address) :=
  if data.length = 0 then .error "data is empty"
  else do
    let (twoBytes, rest) ← Outcome.ofExcept (Bytes.readFull 2 data)
    if ByteToUInt16 twoBytes ≠ UInt16.ofNat codecVersion then .error "version error"
    else
      let (twoBytes, rest) ← Outcome.ofExcept (Bytes.readFull 2 rest)
      let txNum := ByteToUInt16 twoBytes
      if txNum = 0 then .error "txNum is zero"
      else
        let (lenBytes, rest) ← Outcome.ofExcept (Bytes.readFull (txNum * 2).toNat rest)
        findTx unmarshalTx idx lenBytes txNum.toNat 0 rest

end Codec

/-- `FullBlockChain.validateBlock`, with what it asks the chain as parameters: whether the parent
is stored, the comparison of the local top with the block (`compareChainWeight`), and the group's
verification of the header (`consensusVerifyBlock`).  A block whose parent is missing is also
handed to `processFutureBlock`, which is left out. -/
def validateBlock {Address : Type} (hasBlock : Hash → Bool)
    (compareChainWeight : BlockHeader → Ordering)
    (consensusVerifyBlock : BlockHeader → Except String Unit) (b : Block Address) :
    Except String Bool :=
  if !hasBlock b.header.preHash then .error "pre block not exist"
  else if compareChainWeight b.header = .gt then .error "local more weight"
  else
    let blockSize := (b.transactions.map RawTransaction.Size).sum
    if blockSize > txAccumulateSizeMaxPerBlock then .error "block size exceed the limit"
    else
      match consensusVerifyBlock b.header with
      | .ok () => .ok true
      | .error _ => .error "consensus verify fail, err=%v"

/-! ## The stored layout reads back -/

section Layout

variable {Address : Type} (marshalTx : RawTransaction Address → Except String (List UInt8))
  (unmarshalTx : List UInt8 → Except String (RawTransaction Address))

/-- One round of the encoder's loop. -/
theorem writeTxs_cons (tx : RawTransaction Address) (txs : List (RawTransaction Address))
    (dataBuf txBuf : List UInt8) :
    writeTxs marshalTx (tx :: txs) dataBuf txBuf = (marshalTx tx >>= fun txBytes =>
      writeTxs marshalTx txs (dataBuf ++ UInt16ToByte (UInt16.ofNat txBytes.length))
        (txBuf ++ txBytes)) :=
  rfl

/-- One round of the decoder's loop. -/
theorem readTxs_succ (lenBytes : List UInt8) (k i : ℕ) (rest : List UInt8)
    (txs : List (RawTransaction Address)) :
    readTxs unmarshalTx lenBytes (k + 1) i rest txs = (do
      let lb ← Outcome.slice lenBytes (2 * i) (2 * (i + 1))
      let (txBytes, rest) ← Outcome.ofExcept (Bytes.readFull (ByteToUInt16 lb).toNat rest)
      let tx ← Outcome.ofExcept (unmarshalTx txBytes)
      readTxs unmarshalTx lenBytes k (i + 1) rest (txs ++ [tx])) :=
  rfl

/-- The lengths of the encodings as the encoder writes them, two bytes each. -/
def lengthsOf (encs : List (List UInt8)) : List UInt8 :=
  (encs.map fun e => UInt16ToByte (UInt16.ofNat e.length)).flatten

@[simp] theorem lengthsOf_nil : lengthsOf [] = [] := rfl

@[simp] theorem lengthsOf_cons (e : List UInt8) (encs : List (List UInt8)) :
    lengthsOf (e :: encs) = UInt16ToByte (UInt16.ofNat e.length) ++ lengthsOf encs := rfl

@[simp] theorem lengthsOf_append (encs encs' : List (List UInt8)) :
    lengthsOf (encs ++ encs') = lengthsOf encs ++ lengthsOf encs' := by
  simp [lengthsOf]

@[simp] theorem length_uInt16ToByte (i : UInt16) : (UInt16ToByte i).length = 2 :=
  Bytes.length_toBE 2 _

@[simp] theorem length_lengthsOf (encs : List (List UInt8)) :
    (lengthsOf encs).length = 2 * encs.length := by
  induction encs with
  | nil => rfl
  | cons e encs ih =>
    rw [lengthsOf_cons, List.length_append, ih, length_uInt16ToByte, List.length_cons]
    omega

theorem toNat_byteToUInt16_length {e : List UInt8} (he : e.length < 65536) :
    (ByteToUInt16 (UInt16ToByte (UInt16.ofNat e.length))).toNat = e.length := by
  rw [byteToUInt16_uInt16ToByte, UInt16.toNat_ofNat_of_lt' he]

/-- Round `pre.length` of either decoder slices out the length of the encoding after `pre`. -/
theorem slice_lengthsOf (pre post : List (List UInt8)) (e : List UInt8) :
    Outcome.slice (lengthsOf (pre ++ e :: post)) (2 * pre.length) (2 * (pre.length + 1)) =
      .ok (UInt16ToByte (UInt16.ofNat e.length)) := by
  have hpre := length_lengthsOf pre
  have hhi : 2 * (pre.length + 1) ≤ (lengthsOf (pre ++ e :: post)).length := by
    simp only [length_lengthsOf, List.length_append, List.length_cons]
    omega
  rw [Outcome.slice_of_le (by omega) hhi, lengthsOf_append, lengthsOf_cons, List.drop_left' hpre,
    show 2 * (pre.length + 1) - 2 * pre.length = 2 by omega,
    List.take_left' (length_uInt16ToByte _)]

/-- The rounds of `decodeBlockTransactions` over encodings that follow `pre` decode each of them. -/
theorem readTxs_lengthsOf {post : List (List UInt8)} {txs : List (RawTransaction Address)}
    (hdec : List.Forall₂ (fun e tx => unmarshalTx e = .ok tx) post txs)
    (hlen : ∀ e ∈ post, e.length < 65536) (pre : List (List UInt8)) (tail : List UInt8)
    (acc : List (RawTransaction Address)) :
    readTxs unmarshalTx (lengthsOf (pre ++ post)) post.length pre.length (post.flatten ++ tail)
      acc = .ok (acc ++ txs) := by
  induction hdec generalizing pre acc with
  | nil => simp [readTxs]
  | @cons e tx post txs he _ ih =>
    have hlen' : ∀ e' ∈ post, e'.length < 65536 := fun e' h => hlen e' (List.mem_cons_of_mem e h)
    rw [List.length_cons, List.flatten_cons, List.append_assoc, readTxs_succ, slice_lengthsOf,
      Outcome.ok_bind, toNat_byteToUInt16_length (hlen e List.mem_cons_self),
      Bytes.readFull_append rfl, Outcome.ofExcept_ok, Outcome.ok_bind]
    dsimp only
    rw [he, Outcome.ofExcept_ok, Outcome.ok_bind]
    have hnext := ih hlen' (pre ++ [e]) (acc ++ [tx])
    rw [List.append_assoc, List.singleton_append, List.length_append, List.length_singleton]
      at hnext
    rw [hnext, List.append_assoc, List.singleton_append]

/-- The rounds of `decodeTransaction` over encodings that follow `pre` reach the one asked for. -/
theorem findTx_lengthsOf {post : List (List UInt8)} (hlen : ∀ e ∈ post, e.length < 65536)
    (pre : List (List UInt8)) (tail : List UInt8) {j : ℕ} (hj : j < post.length) :
    findTx unmarshalTx ((pre.length + j : ℕ) : ℤ) (lengthsOf (pre ++ post)) post.length
      pre.length (post.flatten ++ tail) = Outcome.ofExcept (unmarshalTx post[j]) := by
  induction post generalizing pre j with
  | nil => simp at hj
  | cons e post ih =>
    rw [List.length_cons, List.flatten_cons, List.append_assoc, findTx, slice_lengthsOf,
      Outcome.ok_bind, toNat_byteToUInt16_length (hlen e List.mem_cons_self),
      Bytes.readFull_append rfl, Outcome.ofExcept_ok, Outcome.ok_bind]
    dsimp only
    cases j with
    | zero => simp
    | succ j =>
      have hnext := ih (fun e' h => hlen e' (List.mem_cons_of_mem e h)) (pre ++ [e])
        (j := j) (by simpa using hj)
      rw [List.append_assoc, List.singleton_append, List.length_append, List.length_singleton]
        at hnext
      rw [if_neg (by omega), show pre.length + (j + 1) = pre.length + 1 + j by omega, hnext,
        List.getElem_cons_succ]

/-- The encoder's loop writes the lengths after `dataBuf` and the encodings after `txBuf`. -/
theorem writeTxs_eq_ok {txs : List (RawTransaction Address)} {encs : List (List UInt8)}
    (henc : List.Forall₂ (fun tx e => marshalTx tx = .ok e) txs encs) (dataBuf txBuf : List UInt8) :
    writeTxs marshalTx txs dataBuf txBuf = .ok (dataBuf ++ lengthsOf encs, txBuf ++ encs.flatten) := by
  induction henc generalizing dataBuf txBuf with
  | nil => simp [writeTxs, pure, Except.pure]
  | @cons tx e txs encs he _ ih =>
    rw [writeTxs_cons, he]
    show writeTxs marshalTx txs _ _ = _
    rw [ih]
    simp

theorem writeTxs_prefix {txs : List (RawTransaction Address)} {dataBuf txBuf d t : List UInt8}
    (h : writeTxs marshalTx txs dataBuf txBuf = .ok (d, t)) : ∃ rest, d = dataBuf ++ rest := by
  induction txs generalizing dataBuf txBuf with
  | nil =>
    cases h
    exact ⟨[], (List.append_nil _).symm⟩
  | cons tx txs ih =>
    rw [writeTxs_cons] at h
    cases he : marshalTx tx with
    | error m =>
      rw [he] at h
      cases h
    | ok txBytes =>
      rw [he] at h
      obtain ⟨rest, hrest⟩ := ih h
      exact ⟨UInt16ToByte (UInt16.ofNat txBytes.length) ++ rest, by rw [hrest, List.append_assoc]⟩

/-- An encoded body starts with the version and the count. -/
theorem encodeBlockTransactions_prefix {b : Block Address} {data : List UInt8}
    (h : encodeBlockTransactions marshalTx b = .ok data) :
    ∃ rest, data = UInt16ToByte (UInt16.ofNat codecVersion) ++
      UInt16ToByte (UInt16.ofNat b.transactions.length) ++ rest := by
  unfold encodeBlockTransactions at h
  dsimp only at h
  split_ifs at h
  · cases hw : writeTxs marshalTx b.transactions (UInt16ToByte (UInt16.ofNat codecVersion) ++
        UInt16ToByte (UInt16.ofNat b.transactions.length)) [] with
    | error m =>
      rw [hw] at h
      cases h
    | ok p =>
      obtain ⟨d, t⟩ := p
      rw [hw] at h
      cases h
      obtain ⟨rest, rfl⟩ := writeTxs_prefix marshalTx hw
      exact ⟨rest ++ t, by simp⟩
  · cases h
    exact ⟨[], (List.append_nil _).symm⟩

theorem encodeBlockTransactions_eq_ok {b : Block Address} {encs : List (List UInt8)}
    (henc : List.Forall₂ (fun tx e => marshalTx tx = .ok e) b.transactions encs)
    (hne : b.transactions ≠ []) :
    encodeBlockTransactions marshalTx b = .ok (UInt16ToByte (UInt16.ofNat codecVersion) ++
      UInt16ToByte (UInt16.ofNat b.transactions.length) ++ lengthsOf encs ++ encs.flatten) := by
  unfold encodeBlockTransactions
  dsimp only
  rw [if_pos (List.length_pos_of_ne_nil hne), writeTxs_eq_ok marshalTx henc]
  show Except.ok (_ ++ _) = _
  simp only [List.append_assoc, List.nil_append]

/-- Behind the version and a count `n` in `(0, 65536)`, `decodeBlockTransactions` reads
`2 * n % 65536` bytes of lengths and runs its loop for `n` rounds. -/
theorem decodeBlockTransactions_header {n : ℕ} (hn0 : 0 < n) (hn : n < 65536)
    (rest : List UInt8) :
    decodeBlockTransactions unmarshalTx (UInt16ToByte (UInt16.ofNat codecVersion) ++
      UInt16ToByte (UInt16.ofNat n) ++ rest) =
      Outcome.ofExcept (Bytes.readFull (2 * n % 65536) rest) >>= fun p =>
        readTxs unmarshalTx p.1 n 0 p.2 [] := by
  have hnum : (UInt16.ofNat n).toNat = n := UInt16.toNat_ofNat_of_lt' hn
  have hne : UInt16.ofNat n ≠ 0 := fun h => by
    rw [h, UInt16.toNat_zero] at hnum
    omega
  have hlen : (UInt16.ofNat n * 2).toNat = 2 * n % 65536 := by
    rw [UInt16.toNat_mul, hnum]
    simp only [UInt16.reduceToNat]
    omega
  unfold decodeBlockTransactions
  rw [if_neg (by simp), List.append_assoc, Bytes.readFull_append (length_uInt16ToByte _),
    Outcome.ofExcept_ok, Outcome.ok_bind]
  dsimp only
  rw [byteToUInt16_uInt16ToByte, if_neg (not_not_intro rfl),
    Bytes.readFull_append (length_uInt16ToByte _), Outcome.ofExcept_ok, Outcome.ok_bind]
  dsimp only
  rw [byteToUInt16_uInt16ToByte, if_neg hne, hlen, hnum]

/-- The same for `decodeTransaction` and its loop. -/
theorem decodeTransaction_header (idx : ℤ) {n : ℕ} (hn0 : 0 < n) (hn : n < 65536)
    (rest : List UInt8) :
    decodeTransaction unmarshalTx idx (UInt16ToByte (UInt16.ofNat codecVersion) ++
      UInt16ToByte (UInt16.ofNat n) ++ rest) =
      Outcome.ofExcept (Bytes.readFull (2 * n % 65536) rest) >>= fun p =>
        findTx unmarshalTx idx p.1 n 0 p.2 := by
  have hnum : (UInt16.ofNat n).toNat = n := UInt16.toNat_ofNat_of_lt' hn
  have hne : UInt16.ofNat n ≠ 0 := fun h => by
    rw [h, UInt16.toNat_zero] at hnum
    omega
  have hlen : (UInt16.ofNat n * 2).toNat = 2 * n % 65536 := by
    rw [UInt16.toNat_mul, hnum]
    simp only [UInt16.reduceToNat]
    omega
  unfold decodeTransaction
  rw [if_neg (by simp), List.append_assoc, Bytes.readFull_append (length_uInt16ToByte _),
    Outcome.ofExcept_ok, Outcome.ok_bind]
  dsimp only
  rw [byteToUInt16_uInt16ToByte, if_neg (not_not_intro rfl),
    Bytes.readFull_append (length_uInt16ToByte _), Outcome.ofExcept_ok, Outcome.ok_bind]
  dsimp only
  rw [byteToUInt16_uInt16ToByte, if_neg hne, hlen, hnum]

end Layout

/-! ## Bodies of fewer than 32768 transactions round-trip -/

section RoundTrip

variable {Address : Type} (marshalTx : RawTransaction Address → Except String (List UInt8))
  (unmarshalTx : List UInt8 → Except String (RawTransaction Address))

/-- A body of fewer than 32768 transactions, each encoded in fewer than 65536 bytes, reads back:
`decodeBlockTransactions` gives every transaction and `decodeTransaction` each one by its index,
as long as decoding an encoding gives the transaction back. -/
theorem decode_encodeBlockTransactions {b : Block Address} {encs : List (List UInt8)}
    (hmsg : ∀ tx e, marshalTx tx = .ok e → unmarshalTx e = .ok tx)
    (henc : List.Forall₂ (fun tx e => marshalTx tx = .ok e) b.transactions encs)
    (hnum : b.transactions.length < 32768) (hlen : ∀ e ∈ encs, e.length < 65536) :
    (Outcome.ofExcept (encodeBlockTransactions marshalTx b) >>=
        decodeBlockTransactions unmarshalTx) = .ok b.transactions ∧
      ∀ i (hi : i < b.transactions.length),
        (Outcome.ofExcept (encodeBlockTransactions marshalTx b) >>=
          decodeTransaction unmarshalTx i) = .ok b.transactions[i] := by
  have hdec : List.Forall₂ (fun e tx => unmarshalTx e = .ok tx) encs b.transactions :=
    List.Forall₂.flip (henc.imp fun tx e h => (hmsg tx e h : unmarshalTx e = .ok tx))
  have hn : encs.length = b.transactions.length := henc.length_eq.symm
  cases htxs : b.transactions with
  | nil =>
    -- an empty body is the two numbers alone
    have hempty : encodeBlockTransactions marshalTx b =
        .ok (UInt16ToByte (UInt16.ofNat codecVersion) ++ UInt16ToByte (UInt16.ofNat 0)) := by
      simp [encodeBlockTransactions, htxs, pure, Except.pure]
    refine ⟨?_, fun i hi => absurd hi (by simp)⟩
    rw [hempty]
    rfl
  | cons tx txs =>
    rw [htxs] at hnum henc hdec hn
    have hlenBytes : 2 * (tx :: txs).length % 65536 = (lengthsOf encs).length := by
      rw [length_lengthsOf, hn]
      omega
    have hbody := encodeBlockTransactions_eq_ok marshalTx (htxs ▸ henc) (by simp [htxs])
    rw [htxs] at hbody
    rw [hbody, Outcome.ofExcept_ok]
    constructor
    · rw [Outcome.ok_bind, List.append_assoc _ (lengthsOf encs), decodeBlockTransactions_header unmarshalTx
        (by simp) (by omega), hlenBytes, Bytes.readFull_append rfl, Outcome.ofExcept_ok,
        Outcome.ok_bind]
      have hloop := readTxs_lengthsOf unmarshalTx hdec hlen [] [] []
      rw [List.nil_append, List.append_nil, List.length_nil, hn, List.nil_append] at hloop
      exact hloop
    · intro i hi
      rw [Outcome.ok_bind, List.append_assoc _ (lengthsOf encs), decodeTransaction_header unmarshalTx _
        (by simp) (by omega), hlenBytes, Bytes.readFull_append rfl, Outcome.ofExcept_ok,
        Outcome.ok_bind]
      have hfind := findTx_lengthsOf unmarshalTx hlen [] [] (j := i) (by omega)
      rw [List.nil_append, List.append_nil, List.length_nil, Nat.zero_add] at hfind
      dsimp only
      conv_lhs => rw [← hn]
      have htx := hmsg _ _ (henc.get hi (by omega))
      rw [List.get_eq_getElem, List.get_eq_getElem] at htx
      rw [hfind, htx, Outcome.ofExcept_ok]

end RoundTrip

/-! ## From 32768 transactions on the lengths do not fit their buffer -/

section Overflow

variable {Address : Type} (marshalTx : RawTransaction Address → Except String (List UInt8))
  (unmarshalTx : List UInt8 → Except String (RawTransaction Address))

/-- The loop of `decodeBlockTransactions` never finishes when the lengths run out before its
last round: it stops with an error, or slices past the end of the lengths and panics. -/
theorem readTxs_ne_ok_of_short {lenBytes : List UInt8} {k i : ℕ}
    (hi : 2 * i ≤ lenBytes.length) (hshort : lenBytes.length < 2 * (i + k))
    (rest : List UInt8) (acc txs : List (RawTransaction Address)) :
    readTxs unmarshalTx lenBytes k i rest acc ≠ .ok txs := by
  induction k generalizing i rest acc with
  | zero => omega
  | succ k ih =>
    rw [readTxs_succ]
    by_cases hfit : 2 * (i + 1) ≤ lenBytes.length
    · -- the round reads its length, then fails or goes on to the next round
      rw [Outcome.slice_of_le (by omega) hfit, Outcome.ok_bind]
      exact Outcome.bind_ne_ok fun _ _ => Outcome.bind_ne_ok fun _ _ => ih hfit (by omega) _ _
    · rw [Outcome.slice_of_length_lt (by omega)]
      simp

theorem decodeBlockTransactions_encode_of_overflow {b : Block Address}
    (hnum : 32768 ≤ b.transactions.length) (hlt : b.transactions.length < 65536)
    (txs : List (RawTransaction Address)) :
    (Outcome.ofExcept (encodeBlockTransactions marshalTx b) >>=
      decodeBlockTransactions unmarshalTx) ≠ .ok txs := by
  cases henc : encodeBlockTransactions marshalTx b with
  | error m => simp
  | ok data =>
    obtain ⟨rest, rfl⟩ := encodeBlockTransactions_prefix marshalTx henc
    rw [Outcome.ofExcept_ok, Outcome.ok_bind,
      decodeBlockTransactions_header unmarshalTx (by omega) hlt]
    refine Outcome.bind_ne_ok fun p hp => ?_
    -- the buffer holds `2 * n - 65536` bytes, fewer than the `2 * n` the loop reads
    have hshort := Bytes.length_of_readFull (Outcome.ofExcept_eq_ok.mp hp)
    exact readTxs_ne_ok_of_short unmarshalTx (by omega) (by omega) _ _ _

/-- Thirty-two thousand seven hundred and sixty-eight empty transactions. -/
theorem decodeBlockTransactions_encode_32768 :
    let tx : RawTransaction ℕ := ⟨[], none, 0, none, 0, none, none, [], none, none⟩
    let b : Block ℕ := ⟨⟨BytesToHash [1], 1, BytesToHash [0], [], 0, [], BytesToHash [0]⟩,
      List.replicate 32768 tx⟩
    let unmarshal : List UInt8 → Except String (RawTransaction ℕ) := fun bs => .ok { tx with data := bs }
    32768 ≤ b.transactions.length ∧ b.transactions.length < 65536 ∧
      ∀ txs, (Outcome.ofExcept (encodeBlockTransactions (fun tx => .ok tx.data) b) >>=
        decodeBlockTransactions unmarshal) ≠ .ok txs :=
  by
  intro tx b unmarshal
  have hlen : b.transactions.length = 32768 := List.length_replicate
  have hlt : b.transactions.length < 65536 := by
    rw [hlen]
    decide
  exact ⟨hlen.ge, hlt, decodeBlockTransactions_encode_of_overflow _ _ hlen.ge hlt⟩

end Overflow

/-! ## Valid blocks are small enough -/

section Validate

variable {Address : Type}

theorem le_sum_size (txs : List (RawTransaction Address)) :
    txFixSize * txs.length ≤ (txs.map RawTransaction.Size).sum := by
  induction txs with
  | nil => simp
  | cons tx txs ih =>
    rw [List.map_cons, List.sum_cons, List.length_cons, Nat.mul_succ]
    have : txFixSize ≤ tx.Size := by
      unfold RawTransaction.Size
      omega
    omega

/-- A block that passes `validateBlock` has at most 5242 transactions. -/
theorem length_le_of_validateBlock {hasBlock : Hash → Bool}
    {compareChainWeight : BlockHeader → Ordering}
    {consensusVerifyBlock : BlockHeader → Except String Unit} {b : Block Address} {r : Bool}
    (h : validateBlock hasBlock compareChainWeight consensusVerifyBlock b = .ok r) :
    b.transactions.length ≤ 5242 := by
  unfold validateBlock at h
  dsimp only at h
  split_ifs at h with h1 h2 hsize
  have hsum := le_sum_size b.transactions
  unfold txFixSize at hsum
  unfold txAccumulateSizeMaxPerBlock at hsize
  omega

/-- The body of a block that passes `validateBlock` reads back whenever each transaction is
encoded in fewer than 65536 bytes. -/
theorem decode_encode_of_validateBlock
    (marshalTx : RawTransaction Address → Except String (List UInt8))
    (unmarshalTx : List UInt8 → Except String (RawTransaction Address))
    {hasBlock : Hash → Bool} {compareChainWeight : BlockHeader → Ordering}
    {consensusVerifyBlock : BlockHeader → Except String Unit} {b : Block Address} {r : Bool}
    {encs : List (List UInt8)}
    (hvalid : validateBlock hasBlock compareChainWeight consensusVerifyBlock b = .ok r)
    (hmsg : ∀ tx e, marshalTx tx = .ok e → unmarshalTx e = .ok tx)
    (henc : List.Forall₂ (fun tx e => marshalTx tx = .ok e) b.transactions encs)
    (hlen : ∀ e ∈ encs, e.length < 65536) :
    (Outcome.ofExcept (encodeBlockTransactions marshalTx b) >>=
        decodeBlockTransactions unmarshalTx) = .ok b.transactions ∧
      ∀ i (hi : i < b.transactions.length),
        (Outcome.ofExcept (encodeBlockTransactions marshalTx b) >>=
          decodeTransaction unmarshalTx i) = .ok b.transactions[i] :=
  decode_encodeBlockTransactions marshalTx unmarshalTx hmsg henc
    (by have := length_le_of_validateBlock hvalid; omega) hlen

end Validate

section TwoTransactions

/-- A transaction that differs from the others only by its nonce. -/
def nonceTx (n : UInt64) : RawTransaction ℕ := ⟨[], some 0, n, none, 0, some 0, some 0, [], none, none⟩

/-- An encoder that knows the transactions of nonces `1` and `2`, by one byte each. -/
def twoTxMarshal (tx : RawTransaction ℕ) : Except String (List UInt8) :=
  if tx = nonceTx 1 then .ok [1] else if tx = nonceTx 2 then .ok [2] else .error "unknown transaction"

/-- The decoder of `twoTxMarshal`. -/
def twoTxUnmarshal (e : List UInt8) : Except String (RawTransaction ℕ) :=
  if e = [1] then .ok (nonceTx 1) else if e = [2] then .ok (nonceTx 2) else .error "unknown encoding"

/-- The block at height 2 that packs `nonceTx 1` and `nonceTx 2`. -/
def twoTxBlock : Block ℕ :=
  ⟨⟨BytesToHash [1], 2, BytesToHash [0], [], 0, [], BytesToHash []⟩, [nonceTx 1, nonceTx 2]⟩

theorem twoTxUnmarshal_twoTxMarshal (tx : RawTransaction ℕ) (e : List UInt8)
    (h : twoTxMarshal tx = .ok e) : twoTxUnmarshal e = .ok tx := by
  unfold twoTxMarshal at h
  split_ifs at h with h1 h2
  · cases h
    subst h1
    rfl
  · cases h
    subst h2
    rfl

/-- A block of two transactions whose parent is stored, lighter than the local top and verified
by its group: decoding its body gives back both transactions, together and one at a time. -/
theorem decode_encode_two_transactions :
    (Outcome.ofExcept (encodeBlockTransactions twoTxMarshal twoTxBlock) >>=
        decodeBlockTransactions twoTxUnmarshal) = .ok twoTxBlock.transactions ∧
      ∀ i (hi : i < twoTxBlock.transactions.length),
        (Outcome.ofExcept (encodeBlockTransactions twoTxMarshal twoTxBlock) >>=
          decodeTransaction twoTxUnmarshal i) = .ok twoTxBlock.transactions[i] := by
  have hvalid : validateBlock (fun _ => true) (fun _ => .lt) (fun _ => .ok ()) twoTxBlock =
      .ok true := by decide
  have henc : List.Forall₂ (fun tx e => twoTxMarshal tx = .ok e) twoTxBlock.transactions
      [[1], [2]] := .cons (by decide) (.cons (by decide) .nil)
  exact decode_encode_of_validateBlock twoTxMarshal twoTxUnmarshal hvalid
    twoTxUnmarshal_twoTxMarshal henc (by decide)

end TwoTransactions

end Zvchain
