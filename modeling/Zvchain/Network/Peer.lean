import Zvchain.Lib.Bytes
import Zvchain.Lib.ChunkQueue

/-!
# Packet framing on a peer's receive list (`network/peer.go`, `network/net.go`)

`encodePacket` writes a packet as its type and its length, four big-endian bytes each, then its
payload.  A peer keeps the bytes it received as a list of buffers, one per `addRecvData`;
`decodePacket` takes buffers off the front until it holds a header, then until it holds the
packet, reusing the header's buffer when its capacity suffices, and pushes back to the head what
it took beyond the packet, or everything when the packet is not complete yet.  A length of zero
or above `MaxMsgLen` drops all the received data.

Whatever the chunks and however the deliveries and the decodes interleave, the decoded packets
are the sent ones in order and the buffered bytes are the rest of what was received
(`decodePacket_framing`): each decode either returns the next packet and takes exactly its bytes,
or leaves the bytes as they were, which it does only while the next packet is not all there
(`decodePacket_spec`); `Framed` is what a run keeps (`framed_step`, `framed_run`).

Capacities only choose between buffers with the same bytes; how a `bytes.Buffer` grows is a
parameter `grow`.  The message type is its 32-bit word.
-/

namespace Zvchain

namespace Network

def PacketTypeSize : ℕ := 4

def PacketLenSize : ℕ := 4

def PacketHeadSize : ℕ := PacketTypeSize + PacketLenSize

def MaxMsgLen : ℕ := 16 * 1024 * 1024

def errPacketTooSmall : String := "too small"

def errBadPacket : String := "bad Packet"

/-- A `bytes.Buffer`: its unread bytes and its capacity. -/
structure Buffer where
  bytes : List UInt8
  cap : ℕ

/-- The buffer sizes of the items of the `BufferPool`. -/
def poolSizes : List ℕ := [1024, 1024 * 4, 1024 * 32, 1024 * 512, 1572864]

/-- `BufferPool.getBuffer`: an empty buffer of the first pool size that holds `size`, or a new
empty buffer. -/
def getBuffer (size : ℕ) : Buffer :=
  match poolSizes.find? (fun s => s ≥ size) with
  | some s => ⟨[], s⟩
  | none => ⟨[], 0⟩

@[simp] theorem getBuffer_bytes (size : ℕ) : (getBuffer size).bytes = [] := by
  unfold getBuffer
  split <;> rfl

-- the capacity a `bytes.Buffer` grows to, from its capacity and the length it must hold
variable (grow : ℕ → ℕ → ℕ)

/-- `Buffer.Write`: append, in place while the capacity holds it. -/
def Buffer.Write (b : Buffer) (p : List UInt8) : Buffer :=
  ⟨b.bytes ++ p, if b.bytes.length + p.length ≤ b.cap then b.cap
    else grow b.cap (b.bytes.length + p.length)⟩

@[simp] theorem Buffer.bytes_write (b : Buffer) (p : List UInt8) :
    (b.Write grow p).bytes = b.bytes ++ p :=
  rfl

/-- `binary.BigEndian.Uint32`. -/
def BigEndianUint32 (b : List UInt8) : UInt32 := UInt32.ofNat (Bytes.ofBE (b.take 4))

/-- `NetCore.encodePacket`, of the marshalled message `pdata`. -/
def encodePacket (ptype : UInt32) (pdata : List UInt8) : List UInt8 :=
  Bytes.toBE 4 ptype.toNat ++ Bytes.toBE 4 (UInt32.ofNat pdata.length).toNat ++ pdata

/-- The receive list of a `Peer`. -/
structure Peer where
  recvList : List Buffer

namespace Peer

def addRecvData (p : Peer) (data : List UInt8) : Peer :=
  if data.length = 0 then p else ⟨p.recvList ++ [(getBuffer data.length).Write grow data]⟩

def addRecvDataToHead (p : Peer) (data : Buffer) : Peer := ⟨data :: p.recvList⟩

/-- `resetData`, on the receive list. -/
def resetData (_ : Peer) : Peer := ⟨[]⟩

/-- The loops of `decodePacket` that take buffers off the list into `buf` while it holds fewer
than `n` bytes. -/
def fill (p : Peer) (n : ℕ) (buf : Buffer) : Buffer × Peer :=
  let r := ChunkQueue.gather Buffer.bytes Buffer.bytes (Buffer.Write grow) n buf p.recvList
  (r.1, ⟨r.2⟩)

/-- What `decodePacket` returns on success. -/
structure Packet where
  msgType : UInt32
  packetSize : ℕ
  msgBuffer : Buffer
  data : List UInt8

/-- The end of `decodePacket`, with the buffer `msgBuffer` filled as far as the list went. -/
def splitPacket (p : Peer) (msgType : UInt32) (packetSize : ℕ) (msgBuffer : Buffer) :
    Except String Packet × Peer :=
  let msgBytes := msgBuffer.bytes
  if msgBytes.length < packetSize then (.error errPacketTooSmall, p.addRecvDataToHead msgBuffer)
  else
    let p := if msgBytes.length > packetSize then
        p.addRecvDataToHead ((getBuffer (msgBytes.length - packetSize)).Write grow
          (msgBytes.drop packetSize))
      else p
    (.ok ⟨msgType, packetSize, msgBuffer, (msgBytes.take packetSize).drop PacketHeadSize⟩, p)

/-- `decodePacket` once the header is complete. -/
def readBody (p : Peer) (header : Buffer) : Except String Packet × Peer :=
  let headerBytes := header.bytes
  let msgType := BigEndianUint32 (headerBytes.take PacketTypeSize)
  let msgLen := BigEndianUint32 ((headerBytes.drop PacketTypeSize).take PacketLenSize)
  if msgLen.toNat > MaxMsgLen ∨ msgLen = 0 then (.error errBadPacket, p.resetData)
  else
    let packetSize := (msgLen + UInt32.ofNat PacketHeadSize).toNat
    let msgBuffer := if header.cap < packetSize then (getBuffer packetSize).Write grow headerBytes
      else header
    let r := p.fill grow packetSize msgBuffer
    r.2.splitPacket grow msgType packetSize r.1

/-- `Peer.decodePacket`. -/
def decodePacket (p : Peer) : Except String Packet × Peer :=
  match p.recvList with
  | [] => (.error errPacketTooSmall, p)
  | header :: rest =>
    let r := (⟨rest⟩ : Peer).fill grow PacketHeadSize header
    if r.1.bytes.length < PacketHeadSize then (.error errPacketTooSmall, r.2.addRecvDataToHead r.1)
    else r.2.readBody grow r.1

/-- The bytes the peer holds, in order. -/
def buffered (p : Peer) : List UInt8 := (p.recvList.map Buffer.bytes).flatten

end Peer

/-- A call on the peer: a delivery of received bytes, or a decode. -/
inductive Call where
  | addRecvData (data : List UInt8)
  | decodePacket

/-- The bytes a call delivers. -/
def Call.received : Call → List UInt8
  | .addRecvData data => data
  | .decodePacket => []

/-- One call, on the peer and the types and payloads decoded so far. -/
def step (s : Peer × List (UInt32 × List UInt8)) : Call → Peer × List (UInt32 × List UInt8)
  | .addRecvData data => (s.1.addRecvData grow data, s.2)
  | .decodePacket =>
    match s.1.decodePacket grow with
    | (.ok pk, p) => (p, s.2 ++ [(pk.msgType, pk.data)])
    | (.error _, p) => (p, s.2)

/-- A run of calls from a new peer. -/
def run (calls : List Call) : Peer × List (UInt32 × List UInt8) :=
  calls.foldl (step grow) (⟨[]⟩, [])

/-- The stream of encoded packets. -/
def streamOf (packets : List (UInt32 × List UInt8)) : List UInt8 :=
  (packets.map fun q => encodePacket q.1 q.2).flatten

/-! ## A packet's header read back -/

@[simp] theorem length_encodePacket (ptype : UInt32) (pdata : List UInt8) :
    (encodePacket ptype pdata).length = PacketHeadSize + pdata.length := by
  simp only [encodePacket, List.length_append, Bytes.length_toBE, PacketHeadSize, PacketTypeSize,
    PacketLenSize]

@[simp] theorem streamOf_nil : streamOf [] = [] := rfl

@[simp] theorem streamOf_cons (q : UInt32 × List UInt8) (rest : List (UInt32 × List UInt8)) :
    streamOf (q :: rest) = encodePacket q.1 q.2 ++ streamOf rest :=
  rfl

theorem bigEndianUint32_toBE (x : UInt32) : BigEndianUint32 (Bytes.toBE 4 x.toNat) = x := by
  have hlt : x.toNat < 256 ^ 4 := by
    have := x.toNat_lt
    norm_num at this ⊢
    exact this
  unfold BigEndianUint32
  rw [List.take_of_length_le (by simp), Bytes.ofBE_toBE_of_lt hlt]
  exact UInt32.ofNat_toNat

/-- The first `n` bytes of a prefix of `X` that holds `n` bytes are the first `n` of `X`. -/
theorem take_eq_of_isPrefix {B X : List UInt8} (h : B <+: X) {n : ℕ} (hn : n ≤ B.length) :
    B.take n = X.take n := by
  obtain ⟨t, rfl⟩ := h
  exact (List.take_append_of_le_length hn).symm

/-- Bytes that begin with a packet's header give back its type and the length of its payload. -/
theorem header_fields {bs : List UInt8} {q : UInt32 × List UInt8}
    (h : bs.take PacketHeadSize = (encodePacket q.1 q.2).take PacketHeadSize) :
    BigEndianUint32 (bs.take PacketTypeSize) = q.1 ∧
      BigEndianUint32 ((bs.drop PacketTypeSize).take PacketLenSize) = UInt32.ofNat q.2.length := by
  have hA : (Bytes.toBE 4 q.1.toNat).length = 4 := Bytes.length_toBE 4 _
  have h8 : bs.take 8 = Bytes.toBE 4 q.1.toNat ++ Bytes.toBE 4 (UInt32.ofNat q.2.length).toNat := by
    have h' : bs.take PacketHeadSize = (encodePacket q.1 q.2).take PacketHeadSize := h
    rw [encodePacket, List.take_left' (by simp [PacketHeadSize, PacketTypeSize, PacketLenSize])]
      at h'
    exact h'
  have htype : bs.take 4 = Bytes.toBE 4 q.1.toNat :=
    calc bs.take 4 = (bs.take 8).take 4 := by rw [List.take_take]; rfl
      _ = Bytes.toBE 4 q.1.toNat := by rw [h8, List.take_left' hA]
  have hlen : (bs.drop 4).take 4 = Bytes.toBE 4 (UInt32.ofNat q.2.length).toNat :=
    calc (bs.drop 4).take 4 = (bs.take 8).drop 4 := by rw [List.drop_take]
      _ = Bytes.toBE 4 (UInt32.ofNat q.2.length).toNat := by rw [h8, List.drop_left' hA]
  exact ⟨by rw [show PacketTypeSize = 4 from rfl, htype, bigEndianUint32_toBE],
    by rw [show PacketTypeSize = 4 from rfl, show PacketLenSize = 4 from rfl, hlen,
      bigEndianUint32_toBE]⟩

/-! ## The bytes a peer holds -/

namespace Peer

@[simp] theorem buffered_addRecvData (p : Peer) (data : List UInt8) :
    (p.addRecvData grow data).buffered = p.buffered ++ data := by
  unfold addRecvData
  split_ifs with h
  · rw [List.length_eq_zero_iff.mp h, List.append_nil]
  · simp [buffered]

@[simp] theorem buffered_addRecvDataToHead (p : Peer) (b : Buffer) :
    (p.addRecvDataToHead b).buffered = b.bytes ++ p.buffered :=
  rfl

/-- A fill keeps the bytes: those of the buffer and of the list left are those of the buffer and
of the list before. -/
theorem fill_buffered (p : Peer) (n : ℕ) (buf : Buffer) :
    (p.fill grow n buf).1.bytes ++ (p.fill grow n buf).2.buffered = buf.bytes ++ p.buffered :=
  ChunkQueue.gather_content (fun _ _ => rfl) n buf p.recvList

theorem fill_enough {p : Peer} {n : ℕ} {buf : Buffer} (h : n ≤ (buf.bytes ++ p.buffered).length) :
    n ≤ (p.fill grow n buf).1.bytes.length :=
  ChunkQueue.gather_enough (fun _ _ => rfl) h

/-- The end of `decodePacket`: a short buffer goes back to the head of the list; otherwise the
packet is its first `packetSize` bytes and the rest goes back. -/
theorem splitPacket_spec (p : Peer) (msgType : UInt32) (n : ℕ) (m : Buffer) :
    (m.bytes.length < n ∧ (p.splitPacket grow msgType n m).1 = .error errPacketTooSmall ∧
        (p.splitPacket grow msgType n m).2.buffered = m.bytes ++ p.buffered) ∨
      (n ≤ m.bytes.length ∧
        (p.splitPacket grow msgType n m).1 = .ok ⟨msgType, n, m, (m.bytes.take n).drop PacketHeadSize⟩ ∧
        (p.splitPacket grow msgType n m).2.buffered = m.bytes.drop n ++ p.buffered) := by
  unfold splitPacket
  by_cases hlt : m.bytes.length < n
  · exact Or.inl ⟨hlt, by rw [if_pos hlt], by rw [if_pos hlt]; rfl⟩
  · refine Or.inr ⟨by omega, by rw [if_neg hlt], ?_⟩
    rw [if_neg hlt]
    split_ifs with hgt
    · simp
    · -- the buffer holds the packet exactly: nothing is left over
      have hnil : m.bytes.drop n = [] := List.drop_of_length_le (by omega)
      rw [hnil, List.nil_append]

end Peer

/-! ## One decode -/

/-- A packet `encodePacket` can send and `decodePacket` accepts: a payload of `1` to `MaxMsgLen`
bytes. -/
def WellSized (q : UInt32 × List UInt8) : Prop := 0 < q.2.length ∧ q.2.length ≤ MaxMsgLen

/-- The first bytes of a packet in a buffered prefix of the stream: as many as are buffered. -/
theorem take_packet_of_isPrefix {B S : List UInt8} {q : UInt32 × List UInt8}
    (h : B <+: encodePacket q.1 q.2 ++ S) {n : ℕ} (hn : n ≤ B.length)
    (hq : n ≤ (encodePacket q.1 q.2).length) :
    B.take n = (encodePacket q.1 q.2).take n := by
  rw [take_eq_of_isPrefix h hn, List.take_append_of_le_length hq]

namespace Peer

/-- `decodePacket` once the header of the next packet `q` is in `h`: when the list holds the whole
packet, it is returned and its bytes taken; otherwise the bytes stay as they were. -/
theorem readBody_spec {p : Peer} {h : Buffer} {q : UInt32 × List UInt8} {S : List UInt8}
    (hq : WellSized q) (hhead : PacketHeadSize ≤ h.bytes.length)
    (hpre : h.bytes ++ p.buffered <+: encodePacket q.1 q.2 ++ S) :
    ((h.bytes ++ p.buffered).length < (encodePacket q.1 q.2).length ∧
        (∃ e, (p.readBody grow h).1 = .error e) ∧
        (p.readBody grow h).2.buffered = h.bytes ++ p.buffered) ∨
      (∃ pk, (p.readBody grow h).1 = .ok pk ∧ pk.msgType = q.1 ∧ pk.data = q.2 ∧
        h.bytes ++ p.buffered = encodePacket q.1 q.2 ++ (p.readBody grow h).2.buffered) := by
  obtain ⟨hpos, hmax⟩ := hq
  have hmax' : MaxMsgLen < 2 ^ 32 := by unfold MaxMsgLen; norm_num
  -- the header is that of `q`
  have hh : h.bytes.take PacketHeadSize = (encodePacket q.1 q.2).take PacketHeadSize := by
    rw [← List.take_append_of_le_length hhead]
    exact take_packet_of_isPrefix hpre (by simp; omega) (by simp)
  obtain ⟨htype, hlen⟩ := header_fields hh
  have hlenNat : (UInt32.ofNat q.2.length).toNat = q.2.length :=
    UInt32.toNat_ofNat_of_lt' (by unfold UInt32.size; omega)
  have hgood : ¬((UInt32.ofNat q.2.length).toNat > MaxMsgLen ∨ UInt32.ofNat q.2.length = 0) := by
    rintro (hbig | hzero)
    · omega
    · have := congrArg UInt32.toNat hzero
      rw [hlenNat, UInt32.toNat_zero] at this
      omega
  have hH : (UInt32.ofNat PacketHeadSize).toNat = PacketHeadSize :=
    UInt32.toNat_ofNat_of_lt' (by decide)
  have hbound : q.2.length + PacketHeadSize < 2 ^ 32 := by
    unfold PacketHeadSize PacketTypeSize PacketLenSize
    unfold MaxMsgLen at hmax
    omega
  have hsize : (UInt32.ofNat q.2.length + UInt32.ofNat PacketHeadSize).toNat =
      (encodePacket q.1 q.2).length := by
    rw [UInt32.toNat_add, hlenNat, hH, length_encodePacket, Nat.mod_eq_of_lt hbound]
    omega
  unfold readBody
  simp only [htype, hlen]
  rw [if_neg hgood, hsize]
  -- the buffer the body is read into starts with the header's bytes, whichever it is
  set N := (encodePacket q.1 q.2).length
  set m : Buffer := if h.cap < N then (getBuffer N).Write grow h.bytes else h with hm
  have hmbytes : m.bytes = h.bytes := by
    rw [hm]
    split_ifs <;> simp
  have hfill := p.fill_buffered grow N m
  rw [hmbytes] at hfill
  rcases splitPacket_spec grow (p.fill grow N m).2 q.1 N (p.fill grow N m).1 with
    ⟨hlt, herr, hbuf⟩ | ⟨hge, hok, hbuf⟩
  · -- the packet is not all there yet
    refine Or.inl ⟨?_, ⟨_, herr⟩, by rw [hbuf, hfill]⟩
    by_contra hnot
    have := @fill_enough grow p N m (by rw [hmbytes]; exact Nat.le_of_not_lt hnot)
    omega
  · -- the buffer holds the packet: its first `N` bytes are `q`'s
    have hB : (p.fill grow N m).1.bytes.take N = encodePacket q.1 q.2 := by
      rw [← List.take_append_of_le_length hge, hfill]
      rw [take_packet_of_isPrefix hpre (by rw [← hfill, List.length_append]; omega) le_rfl,
        List.take_length]
    refine Or.inr ⟨_, hok, rfl, ?_, ?_⟩
    · show ((p.fill grow N m).1.bytes.take N).drop PacketHeadSize = q.2
      rw [hB, encodePacket, List.drop_left' (by simp [PacketHeadSize, PacketTypeSize,
        PacketLenSize])]
    · rw [hbuf, ← hfill, ← List.append_assoc, ← hB, List.take_append_drop]

/-- One decode on a peer whose bytes begin the stream of `rest`: it returns the next packet and
takes exactly its bytes, or it leaves the bytes as they were, which happens only while the next
packet is not all there. -/
theorem decodePacket_spec {p : Peer} {rest : List (UInt32 × List UInt8)}
    (hsize : ∀ q ∈ rest, WellSized q) (hpre : p.buffered <+: streamOf rest) :
    ((∃ e, (p.decodePacket grow).1 = .error e) ∧ (p.decodePacket grow).2.buffered = p.buffered ∧
        ∀ q rest', rest = q :: rest' → p.buffered.length < (encodePacket q.1 q.2).length) ∨
      (∃ pk q rest', (p.decodePacket grow).1 = .ok pk ∧ rest = q :: rest' ∧ pk.msgType = q.1 ∧
        pk.data = q.2 ∧ p.buffered = encodePacket q.1 q.2 ++ (p.decodePacket grow).2.buffered) := by
  have hlong : ∀ q rest', rest = q :: rest' → PacketHeadSize ≤ (encodePacket q.1 q.2).length :=
    fun q _ _ => by simp
  rcases p with ⟨_ | ⟨header, tail⟩⟩
  · -- nothing buffered
    refine Or.inl ⟨⟨_, rfl⟩, rfl, fun q rest' hr => ?_⟩
    have := hlong q rest' hr
    simp only [buffered, List.map_nil, List.flatten_nil, List.length_nil]
    unfold PacketHeadSize PacketTypeSize PacketLenSize at this
    omega
  · have hB : (⟨header :: tail⟩ : Peer).buffered = header.bytes ++ (⟨tail⟩ : Peer).buffered := by
      simp [buffered]
    have hfill := (⟨tail⟩ : Peer).fill_buffered grow PacketHeadSize header
    rw [← hB] at hfill
    unfold decodePacket
    dsimp only
    by_cases hshort : ((⟨tail⟩ : Peer).fill grow PacketHeadSize header).1.bytes.length <
        PacketHeadSize
    · -- the header is not all there: the bytes go back as one buffer
      rw [if_pos hshort]
      refine Or.inl ⟨⟨_, rfl⟩, by rw [buffered_addRecvDataToHead, hfill], fun q rest' hr => ?_⟩
      have := hlong q rest' hr
      by_contra hnot
      have := @fill_enough grow ⟨tail⟩ PacketHeadSize header
        (by rw [← hB]; omega)
      omega
    · rw [if_neg hshort]
      -- a header is there, so a packet follows in the stream
      obtain ⟨q, rest', rfl⟩ : ∃ q rest', rest = q :: rest' := by
        cases rest with
        | nil =>
          have hlen := List.IsPrefix.length_le hpre
          rw [streamOf_nil, List.length_nil, ← hfill, List.length_append] at hlen
          have h8 : PacketHeadSize = 8 := rfl
          omega
        | cons q rest' => exact ⟨q, rest', rfl⟩
      rw [streamOf_cons, ← hfill] at hpre
      rcases readBody_spec grow (hsize q (by simp)) (by omega) hpre with
        ⟨hlt, herr, hbuf⟩ | ⟨pk, hok, htype, hdata, hbuf⟩
      · exact Or.inl ⟨herr, by rw [hbuf, hfill], fun q' rest'' hr => by
          obtain ⟨rfl, rfl⟩ := List.cons.inj hr
          rw [← hfill]
          exact hlt⟩
      · exact Or.inr ⟨pk, q, rest', hok, rfl, htype, hdata, by rw [← hfill, hbuf]⟩

end Peer

/-! ## Runs of deliveries and decodes -/

theorem streamOf_append (a b : List (UInt32 × List UInt8)) :
    streamOf (a ++ b) = streamOf a ++ streamOf b := by
  simp [streamOf]

/-- What a run keeps: the decoded packets begin the sent ones, and with the buffered bytes after
them they spell what was received. -/
structure Framed (packets : List (UInt32 × List UInt8)) (received : List UInt8)
    (s : Peer × List (UInt32 × List UInt8)) : Prop where
  sent : s.2 <+: packets
  bytes : streamOf s.2 ++ s.1.buffered = received

theorem framed_init (packets : List (UInt32 × List UInt8)) : Framed packets [] (⟨[]⟩, []) :=
  ⟨List.nil_prefix, rfl⟩

section Run

variable {packets : List (UInt32 × List UInt8)} (hsize : ∀ q ∈ packets, WellSized q)
include hsize

omit hsize in
/-- The buffered bytes of a framed run begin the stream of the packets not decoded yet. -/
theorem Framed.buffered_isPrefix {received : List UInt8} {s : Peer × List (UInt32 × List UInt8)}
    (hf : Framed packets received s) {t : List (UInt32 × List UInt8)} (ht : s.2 ++ t = packets)
    (hpre : received <+: streamOf packets) : s.1.buffered <+: streamOf t := by
  rw [← hf.bytes, ← ht, streamOf_append] at hpre
  exact (List.prefix_append_right_inj _).mp hpre

/-- One call keeps a run framed, while what was received begins the stream. -/
theorem framed_step {received : List UInt8} {s : Peer × List (UInt32 × List UInt8)}
    (hf : Framed packets received s) (c : Call)
    (hpre : received ++ c.received <+: streamOf packets) :
    Framed packets (received ++ c.received) (step grow s c) := by
  cases c with
  | addRecvData data =>
    exact ⟨hf.sent, by simp [step, Call.received, ← hf.bytes, List.append_assoc]⟩
  | decodePacket =>
    rw [Call.received, List.append_nil] at hpre ⊢
    obtain ⟨t, ht⟩ := hf.sent
    have ht' : ∀ q ∈ t, WellSized q := fun q hq => hsize q (by rw [← ht]; simp [hq])
    have hbuf := hf.buffered_isPrefix ht hpre
    generalize hd : s.1.decodePacket grow = d at *
    rcases d with ⟨r, p'⟩
    rcases Peer.decodePacket_spec grow ht' hbuf with
      ⟨⟨e, herr⟩, hsame, -⟩ | ⟨pk, q, t', hok, rfl, htype, hdata, hsplit⟩
    · -- nothing decoded, nothing taken
      rw [hd] at herr hsame
      obtain rfl : r = .error e := herr
      simp only [step, hd]
      exact ⟨hf.sent, by rw [← hf.bytes, hsame]⟩
    · -- the next packet decoded, its bytes taken
      rw [hd] at hok hsplit
      obtain rfl : r = .ok pk := hok
      simp only [step, hd]
      refine ⟨⟨t', by rw [← ht, htype, hdata, List.append_assoc]; rfl⟩, ?_⟩
      rw [← hf.bytes, hsplit, streamOf_append, htype, hdata, List.append_assoc]
      simp [streamOf]

/-- A run of calls stays framed while what it received begins the stream. -/
theorem framed_run (calls : List Call) {received : List UInt8}
    {s : Peer × List (UInt32 × List UInt8)} (hf : Framed packets received s)
    (hpre : received ++ (calls.map Call.received).flatten <+: streamOf packets) :
    Framed packets (received ++ (calls.map Call.received).flatten) (calls.foldl (step grow) s) := by
  -- on the calls, from any framed state
  induction calls generalizing received s with
  | nil => simpa using hf
  | cons c calls ih =>
    rw [List.map_cons, List.flatten_cons, ← List.append_assoc] at hpre ⊢
    exact ih (framed_step grow hsize hf c ((List.prefix_append _ _).trans hpre)) hpre

/-- Once the whole stream is received, a decode returns the next packet, if any. -/
theorem framed_decode_next {s : Peer × List (UInt32 × List UInt8)}
    (hf : Framed packets (streamOf packets) s) :
    (step grow s .decodePacket).2 = packets.take (s.2.length + 1) := by
  obtain ⟨t, ht⟩ := hf.sent
  have ht' : ∀ q ∈ t, WellSized q := fun q hq => hsize q (by rw [← ht]; simp [hq])
  -- all of the rest of the stream is buffered
  have hall : s.1.buffered = streamOf t := by
    have h := hf.bytes
    rw [← ht, streamOf_append] at h
    exact List.append_cancel_left h
  have htake : ∀ x, packets.take (s.2.length + x) = s.2 ++ t.take x := by
    intro x
    rw [← ht, List.take_length_add_append]
  unfold step
  rcases Peer.decodePacket_spec grow ht' (by rw [hall]) with
    ⟨⟨e, herr⟩, -, hshort⟩ | ⟨pk, q, t', hok, rfl, htype, hdata, -⟩
  · -- an error only when no packet is left
    have hnil : t = [] := by
      cases t with
      | nil => rfl
      | cons q t' =>
        have := hshort q t' rfl
        rw [hall, streamOf_cons, List.length_append] at this
        omega
    rw [htake, hnil]
    generalize s.1.decodePacket grow = d at herr
    rcases d with ⟨r, p'⟩
    obtain rfl : r = .error e := herr
    simp
  · rw [htake]
    generalize s.1.decodePacket grow = d at hok
    rcases d with ⟨r, p'⟩
    obtain rfl : r = .ok pk := hok
    simp [htype, hdata]

/-- Once the whole stream is received, `k` decodes return the next `k` packets. -/
theorem framed_decode_all (k : ℕ) {s : Peer × List (UInt32 × List UInt8)}
    (hf : Framed packets (streamOf packets) s) :
    ((List.replicate k Call.decodePacket).foldl (step grow) s).2 = packets.take (s.2.length + k) := by
  induction k generalizing s with
  | zero => simpa using (List.prefix_iff_eq_take.mp hf.sent)
  | succ k ih =>
    have hf' : Framed packets (streamOf packets) (step grow s .decodePacket) := by
      simpa [Call.received] using framed_step grow hsize hf .decodePacket
        (by simp [Call.received])
    rw [List.replicate_succ, List.foldl_cons, ih hf', framed_decode_next grow hsize hf]
    by_cases hlt : s.2.length + 1 ≤ packets.length
    · rw [List.length_take, Nat.min_eq_left hlt]
      congr 1
      omega
    · -- every packet was decoded already
      have hall : (packets.take (s.2.length + 1)).length = packets.length := by
        simp only [List.length_take]
        omega
      rw [hall, List.take_of_length_le (by omega), List.take_of_length_le (by omega)]

end Run

/-- Packet framing does not depend on the chunking: for packets with payloads of `1` to
`MaxMsgLen` bytes and any calls that deliver, in order, chunks of their stream, however the
deliveries and the decodes interleave and however buffers grow, the decoded packets are the first
sent ones, in order, and with the bytes still buffered they spell exactly what was received; once
the whole stream is received, enough further decodes return every packet. -/
theorem decodePacket_framing (packets : List (UInt32 × List UInt8))
    (hsize : ∀ q ∈ packets, 0 < q.2.length ∧ q.2.length ≤ MaxMsgLen) (calls : List Call)
    (hpre : (calls.map Call.received).flatten <+: streamOf packets) :
    (run grow calls).2 <+: packets ∧
      streamOf (run grow calls).2 ++ (run grow calls).1.buffered = (calls.map Call.received).flatten ∧
      ((calls.map Call.received).flatten = streamOf packets →
        (run grow (calls ++ List.replicate packets.length .decodePacket)).2 = packets) := by
  have hf := framed_run grow hsize calls (framed_init packets) (by simpa using hpre)
  rw [List.nil_append] at hf
  refine ⟨hf.sent, hf.bytes, fun hall => ?_⟩
  rw [hall] at hf
  unfold run
  rw [List.foldl_append, framed_decode_all grow hsize _ hf]
  exact List.take_of_length_le (by omega)

theorem decodePacket_framing_split_header :
    let packets : List (UInt32 × List UInt8) := [(5, [7, 8, 9])]
    let calls : List Call := [.addRecvData [0, 0, 0, 5, 0, 0], .decodePacket,
      .addRecvData [0, 3, 7, 8, 9]]
    let grow : ℕ → ℕ → ℕ := fun c n => max (2 * c) n
    (∀ q ∈ packets, 0 < q.2.length ∧ q.2.length ≤ MaxMsgLen) ∧
      (calls.map Call.received).flatten <+: streamOf packets ∧
      (run grow (calls ++ List.replicate packets.length .decodePacket)).2 = packets := by
  intro packets calls grow
  have hsize : ∀ q ∈ packets, 0 < q.2.length ∧ q.2.length ≤ MaxMsgLen := by decide
  have hall : (calls.map Call.received).flatten = streamOf packets := by decide
  have hpre : (calls.map Call.received).flatten <+: streamOf packets :=
    ⟨[], by rw [List.append_nil, hall]⟩
  exact ⟨hsize, hpre, (decodePacket_framing grow packets hsize calls hpre).2.2 hall⟩

end Network

end Zvchain
