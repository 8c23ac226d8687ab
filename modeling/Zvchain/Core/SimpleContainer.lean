import Zvchain.Lib.SortedSet
import Zvchain.Lib.GoMap
import Zvchain.Lib.SliceHeap
import Zvchain.Lib.Outcome
import Zvchain.Types.Transaction

/-!
# The container of the transaction pool (`core/simple_container.go`)

`simpleContainer` keeps every transaction it holds in `txsMap`, by hash, with the time it came.
A transaction whose nonce follows the state's nonce of its source, or the largest nonce of its
source's pending list by one, goes to `pending`; the others go to `queue`.  `pending` keeps one
skip list per source (`waitingMap`), ordered by `orderByNonceTx.Compare`, and counts their
transactions in `size`; when it is full it evicts the cheapest last transaction of a list.

A skip list is taken as the sorted set `SortedSet` under `orderByNonceTx.Compare`.  A Go map is an
`AList`, and a loop over one takes its entries in a `GoMap.IterOrder`.  The state's nonce is read
once per source and call (`getNonceWithCache`), so a call takes it as a function of the source;
the time of day is a number of nanoseconds.  The lock, the chain, and the fields of a transaction
the container does not read are left out.
-/

namespace Zvchain

/-- The fields of a transaction the container reads: a pooled transaction has passed validation,
so its source and gas price are set. -/
structure PoolTx (Address : Type) where
  hash : Hash
  source : Address
  nonce : UInt64
  gasPrice : ℤ
  deriving DecidableEq, Repr

/-- `TransactionWithTime`: the transaction and the time it entered the pool. -/
structure TransactionWithTime (Address : Type) where
  item : PoolTx Address
  begin : ℤ
  deriving DecidableEq, Repr

variable {Address : Type}

/-- `orderByNonceTx.Compare`: the same hash is equal, and so is the same nonce; the other
transactions are ordered by nonce. -/
def orderByNonceTx.Compare (tx tx2 : PoolTx Address) : Ordering :=
  if tx.hash = tx2.hash then .eq
  else if tx.nonce > tx2.nonce then .gt
  else if tx.nonce < tx2.nonce then .lt
  else .eq

/-- `pendingContainer`. -/
structure PendingContainer (Address : Type) where
  limit : ℤ
  size : ℤ
  waitingMap : AList fun _ : Address => List (PoolTx Address)

/-- The errors `simpleContainer.push` returns: `ErrNonce` ("nonce error"), the full queue ("tx_pool's
queue is full. current queue size: %d") and a transaction turned away by one of its nonce that
pays at least as much ("existing a transaction with same nonce: %v", with that one's hash). -/
inductive PushError where
  | nonce
  | queueFull (size : ℕ)
  | sameNonce (conflicted : Hash)
  deriving DecidableEq, Repr

/-- `simpleContainer`. -/
structure SimpleContainer (Address : Type) where
  txsMap : AList fun _ : Hash => TransactionWithTime Address
  pending : PendingContainer Address
  queue : AList fun _ : Hash => PoolTx Address
  queueLimit : ℤ
  txTimeout : ℤ

/-- `maxPendingSize`. -/
def maxPendingSize : ℤ := 40000

/-- `newPendingContainer`. -/
def newPendingContainer (limit : ℤ) : PendingContainer Address := ⟨limit, 0, ∅⟩

/-- `newSimpleContainer`, with the timeout the configuration gives. -/
def newSimpleContainer (pendingLimit queueLimit txTimeout : ℤ) : SimpleContainer Address :=
  ⟨∅, newPendingContainer pendingLimit, ∅, queueLimit, txTimeout⟩

/-- `skipGetLast`: the last transaction of a list, nil for an empty one. -/
def skipGetLast (l : List (PoolTx Address)) : Option (PoolTx Address) := l.getLast?

namespace PendingContainer

variable [DecidableEq Address]

/-- The closure `doInsertOrReplace` of `push`, on the list `l` of the source: the transaction
replaces the one equal to it when it pays more, is turned away when it does not, and is inserted
when none is equal to it.  Returns the container, `evicted` and `conflicted`. -/
def doInsertOrReplace (s : PendingContainer Address) (l : List (PoolTx Address))
    (tx : PoolTx Address) :
    PendingContainer Address × Option (PoolTx Address) × Option (PoolTx Address) :=
  match SortedSet.get orderByNonceTx.Compare l tx with
  | some existSource =>
    if existSource.gasPrice < tx.gasPrice then
      -- replace the existing one
      let deleted := SortedSet.delete orderByNonceTx.Compare l existSource
      ({ s with size := s.size - deleted.2.length + 1,
                waitingMap := s.waitingMap.insert tx.source
                  (SortedSet.insert orderByNonceTx.Compare deleted.1 tx) },
        some existSource, some tx)
    else (s, some tx, some existSource)
  | none =>
    ({ s with size := s.size + 1,
              waitingMap := s.waitingMap.insert tx.source (SortedSet.insert orderByNonceTx.Compare l tx) },
      none, none)

/-- The first part of `push`, up to the check of a full container: `none` for the early returns
with `added` false, and otherwise the container, `evicted` and `conflicted`.  A nonce next to the
state's goes to the source's list, made empty when missing; another one only next to the largest
nonce of an existing list.  An existing empty list has no last transaction, and the code goes on
with nothing inserted. -/
def pushInsert (s : PendingContainer Address) (tx : PoolTx Address) (stateNonce : UInt64) :
    Option (PendingContainer Address × Option (PoolTx Address) × Option (PoolTx Address)) :=
  if tx.nonce = stateNonce + 1 then
    some (s.doInsertOrReplace ((s.waitingMap.lookup tx.source).getD []) tx)
  else
    match s.waitingMap.lookup tx.source with
    | none => none
    | some l =>
      match skipGetLast l with
      | some bigNonceTx =>
        if tx.nonce > bigNonceTx.nonce + 1 then none else some (s.doInsertOrReplace l tx)
      | none => some (s, none, none)

/-- The loop of `push` over the lists for the cheapest last transaction, the first of the
cheapest in the order of iteration; a list with no last transaction makes the type assertion
panic. -/
def lowestLast : Option (PoolTx Address) → List (List (PoolTx Address)) →
    Outcome (Option (PoolTx Address))
  | lowPriceTx, [] => pure lowPriceTx
  | lowPriceTx, l :: ls =>
    match skipGetLast l with
    | none => .panic "interface conversion: datacommon.Comparator is nil, not *core.orderByNonceTx"
    | some lastTx =>
      let low := lowPriceTx.getD lastTx
      lowestLast (some (if low.gasPrice > lastTx.gasPrice then lastTx else low)) ls

/-- `remove`: the transactions of the source's list equal to `tx` are deleted and uncounted, and an
emptied list leaves the map. -/
def remove (s : PendingContainer Address) (tx : PoolTx Address) : PendingContainer Address :=
  match s.waitingMap.lookup tx.source with
  | none => s
  | some l =>
    let deleted := SortedSet.delete orderByNonceTx.Compare l tx
    { s with size := s.size - deleted.2.length,
             waitingMap := if deleted.1.length = 0 then s.waitingMap.erase tx.source
               else s.waitingMap.insert tx.source deleted.1 }

/-- `push`: returns the container, `added`, `evicted` and `conflicted`.  When nothing was evicted
and the container is full, the cheapest last transaction is removed, possibly the one just
inserted. -/
def push (s : PendingContainer Address) (tx : PoolTx Address) (stateNonce : UInt64)
    (ord : GoMap.IterOrder (Σ _ : Address, List (PoolTx Address))) :
    Outcome (PendingContainer Address × Bool × Option (PoolTx Address) × Option (PoolTx Address)) :=
  match s.pushInsert tx stateNonce with
  | none => pure (s, false, none, none)
  | some (s, evicted, conflicted) =>
    if evicted.isNone ∧ s.size ≥ s.limit then do
      let low ← lowestLast none ((ord.order s.waitingMap.entries).map (·.2))
      match low with
      | some lowPriceTx => pure (s.remove lowPriceTx, true, some lowPriceTx, some tx)
      | none => pure (s, true, evicted, conflicted)
    else pure (s, true, evicted, conflicted)

/-- The loop of `asSlice` over one list: it stops after the transaction that brings the count to
the limit. -/
def asSliceList (limit : ℤ) : List (PoolTx Address) → ℤ → List (PoolTx Address) × ℤ
  | [], count => ([], count)
  | tx :: rest, count =>
    if count + 1 ≥ limit then ([tx], count + 1)
    else
      let r := asSliceList limit rest (count + 1)
      (tx :: r.1, r.2)

/-- The outer loop of `asSlice`: the `break` leaves only the inner loop, so each later list still
gives its first transaction. -/
def asSliceLists (limit : ℤ) : List (List (PoolTx Address)) → ℤ → List (PoolTx Address)
  | [], _ => []
  | l :: ls, count =>
    let r := asSliceList limit l count
    r.1 ++ asSliceLists limit ls r.2

/-- `asSlice`. -/
def asSlice (s : PendingContainer Address) (limit : ℤ)
    (ord : GoMap.IterOrder (Σ _ : Address, List (PoolTx Address))) : List (PoolTx Address) :=
  asSliceLists limit ((ord.order s.waitingMap.entries).map (·.2)) 0

/-- `priceHeap.Less`: the higher gas price comes first. -/
def priceHeap.Less (a b : PoolTx Address) : Bool := decide (a.gasPrice > b.gasPrice)

/-- The first transaction of every list goes to the heap; a list with no first transaction makes
the type assertion panic. -/
def peekHeads : List (List (PoolTx Address)) → List (PoolTx Address) →
    Outcome (List (PoolTx Address))
  | [], packingList => pure packingList
  | l :: ls, packingList =>
    match l.head? with
    | none => .panic "interface conversion: datacommon.Comparator is nil, not *core.orderByNonceTx"
    | some tx => peekHeads ls (SliceHeap.push priceHeap.Less packingList tx)

/-- After a call on `tx`, the next transaction of its source, if there is one, goes to the heap
and its position to `noncePositionMap`. -/
def peekAdvance (s : PendingContainer Address) (packingList : List (PoolTx Address))
    (noncePositionMap : Address → ℕ) (tx : PoolTx Address) :
    List (PoolTx Address) × (Address → ℕ) :=
  let next := noncePositionMap tx.source + 1
  match s.waitingMap.lookup tx.source with
  | some l =>
    if h : next < l.length then
      (SliceHeap.push priceHeap.Less packingList l[next],
        Function.update noncePositionMap tx.source next)
    else (packingList, noncePositionMap)
  | none => (packingList, noncePositionMap)

/-- The loop of `peek`.  The callback `f` answers as a function of the transactions it was called
on before, and the loop returns the transactions it was called on.  A round pops one transaction
and pushes at most the next one of its source, each pending transaction once at most, so as many
rounds as there are pending transactions suffice. -/
def peekLoop (s : PendingContainer Address) (f : List (PoolTx Address) → PoolTx Address → Bool) :
    ℕ → List (PoolTx Address) → (Address → ℕ) → List (PoolTx Address) → List (PoolTx Address)
  | 0, _, _, called => called
  | fuel + 1, packingList, noncePositionMap, called =>
    match SliceHeap.pop priceHeap.Less packingList with
    | none => called
    | some (tx, packingList) =>
      if f called tx = false then called ++ [tx]
      else
        let r := s.peekAdvance packingList noncePositionMap tx
        peekLoop s f fuel r.1 r.2 (called ++ [tx])

/-- `peek`: the transactions the callback is called on, the first of every source in the heap,
and after each one the next of its source. -/
def peek (s : PendingContainer Address) (f : List (PoolTx Address) → PoolTx Address → Bool)
    (ord : GoMap.IterOrder (Σ _ : Address, List (PoolTx Address))) :
    Outcome (List (PoolTx Address)) :=
  if s.size = 0 then pure []
  else do
    let packingList ← peekHeads ((ord.order s.waitingMap.entries).map (·.2))
      (SliceHeap.init priceHeap.Less [])
    pure (peekLoop s f (GoMap.flat s.waitingMap).length packingList (fun _ => 0) [])

end PendingContainer

namespace SimpleContainer

variable [DecidableEq Address]

/-- The loop of `addToQueue` over the queue: an old transaction of the source and nonce that pays
at least as much turns the new one away (the early return, `true`), and one that pays less is
deleted.  Returns the queue, `evicted`, `conflicted` and whether it returned early. -/
def addToQueueLoop (tx : PoolTx Address) :
    List (PoolTx Address) → AList (fun _ : Hash => PoolTx Address) → Option (PoolTx Address) →
      Option (PoolTx Address) →
      AList (fun _ : Hash => PoolTx Address) × Option (PoolTx Address) × Option (PoolTx Address) ×
        Bool
  | [], queue, evicted, conflicted => (queue, evicted, conflicted, false)
  | old :: rest, queue, evicted, conflicted =>
    if old.nonce = tx.nonce ∧ old.source = tx.source then
      if old.gasPrice ≥ tx.gasPrice then (queue, some tx, some old, true)
      else addToQueueLoop tx rest (queue.erase old.hash) (some old) (some tx)
    else addToQueueLoop tx rest queue evicted conflicted

/-- `addToQueue`: returns the container, `evicted`, `conflicted` and the error. -/
def addToQueue (c : SimpleContainer Address) (tx : PoolTx Address)
    (ord : GoMap.IterOrder (Σ _ : Hash, PoolTx Address)) :
    SimpleContainer Address × Option (PoolTx Address) × Option (PoolTx Address) ×
      Option PushError :=
  if (c.queue.entries.length : ℤ) > c.queueLimit then
    (c, none, none, some (.queueFull c.queue.entries.length))
  else
    let r := addToQueueLoop tx ((ord.order c.queue.entries).map (·.2)) c.queue none none
    if r.2.2.2 then ({ c with queue := r.1 }, r.2.1, r.2.2.1, none)
    else ({ c with queue := r.1.insert tx.hash tx }, r.2.1, r.2.2.1, none)

/-- The end of `push` once the transaction is in `pending` or `queue`, or turned away: it enters
`txsMap`, and the evicted transaction leaves it; a transaction that evicted itself is reported with
the one it conflicts with. -/
def pushFinish (c : SimpleContainer Address) (tx : PoolTx Address) (now : ℤ)
    (evicted conflicted : Option (PoolTx Address)) : Outcome (SimpleContainer Address × Option PushError) :=
  let c := { c with txsMap := c.txsMap.insert tx.hash ⟨tx, now⟩ }
  match evicted with
  | none => pure (c, none)
  | some ev =>
    let c := { c with txsMap := c.txsMap.erase ev.hash }
    if ev.hash = tx.hash then
      match conflicted with
      | some cf => pure (c, some (.sameNonce cf.hash))
      | none => .panic "runtime error: invalid memory address or nil pointer dereference"
    else pure (c, none)

/-- `push`, with the state's nonce of the source and the time of day. -/
def push (c : SimpleContainer Address) (tx : PoolTx Address) (stateNonce : UInt64) (now : ℤ)
    (ordW : GoMap.IterOrder (Σ _ : Address, List (PoolTx Address)))
    (ordQ : GoMap.IterOrder (Σ _ : Hash, PoolTx Address)) :
    Outcome (SimpleContainer Address × Option PushError) :=
  if (c.txsMap.lookup tx.hash).isSome then pure (c, none)
  else if tx.nonce ≤ stateNonce ∨ tx.nonce > stateNonce + 1000 then pure (c, some .nonce)
  else do
    let (p, success, evicted, conflicted) ← c.pending.push tx stateNonce ordW
    let c := { c with pending := p }
    if success then c.pushFinish tx now evicted conflicted
    else
      let (c, evicted, conflicted, err) := c.addToQueue tx ordQ
      match err with
      | some e => pure (c, some e)
      | none => c.pushFinish tx now evicted conflicted

/-- `removeWithoutLock`. -/
def removeWithoutLock (c : SimpleContainer Address) (tx : PoolTx Address) :
    SimpleContainer Address :=
  { c with txsMap := c.txsMap.erase tx.hash, pending := c.pending.remove tx,
           queue := c.queue.erase tx.hash }

/-- `remove`: the transaction `txsMap` holds under the hash, if any, is removed. -/
def remove (c : SimpleContainer Address) (key : Hash) : SimpleContainer Address :=
  match c.txsMap.lookup key with
  | none => c
  | some tx => c.removeWithoutLock tx.item

/-- `mapToNonceTxSlice`: the queue's transactions in the order of iteration, sorted by nonce.  The
code's `sort.Sort` is not stable; a stable sort of every order of iteration gives every order it
may give. -/
def mapToNonceTxSlice (queue : AList fun _ : Hash => PoolTx Address)
    (ord : GoMap.IterOrder (Σ _ : Hash, PoolTx Address)) : List (PoolTx Address) :=
  ((ord.order queue.entries).map (·.2)).mergeSort fun a b => a.nonce ≤ b.nonce

/-- One transaction of the loop of `promoteQueueToPending`: one the chain has passed is dropped;
another is pushed to `pending`, the transaction it evicts is dropped, and it leaves the queue once
added. -/
def promoteStep (nonceOf : Address → UInt64)
    (ordW : GoMap.IterOrder (Σ _ : Address, List (PoolTx Address)))
    (c : SimpleContainer Address) (tx : PoolTx Address) : Outcome (SimpleContainer Address) :=
  let stateNonce := nonceOf tx.source
  if tx.nonce ≤ stateNonce then
    pure { c with txsMap := c.txsMap.erase tx.hash, queue := c.queue.erase tx.hash }
  else do
    let (p, success, evicted, _) ← c.pending.push tx stateNonce ordW
    let c := { c with pending := p }
    let c := match evicted with
      | some ev => { c with txsMap := c.txsMap.erase ev.hash, queue := c.queue.erase ev.hash }
      | none => c
    pure (if success then { c with queue := c.queue.erase tx.hash } else c)

/-- `promoteQueueToPending`, with the state's nonces. -/
def promoteQueueToPending (c : SimpleContainer Address) (nonceOf : Address → UInt64)
    (ordW : GoMap.IterOrder (Σ _ : Address, List (PoolTx Address)))
    (ordQ : GoMap.IterOrder (Σ _ : Hash, PoolTx Address)) : Outcome (SimpleContainer Address) :=
  (mapToNonceTxSlice c.queue ordQ).foldlM (promoteStep nonceOf ordW) c

/-- `asSlice`: at most the pending count. -/
def asSlice (c : SimpleContainer Address) (limit : ℤ)
    (ord : GoMap.IterOrder (Σ _ : Address, List (PoolTx Address))) : List (PoolTx Address) :=
  c.pending.asSlice (min limit c.pending.size) ord

/-- `evictPending`: the pending transactions the chain has passed are removed. -/
def evictPending (c : SimpleContainer Address) (nonceOf : Address → UInt64)
    (ord : GoMap.IterOrder (Σ _ : Address, List (PoolTx Address))) : SimpleContainer Address :=
  (c.asSlice maxPendingSize ord).foldl
    (fun c tx => if tx.nonce ≤ nonceOf tx.source then c.remove tx.hash else c) c

/-- `evictTimeout`: the transactions older than the timeout are removed.  An entry the loop has
not reached and that is deleted is not visited. -/
def evictTimeout (c : SimpleContainer Address) (now : ℤ)
    (ord : GoMap.IterOrder (Σ _ : Hash, TransactionWithTime Address)) : SimpleContainer Address :=
  (ord.order c.txsMap.entries).foldl
    (fun c e =>
      match c.txsMap.lookup e.1 with
      | some tx => if now - tx.begin > c.txTimeout then c.removeWithoutLock tx.item else c
      | none => c) c

end SimpleContainer

end Zvchain
