import Zvchain.Core.PendingInvariant
import Zvchain.Lib.Transition

/-!
# What the container keeps over every run

Every transaction of `pending` or `queue` is held in `txsMap` under its hash, `pending` and
`queue` are disjoint, the queue holds at most one transaction for a source and a nonce, and the
pending lists keep their invariant (`SimpleContainer.Inv`).  Every operation keeps this from every
state that has it, and `push` and `promoteQueueToPending` never panic there, so every state the
container reaches from `newSimpleContainer` has it.

What is not kept is that `txsMap` holds nothing else: `orderByNonceTx.Compare` calls two
transactions of one nonce equal, so `removeWithoutLock` of a queued transaction also deletes from
`pending` the one of the same source and nonce, whose hash stays in `txsMap`.
-/

namespace Zvchain

variable {Address : Type} [DecidableEq Address]

namespace SimpleContainer

/-- The invariant of `simpleContainer`. -/
structure Inv (c : SimpleContainer Address) : Prop where
  pending : c.pending.Inv
  txsMap_hash : ∀ h w, c.txsMap.lookup h = some w → w.item.hash = h
  pending_mem : ∀ tx ∈ c.pending.txs, (c.txsMap.lookup tx.hash).map (·.item) = some tx
  queue_mem : ∀ h tx, c.queue.lookup h = some tx →
    tx.hash = h ∧ (c.txsMap.lookup h).map (·.item) = some tx
  disjoint : ∀ tx ∈ c.pending.txs, c.queue.lookup tx.hash = none
  queue_unique : ∀ h h' tx tx', c.queue.lookup h = some tx → c.queue.lookup h' = some tx' →
    tx.source = tx'.source → tx.nonce = tx'.nonce → h = h'

variable {c : SimpleContainer Address} {tx : PoolTx Address}

/-- A hash `txsMap` does not hold is neither pending nor queued. -/
theorem fresh_of_lookup_eq_none (hc : c.Inv) (hnone : c.txsMap.lookup tx.hash = none) :
    tx.hash ∉ c.pending.txs.map (·.hash) ∧ c.queue.lookup tx.hash = none := by
  refine ⟨fun hin => ?_, ?_⟩
  · obtain ⟨x, hx, hxh⟩ := List.mem_map.mp hin
    have := hc.pending_mem x hx
    rw [hxh, hnone] at this
    cases this
  · cases hq : c.queue.lookup tx.hash with
    | none => rfl
    | some q =>
      have := (hc.queue_mem _ q hq).2
      rw [hnone] at this
      cases this

/-- `removeWithoutLock` of the transaction `txsMap` holds under its hash keeps the invariant. -/
theorem removeWithoutLock_inv (hc : c.Inv) (htx : (c.txsMap.lookup tx.hash).map (·.item) = some tx) :
    (c.removeWithoutLock tx).Inv := by
  obtain ⟨hpinv, hpmem⟩ := PendingContainer.remove_spec hc.pending tx
  -- a pending transaction that stays has another hash than `tx`
  have hne : ∀ x ∈ (c.pending.remove tx).txs, x.hash ≠ tx.hash := fun x hx hxh => by
    obtain ⟨hx, hnot⟩ := (hpmem x).mp hx
    have hxt : x = tx := by
      have := hc.pending_mem x hx
      rw [hxh, htx] at this
      exact (Option.some.inj this).symm
    exact hnot ⟨congrArg PoolTx.source hxt, compare_eq_iff.mpr (Or.inl hxh)⟩
  refine ⟨hpinv, fun h w hw => ?_, fun x hx => ?_, fun h q hq => ?_, fun x hx => ?_,
    fun h h' q q' hq hq' => ?_⟩
  · exact hc.txsMap_hash h w (GoMap.lookup_erase_eq_some.mp hw).2
  · rw [removeWithoutLock, AList.lookup_erase_ne (hne x hx)]
    exact hc.pending_mem x ((hpmem x).mp hx).1
  · obtain ⟨hh, hq⟩ := GoMap.lookup_erase_eq_some.mp hq
    rw [removeWithoutLock, AList.lookup_erase_ne hh]
    exact hc.queue_mem h q hq
  · exact GoMap.lookup_erase_eq_none_of (hc.disjoint x ((hpmem x).mp hx).1)
  · exact hc.queue_unique h h' q q' (GoMap.lookup_erase_eq_some.mp hq).2
      (GoMap.lookup_erase_eq_some.mp hq').2

/-- `remove` keeps the invariant. -/
theorem remove_inv (hc : c.Inv) (key : Hash) : (c.remove key).Inv := by
  unfold remove
  cases hw : c.txsMap.lookup key with
  | none => exact hc
  | some w =>
    have hkey := hc.txsMap_hash key w hw
    exact removeWithoutLock_inv hc (by rw [hkey, hw]; rfl)

/-- `evictTimeout` keeps the invariant: each transaction it removes is the one `txsMap` holds. -/
theorem evictTimeout_inv (hc : c.Inv) (now : ℤ)
    (ord : GoMap.IterOrder (Σ _ : Hash, TransactionWithTime Address)) :
    (c.evictTimeout now ord).Inv := by
  unfold evictTimeout
  -- induction on the entries visited, from any state with the invariant
  generalize ord.order c.txsMap.entries = es
  induction es generalizing c with
  | nil => exact hc
  | cons e es ih =>
    refine ih ?_
    dsimp only
    cases hw : c.txsMap.lookup e.1 with
    | none => exact hc
    | some w =>
      have hkey := hc.txsMap_hash e.1 w hw
      dsimp only
      split_ifs
      · exact removeWithoutLock_inv hc (by rw [hkey, hw]; rfl)
      · exact hc

/-- `evictPending` keeps the invariant. -/
theorem evictPending_inv (hc : c.Inv) (nonceOf : Address → UInt64)
    (ord : GoMap.IterOrder (Σ _ : Address, List (PoolTx Address))) :
    (c.evictPending nonceOf ord).Inv := by
  unfold evictPending
  generalize c.asSlice maxPendingSize ord = txs
  induction txs generalizing c with
  | nil => exact hc
  | cons t txs ih =>
    refine ih ?_
    dsimp only
    split_ifs
    · exact remove_inv hc t.hash
    · exact hc

/-- The invariant reads the maps through their lookups only. -/
theorem Inv.congr_lookup (hc : c.Inv) {c' : SimpleContainer Address} (hp : c'.pending = c.pending)
    (ht : ∀ h, c'.txsMap.lookup h = c.txsMap.lookup h)
    (hq : ∀ h, c'.queue.lookup h = c.queue.lookup h) : c'.Inv where
  pending := hp ▸ hc.pending
  txsMap_hash h w hw := hc.txsMap_hash h w (by rwa [← ht])
  pending_mem x hx := by rw [ht]; exact hc.pending_mem x (hp ▸ hx)
  queue_mem h q hq' := by rw [ht]; exact hc.queue_mem h q (by rwa [← hq])
  disjoint x hx := by rw [hq]; exact hc.disjoint x (hp ▸ hx)
  queue_unique h h' q q' h1 h2 := hc.queue_unique h h' q q' (by rwa [← hq]) (by rwa [← hq])

/-- Dropping a queued transaction from `queue` and `txsMap` keeps the invariant. -/
theorem dropQueued_inv (hc : c.Inv) (hq : c.queue.lookup tx.hash = some tx) :
    ({ c with txsMap := c.txsMap.erase tx.hash, queue := c.queue.erase tx.hash } :
      SimpleContainer Address).Inv where
  pending := hc.pending
  txsMap_hash h w hw := hc.txsMap_hash h w (GoMap.lookup_erase_eq_some.mp hw).2
  pending_mem x hx := by
    -- a pending transaction is not queued, so its hash is not the one dropped
    have hne : x.hash ≠ tx.hash := fun h => by
      have := hc.disjoint x hx
      rw [h, hq] at this
      cases this
    rw [AList.lookup_erase_ne hne]
    exact hc.pending_mem x hx
  queue_mem h q hq' := by
    obtain ⟨hh, hq'⟩ := GoMap.lookup_erase_eq_some.mp hq'
    rw [AList.lookup_erase_ne hh]
    exact hc.queue_mem h q hq'
  disjoint x hx := GoMap.lookup_erase_eq_none_of (hc.disjoint x hx)
  queue_unique h h' q q' h1 h2 := hc.queue_unique h h' q q' (GoMap.lookup_erase_eq_some.mp h1).2
    (GoMap.lookup_erase_eq_some.mp h2).2

/-- Queuing a fresh transaction of a source and nonce the queue does not hold keeps the
invariant. -/
theorem enqueue_inv (hc : c.Inv) (hnone : c.txsMap.lookup tx.hash = none)
    (hno : ∀ h q, c.queue.lookup h = some q → ¬ (q.nonce = tx.nonce ∧ q.source = tx.source))
    (now : ℤ) :
    ({ c with txsMap := c.txsMap.insert tx.hash ⟨tx, now⟩, queue := c.queue.insert tx.hash tx } :
      SimpleContainer Address).Inv := by
  obtain ⟨hfresh, hqfresh⟩ := fresh_of_lookup_eq_none hc hnone
  -- a hash `txsMap` holds is not the new one
  have hne : ∀ h w, c.txsMap.lookup h = some w → h ≠ tx.hash := fun h w hw hh => by
    rw [hh, hnone] at hw
    cases hw
  refine ⟨hc.pending, fun h w hw => ?_, fun x hx => ?_, fun h q hq => ?_, fun x hx => ?_,
    fun h h' q q' h1 h2 hs hn => ?_⟩
  · rcases GoMap.lookup_insert_eq_some.mp hw with ⟨rfl, rfl⟩ | ⟨_, hw⟩
    · rfl
    · exact hc.txsMap_hash h w hw
  · have hx' := hc.pending_mem x hx
    obtain ⟨w, hw, -⟩ := Option.map_eq_some_iff.mp hx'
    rw [AList.lookup_insert_ne (hne _ w hw)]
    exact hx'
  · rcases GoMap.lookup_insert_eq_some.mp hq with ⟨rfl, rfl⟩ | ⟨hh, hq⟩
    · simp
    · rw [AList.lookup_insert_ne hh]
      exact hc.queue_mem h q hq
  · have hx' := hc.pending_mem x hx
    obtain ⟨w, hw, -⟩ := Option.map_eq_some_iff.mp hx'
    rw [AList.lookup_insert_ne (hne _ w hw)]
    exact hc.disjoint x hx
  · -- the new transaction shares its source and nonce with no queued one
    rcases GoMap.lookup_insert_eq_some.mp h1 with ⟨rfl, rfl⟩ | ⟨hh1, h1⟩ <;>
      rcases GoMap.lookup_insert_eq_some.mp h2 with ⟨rfl, rfl⟩ | ⟨hh2, h2⟩
    · rfl
    · exact absurd ⟨hn.symm, hs.symm⟩ (hno h' q' h2)
    · exact absurd ⟨hn, hs⟩ (hno h q h1)
    · exact hc.queue_unique h h' q q' h1 h2 hs hn

/-- The end of `push` after `pending` added the transaction keeps the invariant and does not
panic. -/
theorem pushFinish_of_pushed (hc : c.Inv) (hnone : c.txsMap.lookup tx.hash = none)
    {p : PendingContainer Address} {ev cf : Option (PoolTx Address)}
    (hp : c.pending.Pushed tx p ev cf) (now : ℤ) :
    ∃ c' err, ({ c with pending := p } : SimpleContainer Address).pushFinish tx now ev cf =
      .ok (c', err) ∧ c'.Inv := by
  obtain ⟨hfresh, hqfresh⟩ := fresh_of_lookup_eq_none hc hnone
  have hne : ∀ h w, c.txsMap.lookup h = some w → h ≠ tx.hash := fun h w hw hh => by
    rw [hh, hnone] at hw
    cases hw
  -- the pending and queued transactions are in `txsMap` once `tx` is
  have hpm : ∀ x ∈ p.txs,
      ((c.txsMap.insert tx.hash ⟨tx, now⟩).lookup x.hash).map (·.item) = some x := fun x hx => by
    rcases hp.mem x hx with rfl | hx
    · simp
    · have hx' := hc.pending_mem x hx
      obtain ⟨w, hw, -⟩ := Option.map_eq_some_iff.mp hx'
      rw [AList.lookup_insert_ne (hne _ w hw)]
      exact hx'
  have hqm : ∀ h q, c.queue.lookup h = some q →
      q.hash = h ∧ ((c.txsMap.insert tx.hash ⟨tx, now⟩).lookup h).map (·.item) = some q :=
    fun h q hq => by
      have hq' := hc.queue_mem h q hq
      obtain ⟨w, hw, -⟩ := Option.map_eq_some_iff.mp hq'.2
      rw [AList.lookup_insert_ne (hne _ w hw)]
      exact hq'
  have hth : ∀ h w, (c.txsMap.insert tx.hash ⟨tx, now⟩).lookup h = some w → w.item.hash = h :=
    fun h w hw => by
      rcases GoMap.lookup_insert_eq_some.mp hw with ⟨rfl, rfl⟩ | ⟨_, hw⟩
      · rfl
      · exact hc.txsMap_hash h w hw
  have hdis : ∀ x ∈ p.txs, c.queue.lookup x.hash = none := fun x hx => by
    rcases hp.mem x hx with rfl | hx
    · exact hqfresh
    · exact hc.disjoint x hx
  unfold pushFinish
  cases ev with
  | none =>
    exact ⟨_, none, rfl, ⟨hp.inv, hth, hpm, hqm, hdis, hc.queue_unique⟩⟩
  | some e =>
    -- the evicted hash is neither pending nor queued any more
    have hpe : ∀ x ∈ p.txs, x.hash ≠ e.hash := fun x hx =>
      hp.hash_ne_evicted hc.pending hfresh hx rfl
    have hqe : ∀ h q, c.queue.lookup h = some q → h ≠ e.hash := fun h q hq hh => by
      rcases (hp.evicted_mem e rfl).2 with rfl | he
      · rw [hh, hqfresh] at hq
        cases hq
      · rw [hh, hc.disjoint e he] at hq
        cases hq
    let T := (c.txsMap.insert tx.hash ⟨tx, now⟩).erase e.hash
    have hinv : ({ c with pending := p, txsMap := T } : SimpleContainer Address).Inv :=
      ⟨hp.inv, fun h w hw => hth h w (GoMap.lookup_erase_eq_some.mp hw).2,
        fun x hx => by rw [AList.lookup_erase_ne (hpe x hx)]; exact hpm x hx,
        fun h q hq => by rw [AList.lookup_erase_ne (hqe h q hq)]; exact hqm h q hq, hdis,
        hc.queue_unique⟩
    dsimp only
    split_ifs with heq
    · -- the transaction evicted itself: it is reported with the one it conflicts with
      obtain ⟨cf', rfl⟩ := Option.isSome_iff_exists.mp (hp.conflicted rfl)
      exact ⟨_, _, rfl, hinv⟩
    · exact ⟨_, none, rfl, hinv⟩

/-- The loop of `addToQueue` that meets no transaction of the source and nonce changes nothing. -/
theorem addToQueueLoop_of_forall_not (tx : PoolTx Address) :
    ∀ (L : List (PoolTx Address)) queue evicted conflicted,
      (∀ o ∈ L, ¬ (o.nonce = tx.nonce ∧ o.source = tx.source)) →
      addToQueueLoop tx L queue evicted conflicted = (queue, evicted, conflicted, false)
  | [], _, _, _, _ => rfl
  | o :: L, queue, evicted, conflicted, h => by
    rw [addToQueueLoop, if_neg (h o List.mem_cons_self)]
    exact addToQueueLoop_of_forall_not tx L queue evicted conflicted
      fun o' ho' => h o' (List.mem_cons_of_mem o ho')

/-- The loop of `addToQueue` that meets one transaction of the source and nonce turns the new
one away or deletes the old one. -/
theorem addToQueueLoop_of_unique (tx : PoolTx Address) {old : PoolTx Address}
    (hold : old.nonce = tx.nonce ∧ old.source = tx.source) :
    ∀ (L : List (PoolTx Address)) queue evicted conflicted, L.Nodup → old ∈ L →
      (∀ o ∈ L, (o.nonce = tx.nonce ∧ o.source = tx.source) → o = old) →
      addToQueueLoop tx L queue evicted conflicted =
        if old.gasPrice ≥ tx.gasPrice then (queue, some tx, some old, true)
        else (queue.erase old.hash, some old, some tx, false)
  | [], _, _, _, _, hmem, _ => absurd hmem List.not_mem_nil
  | o :: L, queue, evicted, conflicted, hnd, hmem, huniq => by
    obtain ⟨hoL, hnd⟩ := List.nodup_cons.mp hnd
    by_cases ho : o = old
    · -- the old transaction: the later ones are of another source or nonce
      subst ho
      rw [addToQueueLoop, if_pos hold]
      split_ifs
      · rfl
      · exact addToQueueLoop_of_forall_not tx L _ _ _ fun o' ho' hm =>
          hoL (huniq o' (List.mem_cons_of_mem _ ho') hm ▸ ho')
    · have hno : ¬ (o.nonce = tx.nonce ∧ o.source = tx.source) := fun hm =>
        ho (huniq o List.mem_cons_self hm)
      rw [addToQueueLoop, if_neg hno]
      exact addToQueueLoop_of_unique tx hold L queue evicted conflicted hnd
        ((List.mem_cons.mp hmem).resolve_left (Ne.symm ho))
        fun o' ho' hm => huniq o' (List.mem_cons_of_mem _ ho') hm

/-- The queued transactions, in an order of iteration, are the queue's values, each once. -/
theorem queue_values (hc : c.Inv) (ord : GoMap.IterOrder (Σ _ : Hash, PoolTx Address)) :
    (((ord.order c.queue.entries).map (·.2)).map (·.hash)).Nodup ∧
      ∀ o ∈ (ord.order c.queue.entries).map (·.2), c.queue.lookup o.hash = some o := by
  have hkey : ∀ e ∈ ord.order c.queue.entries, e.2.hash = e.1 := fun e he =>
    (hc.queue_mem e.1 e.2 (AList.mem_lookup_iff.mpr ((ord.perm _).subset he))).1
  refine ⟨?_, fun o ho => ?_⟩
  · -- their hashes are the keys of the queue
    rw [List.map_map]
    have hmap : (ord.order c.queue.entries).map ((·.hash) ∘ (·.2)) =
        (ord.order c.queue.entries).map (·.1) := List.map_congr_left fun e he => hkey e he
    rw [hmap]
    exact ((ord.perm _).map _).nodup_iff.mpr c.queue.nodupKeys
  · obtain ⟨e, he, rfl⟩ := List.mem_map.mp ho
    rw [hkey e he]
    exact AList.mem_lookup_iff.mpr ((ord.perm _).subset he)

omit [DecidableEq Address] in
/-- A queued transaction is among the values in every order of iteration. -/
theorem mem_order_values (ord : GoMap.IterOrder (Σ _ : Hash, PoolTx Address)) {h : Hash}
    {q : PoolTx Address} (hq : c.queue.lookup h = some q) :
    q ∈ (ord.order c.queue.entries).map (·.2) :=
  List.mem_map.mpr ⟨⟨h, q⟩, (ord.perm _).symm.subset (AList.mem_lookup_iff.mp hq), rfl⟩

/-- `push` from a state with the invariant does not panic and keeps the invariant. -/
theorem push_inv (hc : c.Inv) (tx : PoolTx Address) (stateNonce : UInt64) (now : ℤ)
    (ordW : GoMap.IterOrder (Σ _ : Address, List (PoolTx Address)))
    (ordQ : GoMap.IterOrder (Σ _ : Hash, PoolTx Address)) :
    ∃ c' err, c.push tx stateNonce now ordW ordQ = .ok (c', err) ∧ c'.Inv := by
  unfold push
  split_ifs with hin hnonce
  · exact ⟨c, none, rfl, hc⟩
  · exact ⟨c, some .nonce, rfl, hc⟩
  have hnone : c.txsMap.lookup tx.hash = none := Option.not_isSome_iff_eq_none.mp hin
  obtain ⟨hfresh, hqfresh⟩ := fresh_of_lookup_eq_none hc hnone
  obtain ⟨p, added, ev, cf, hpush, hno, hyes⟩ :=
    PendingContainer.push_spec hc.pending hfresh stateNonce ordW
  rw [hpush, Outcome.ok_bind]
  cases added with
  | true => exact pushFinish_of_pushed hc hnone (hyes rfl) now
  | false =>
    -- `pending` turned it away unchanged: the queue takes it
    obtain ⟨rfl, rfl⟩ := hno rfl
    simp only [Bool.false_eq_true, if_false]
    unfold addToQueue
    dsimp only
    by_cases hfull : (c.queue.entries.length : ℤ) > c.queueLimit
    · rw [if_pos hfull]
      exact ⟨_, _, rfl, hc⟩
    rw [if_neg hfull]
    obtain ⟨hnd, hmem⟩ := queue_values hc ordQ
    by_cases hex : ∃ old ∈ (ordQ.order c.queue.entries).map (·.2),
        old.nonce = tx.nonce ∧ old.source = tx.source
    · obtain ⟨old, hold, holdm⟩ := hex
      have hq := hmem old hold
      -- the queue holds no other transaction of the source and nonce
      have huniq : ∀ o ∈ (ordQ.order c.queue.entries).map (·.2),
          (o.nonce = tx.nonce ∧ o.source = tx.source) → o = old := fun o ho hom => by
        have hh := hc.queue_unique _ _ o old (hmem o ho) hq (hom.2.trans holdm.2.symm)
          (hom.1.trans holdm.1.symm)
        have := hmem o ho
        rw [hh, hq] at this
        exact (Option.some.inj this).symm
      rw [addToQueueLoop_of_unique tx holdm _ _ _ _ (List.Nodup.of_map _ hnd) hold huniq]
      have hold_ne : old.hash ≠ tx.hash := fun h => by rw [h, hqfresh] at hq; cases hq
      by_cases hprice : old.gasPrice ≥ tx.gasPrice
      · -- turned away by the old one: `txsMap` gets it and loses it again
        rw [if_pos hprice]
        refine ⟨{ c with txsMap := (c.txsMap.insert tx.hash ⟨tx, now⟩).erase tx.hash },
          some (.sameNonce old.hash), by simp [pushFinish],
          hc.congr_lookup rfl (fun h => GoMap.lookup_erase_insert_of_none hnone h) fun _ => rfl⟩
      · -- the old one is deleted and the new one queued
        rw [if_neg hprice]
        have hdrop := dropQueued_inv hc hq
        have hnew := enqueue_inv hdrop (by rw [AList.lookup_erase_ne hold_ne.symm]; exact hnone)
          (fun h q hq' hm => by
            obtain ⟨hh, hq'⟩ := GoMap.lookup_erase_eq_some.mp hq'
            have hqo := huniq q (mem_order_values ordQ hq') hm
            exact hh ((hc.queue_mem h q hq').1 ▸ congrArg PoolTx.hash hqo))
          now
        let T := (c.txsMap.insert tx.hash ⟨tx, now⟩).erase old.hash
        let Q := (c.queue.erase old.hash).insert tx.hash tx
        refine ⟨{ c with txsMap := T, queue := Q }, none, by simp [T, Q, pushFinish, hold_ne],
          hnew.congr_lookup rfl (fun h => ?_) fun _ => rfl⟩
        -- the two orders of the updates of `txsMap` look up alike
        by_cases hh : h = old.hash
        · subst hh
          simp [T, AList.lookup_insert_ne hold_ne]
        · by_cases ht : h = tx.hash
          · subst ht
            simp [T, AList.lookup_erase_ne hh]
          · simp [T, AList.lookup_insert_ne ht, AList.lookup_erase_ne hh]
    · -- no transaction of the source and nonce is queued
      push Not at hex
      rw [addToQueueLoop_of_forall_not tx _ _ _ _ fun o ho hm => hex o ho hm.1 hm.2]
      exact ⟨_, none, rfl, enqueue_inv hc hnone (fun h q hq hm =>
        hex q (mem_order_values ordQ hq) hm.1 hm.2) now⟩

/-- One transaction of `promoteQueueToPending`, queued, keeps the invariant without panicking,
and the other queued transactions stay queued. -/
theorem promoteStep_inv (hc : c.Inv) (nonceOf : Address → UInt64)
    (ordW : GoMap.IterOrder (Σ _ : Address, List (PoolTx Address)))
    (hq : c.queue.lookup tx.hash = some tx) :
    ∃ c', promoteStep nonceOf ordW c tx = .ok c' ∧ c'.Inv ∧
      ∀ h q, c.queue.lookup h = some q → h ≠ tx.hash → c'.queue.lookup h = some q := by
  unfold promoteStep
  dsimp only
  split_ifs with hle
  · exact ⟨_, rfl, dropQueued_inv hc hq, fun h q hq' hne => by
      rw [AList.lookup_erase_ne hne]
      exact hq'⟩
  -- a queued transaction is not pending
  have hfresh : tx.hash ∉ c.pending.txs.map (·.hash) := fun hin => by
    obtain ⟨x, hx, hxh⟩ := List.mem_map.mp hin
    have := hc.disjoint x hx
    rw [hxh, hq] at this
    cases this
  have htx : (c.txsMap.lookup tx.hash).map (·.item) = some tx := (hc.queue_mem _ tx hq).2
  obtain ⟨p, added, ev, cf, hpush, hno, hyes⟩ :=
    PendingContainer.push_spec hc.pending hfresh (nonceOf tx.source) ordW
  rw [hpush, Outcome.ok_bind]
  cases added with
  | false =>
    obtain ⟨rfl, rfl⟩ := hno rfl
    exact ⟨_, rfl, hc, fun _ _ hq' _ => hq'⟩
  | true =>
    have hp := hyes rfl
    -- what `pending` holds is in `txsMap`, and not queued once `tx` leaves the queue
    have hpm : ∀ x ∈ p.txs, (c.txsMap.lookup x.hash).map (·.item) = some x := fun x hx => by
      rcases hp.mem x hx with rfl | hx
      · exact htx
      · exact hc.pending_mem x hx
    have hdis : ∀ x ∈ p.txs, (c.queue.erase tx.hash).lookup x.hash = none := fun x hx => by
      rcases hp.mem x hx with rfl | hx
      · exact AList.lookup_erase _ _
      · exact GoMap.lookup_erase_eq_none_of (hc.disjoint x hx)
    cases ev with
    | none =>
      dsimp only
      rw [if_pos rfl]
      refine ⟨_, rfl, ⟨hp.inv, hc.txsMap_hash, hpm, fun h q hq' => ?_, hdis,
        fun h h' q q' h1 h2 => hc.queue_unique h h' q q' (GoMap.lookup_erase_eq_some.mp h1).2
          (GoMap.lookup_erase_eq_some.mp h2).2⟩, fun h q hq' hne => ?_⟩
      · exact hc.queue_mem h q (GoMap.lookup_erase_eq_some.mp hq').2
      · rw [AList.lookup_erase_ne hne]
        exact hq'
    | some e =>
      -- the evicted transaction is `tx` or was pending, so its hash is no other queued one's
      have hpe : ∀ x ∈ p.txs, x.hash ≠ e.hash := fun x hx =>
        hp.hash_ne_evicted hc.pending hfresh hx rfl
      have hqe : ∀ h q, c.queue.lookup h = some q → h ≠ tx.hash → h ≠ e.hash :=
        fun h q hq' hne hh => by
          rcases (hp.evicted_mem e rfl).2 with rfl | he
          · exact hne hh
          · rw [hh, hc.disjoint e he] at hq'
            cases hq'
      have hkeep : ∀ h q, c.queue.lookup h = some q → h ≠ tx.hash →
          ((c.queue.erase e.hash).erase tx.hash).lookup h = some q := fun h q hq' hne => by
        rw [AList.lookup_erase_ne hne, AList.lookup_erase_ne (hqe h q hq' hne)]
        exact hq'
      dsimp only
      rw [if_pos rfl]
      refine ⟨_, rfl, ⟨hp.inv, fun h w hw => hc.txsMap_hash h w (GoMap.lookup_erase_eq_some.mp hw).2,
        fun x hx => by rw [AList.lookup_erase_ne (hpe x hx)]; exact hpm x hx,
        fun h q hq' => ?_, fun x hx => ?_, fun h h' q q' h1 h2 => ?_⟩, hkeep⟩
      · obtain ⟨hne, hq'⟩ := GoMap.lookup_erase_eq_some.mp hq'
        obtain ⟨-, hq'⟩ := GoMap.lookup_erase_eq_some.mp hq'
        rw [AList.lookup_erase_ne (hqe h q hq' hne)]
        exact hc.queue_mem h q hq'
      · rcases hp.mem x hx with rfl | hx'
        · exact AList.lookup_erase _ _
        · exact GoMap.lookup_erase_eq_none_of
            (GoMap.lookup_erase_eq_none_of (hc.disjoint x hx'))
      · exact hc.queue_unique h h' q q'
          (GoMap.lookup_erase_eq_some.mp (GoMap.lookup_erase_eq_some.mp h1).2).2
          (GoMap.lookup_erase_eq_some.mp (GoMap.lookup_erase_eq_some.mp h2).2).2

/-- The loop of `promoteQueueToPending` over transactions still queued, of distinct hashes, keeps
the invariant without panicking. -/
theorem foldlM_promoteStep_inv (nonceOf : Address → UInt64)
    (ordW : GoMap.IterOrder (Σ _ : Address, List (PoolTx Address))) :
    ∀ (sl : List (PoolTx Address)) (c : SimpleContainer Address), c.Inv →
      (sl.map (·.hash)).Nodup → (∀ t ∈ sl, c.queue.lookup t.hash = some t) →
      ∃ c', sl.foldlM (promoteStep nonceOf ordW) c = .ok c' ∧ c'.Inv
  | [], c, hc, _, _ => ⟨c, rfl, hc⟩
  | t :: sl, c, hc, hnd, hmem => by
    obtain ⟨c1, h1, hc1, hkeep⟩ := promoteStep_inv hc nonceOf ordW (hmem t List.mem_cons_self)
    rw [List.foldlM_cons, h1, Outcome.ok_bind]
    rw [List.map_cons, List.nodup_cons] at hnd
    exact foldlM_promoteStep_inv nonceOf ordW sl c1 hc1 hnd.2 fun t' ht' =>
      hkeep _ _ (hmem t' (List.mem_cons_of_mem t ht'))
        fun h => hnd.1 (h ▸ List.mem_map_of_mem ht')

/-- `promoteQueueToPending` from a state with the invariant does not panic and keeps it. -/
theorem promoteQueueToPending_inv (hc : c.Inv) (nonceOf : Address → UInt64)
    (ordW : GoMap.IterOrder (Σ _ : Address, List (PoolTx Address)))
    (ordQ : GoMap.IterOrder (Σ _ : Hash, PoolTx Address)) :
    ∃ c', c.promoteQueueToPending nonceOf ordW ordQ = .ok c' ∧ c'.Inv := by
  obtain ⟨hnd, hmem⟩ := queue_values hc ordQ
  -- the snapshot is the queue's transactions, sorted
  have hperm := List.mergeSort_perm ((ordQ.order c.queue.entries).map (·.2))
    fun a b => decide (a.nonce ≤ b.nonce)
  exact foldlM_promoteStep_inv nonceOf ordW _ c hc ((hperm.map _).nodup_iff.mpr hnd)
    fun t ht => hmem t (hperm.subset ht)

theorem newSimpleContainer_inv (pendingLimit queueLimit txTimeout : ℤ) :
    (newSimpleContainer pendingLimit queueLimit txTimeout : SimpleContainer Address).Inv where
  pending := ⟨rfl, (fun _ _ h => by cases h), List.nodup_nil⟩
  txsMap_hash _ _ h := by cases h
  pending_mem _ h := by cases h
  queue_mem _ _ h := by cases h
  disjoint _ h := by cases h
  queue_unique _ _ _ _ h := by cases h

/-- A container as `newSimpleContainer` makes it. -/
def Init (c : SimpleContainer Address) : Prop :=
  ∃ pendingLimit queueLimit txTimeout, c = newSimpleContainer pendingLimit queueLimit txTimeout

/-- One call of an operation of the container that returns, with any nonces of the state, times
and orders of iteration between and within calls. -/
inductive Step : SimpleContainer Address → SimpleContainer Address → Prop
  | push (tx : PoolTx Address) (stateNonce : UInt64) (now : ℤ)
      (ordW : GoMap.IterOrder (Σ _ : Address, List (PoolTx Address)))
      (ordQ : GoMap.IterOrder (Σ _ : Hash, PoolTx Address)) {c d : SimpleContainer Address}
      {err : Option PushError} (h : c.push tx stateNonce now ordW ordQ = .ok (d, err)) : Step c d
  | remove (key : Hash) (c : SimpleContainer Address) : Step c (c.remove key)
  | promoteQueueToPending (nonceOf : Address → UInt64)
      (ordW : GoMap.IterOrder (Σ _ : Address, List (PoolTx Address)))
      (ordQ : GoMap.IterOrder (Σ _ : Hash, PoolTx Address)) {c d : SimpleContainer Address}
      (h : c.promoteQueueToPending nonceOf ordW ordQ = .ok d) : Step c d
  | evictPending (nonceOf : Address → UInt64)
      (ord : GoMap.IterOrder (Σ _ : Address, List (PoolTx Address))) (c : SimpleContainer Address) :
      Step c (c.evictPending nonceOf ord)
  | evictTimeout (now : ℤ) (ord : GoMap.IterOrder (Σ _ : Hash, TransactionWithTime Address))
      (c : SimpleContainer Address) : Step c (c.evictTimeout now ord)

/-- The containers the operations reach from a new one. -/
def Reachable (c : SimpleContainer Address) : Prop := Transition.Reachable Init Step c

/-- Every operation keeps the invariant. -/
theorem step_inv {c d : SimpleContainer Address} (hc : c.Inv) (h : Step c d) : d.Inv := by
  cases h with
  | push tx stateNonce now ordW ordQ h =>
    obtain ⟨c', err', h', hc'⟩ := push_inv hc tx stateNonce now ordW ordQ
    rw [h'] at h
    cases h
    exact hc'
  | remove key => exact remove_inv hc key
  | promoteQueueToPending nonceOf ordW ordQ h =>
    obtain ⟨c', h', hc'⟩ := promoteQueueToPending_inv hc nonceOf ordW ordQ
    rw [h'] at h
    cases h
    exact hc'
  | evictPending nonceOf ord => exact evictPending_inv hc nonceOf ord
  | evictTimeout now ord => exact evictTimeout_inv hc now ord

/-- Every reachable container has the invariant: its pending lists have the shape of skip lists
and are counted by `size`, every pending or queued transaction is in `txsMap`, `pending` and
`queue` are disjoint, and the queue holds one transaction per source and nonce at most. -/
theorem reachable_inv {c : SimpleContainer Address} (h : Reachable c) : c.Inv :=
  @Transition.Reachable.induction _ Init Step Inv
    (fun _ ⟨_, _, _, hc⟩ => hc ▸ newSimpleContainer_inv _ _ _) (fun _ _ hc hs => step_inv hc hs) c h

/-- From a reachable container, `push` and `promoteQueueToPending` never panic. -/
theorem reachable_no_panic {c : SimpleContainer Address} (h : Reachable c) (tx : PoolTx Address)
    (stateNonce : UInt64) (now : ℤ) (nonceOf : Address → UInt64)
    (ordW : GoMap.IterOrder (Σ _ : Address, List (PoolTx Address)))
    (ordQ : GoMap.IterOrder (Σ _ : Hash, PoolTx Address)) :
    (∃ d err, c.push tx stateNonce now ordW ordQ = .ok (d, err)) ∧
      ∃ d, c.promoteQueueToPending nonceOf ordW ordQ = .ok d := by
  obtain ⟨d, err, hd, -⟩ := push_inv (reachable_inv h) tx stateNonce now ordW ordQ
  obtain ⟨d', hd', -⟩ := promoteQueueToPending_inv (reachable_inv h) nonceOf ordW ordQ
  exact ⟨⟨d, err, hd⟩, d', hd'⟩

/-- After a first transaction of nonce `3` is queued on a new container, pushing another and
promoting the queue both return. -/
theorem pool_no_panic_after_queued_push :
    ∃ c : SimpleContainer ℕ, Reachable c ∧ c.queue.entries.length = 1 ∧
      (∃ d err, c.push ⟨BytesToHash [2], 0, 1, 1⟩ 0 0 .stored .stored = .ok (d, err)) ∧
        ∃ d, c.promoteQueueToPending (fun _ => 2) .stored .stored = .ok d := by
  have r0 : Reachable (newSimpleContainer 16 16 1800 : SimpleContainer ℕ) := .init ⟨16, 16, 1800, rfl⟩
  have r1 := r0.step (Step.push ⟨BytesToHash [1], 0, 3, 1⟩ 0 0 .stored .stored rfl)
  exact ⟨_, r1, rfl, reachable_no_panic r1 _ 0 0 (fun _ => 2) .stored .stored⟩

/-! ## A queued transaction's removal loses a pending one -/

/-- A hash whose transaction in `txsMap` is not pending is the hash of no pending transaction. -/
theorem Inv.hash_not_mem_pending (hc : c.Inv) {h : Hash}
    (hmap : (c.txsMap.lookup h).map (·.item) = some tx) (hp : tx ∉ c.pending.txs) :
    h ∉ c.pending.txs.map (·.hash) := by
  intro hin
  obtain ⟨x, hx, rfl⟩ := List.mem_map.mp hin
  have hxm := hc.pending_mem x hx
  rw [hmap] at hxm
  exact hp (Option.some.inj hxm ▸ hx)

/-- Removing a queued transaction by its hash also drops from `pending` the transaction of its
source and nonce, whose hash `txsMap` keeps: it is then in neither `pending` nor `queue`. -/
theorem remove_queued_drops_pending (hc : c.Inv) {q p : PoolTx Address}
    (hq : c.queue.lookup q.hash = some q) (hp : p ∈ c.pending.txs) (hsrc : p.source = q.source)
    (hnonce : p.nonce = q.nonce) :
    ((c.remove q.hash).txsMap.lookup p.hash).map (·.item) = some p ∧
      p ∉ (c.remove q.hash).pending.txs ∧ (c.remove q.hash).queue.lookup p.hash = none := by
  obtain ⟨w, hw, hwq⟩ := Option.map_eq_some_iff.mp (hc.queue_mem _ q hq).2
  have hrem : c.remove q.hash = c.removeWithoutLock q := by
    rw [remove, hw]
    dsimp only
    rw [hwq]
  -- `p` is not queued, so its hash is not `q`'s
  have hne : p.hash ≠ q.hash := fun h => by
    have := hc.disjoint p hp
    rw [h, hq] at this
    cases this
  rw [hrem]
  refine ⟨?_, fun hp' => ?_, GoMap.lookup_erase_eq_none_of (hc.disjoint p hp)⟩
  · rw [removeWithoutLock, AList.lookup_erase_ne hne]
    exact hc.pending_mem p hp
  · exact ((PendingContainer.remove_spec hc.pending q).2 p |>.mp hp').2
      ⟨hsrc, compare_eq_iff.mpr (Or.inr hnonce)⟩

/-- A hash of `txsMap` that is neither pending nor queued: with the state's nonce of source `0` at
`0`, the transaction of nonce `3` is queued, those of nonces `1`, `2` and another of nonce `3` go to
`pending`, and removing the queued one leaves the hash of the pending one of nonce `3` behind. -/
theorem reachable_txsMap_not_covered :
    ∃ c : SimpleContainer ℕ, Reachable c ∧ ∃ h, (c.txsMap.lookup h).isSome ∧
      h ∉ c.pending.txs.map (·.hash) ∧ c.queue.lookup h = none := by
  have r0 : Reachable (newSimpleContainer 16 16 1800 : SimpleContainer ℕ) := .init ⟨16, 16, 1800, rfl⟩
  have r1 := r0.step (Step.push ⟨BytesToHash [1], 0, 3, 1⟩ 0 0 .stored .stored rfl)
  have r2 := r1.step (Step.push ⟨BytesToHash [2], 0, 1, 1⟩ 0 0 .stored .stored rfl)
  have r3 := r2.step (Step.push ⟨BytesToHash [3], 0, 2, 1⟩ 0 0 .stored .stored rfl)
  have r4 := r3.step (Step.push ⟨BytesToHash [4], 0, 3, 1⟩ 0 0 .stored .stored rfl)
  -- the first transaction is queued and the last one pending, with one source and nonce
  let q : PoolTx ℕ := ⟨BytesToHash [1], 0, 3, 1⟩
  let p : PoolTx ℕ := ⟨BytesToHash [4], 0, 3, 1⟩
  obtain ⟨hmap, hpend, hqueue⟩ := remove_queued_drops_pending (reachable_inv r4) (q := q) (p := p)
    (by decide) (by decide) rfl rfl
  have r5 := r4.step (Step.remove q.hash _)
  obtain ⟨w, hw, -⟩ := Option.map_eq_some_iff.mp hmap
  exact ⟨_, r5, p.hash, Option.isSome_iff_exists.mpr ⟨w, hw⟩,
    (reachable_inv r5).hash_not_mem_pending hmap hpend, hqueue⟩

end SimpleContainer

end Zvchain
