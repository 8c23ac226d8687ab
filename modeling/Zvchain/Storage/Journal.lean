import Zvchain.Storage.AccountDB
import Zvchain.Lib.Outcome

/-!
# Reverting to a snapshot (`AccountDB.Snapshot`, `RevertToSnapshot`, `transitionEntry.undo`)

`Snapshot` records a revision: a fresh id and the length of the journal.  `RevertToSnapshot`
finds the revision of an id, undoes the journal's entries from the last down to that length, and
drops them and the revisions from that one on.  An entry's undo writes the old value back with
the object's lowercase setter, which journals nothing.

An undo puts back values, not the bookkeeping of dirty objects.  `touchChange.undo` takes the
dirty mark of the address away, but the object's `onDirty` callback, dropped when the touch
marked it, stays dropped: no later change marks the address dirty again, and `Finalise` does not
write the object back.  A zero credit to an empty account, reverted, thus makes a later credit
to the account miss the account trie, where without the reverted part it reaches it
(`revert_of_touch_loses_credit`).
-/

namespace Zvchain

namespace AccountDB

variable {Address : Type} [DecidableEq Address]

/-- `transitionEntry.undo`.  An undo that reaches the object through `getAccountObject` panics
when the address has none, as a method called on a nil object does in Go; only
`suicideChange.undo` checks. -/
def undo (ripemd : Address) :
    TransitionEntry Address → AccountDB Address → Outcome (AccountDB Address)
  | .createObjectChange account, db =>
    .ok { db with
      accountObjects := Function.update db.accountObjects account none
      accountObjectsDirty := Function.update db.accountObjectsDirty account false }
  | .resetObjectChange account prev, db => .ok (setAccountObject account prev db)
  | .suicideChange account prev prevbalance, db =>
    match getAccountObject account db with
    | (some obj, db) =>
      let (obj, db) := db.setBalance account { obj with suicided := prev } prevbalance
      .ok (db.putObject account ⟨obj, true⟩)
    | (none, db) => .ok db
  | .balanceChange account prev, db => do
    let (obj, db) := getAccountObject account db
    let obj ← Outcome.deref obj
    let (obj, db) := db.setBalance account obj prev
    pure (db.putObject account ⟨obj, true⟩)
  | .nonceChange account prev, db => do
    let (obj, db) := getAccountObject account db
    let obj ← Outcome.deref obj
    let (obj, db) := db.setNonce account obj prev
    pure (db.putObject account ⟨obj, true⟩)
  | .storageChange account key prevalue, db => do
    let (obj, db) := getAccountObject account db
    let obj ← Outcome.deref obj
    let (obj, db) := db.setData account obj key prevalue
    pure (db.putObject account ⟨obj, true⟩)
  | .refundChange prev, db => .ok { db with refund := prev }
  | .touchChange account prev prevDirty, db =>
    if !prev && account ≠ ripemd then do
      let (obj, db) := getAccountObject account db
      let obj ← Outcome.deref obj
      let db := db.putObject account ⟨{ obj with touched := prev }, true⟩
      pure (if !prevDirty then
          { db with accountObjectsDirty := Function.update db.accountObjectsDirty account false }
        else db)
    else .ok db

/-- `AccountDB.Snapshot`: a fresh revision id, recorded with the length of the journal. -/
def Snapshot : StateM (AccountDB Address) ℕ := fun db =>
  (db.nextRevisionID, { db with
    validRevisions := db.validRevisions ++ [(db.nextRevisionID, db.transitions.length)]
    nextRevisionID := db.nextRevisionID + 1 })

/-- `AccountDB.RevertToSnapshot`.  `sort.Search` finds the first revision whose id is at least
`revid`, which the increasing ids make the first such in the list; an id that is not there
panics. -/
def RevertToSnapshot (ripemd : Address) (revid : ℕ) (db : AccountDB Address) :
    Outcome (AccountDB Address) :=
  let idx := db.validRevisions.findIdx fun r => revid ≤ r.1
  match db.validRevisions[idx]? with
  | some (id, snapshot) =>
    if id ≠ revid then .panic "revision id %v cannot be reverted"
    else do
      let db' ← (db.transitions.drop snapshot).reverse.foldlM (fun db e => undo ripemd e db) db
      pure { db' with
        transitions := db.transitions.take snapshot
        validRevisions := db.validRevisions.take idx }
  | none => .panic "revision id %v cannot be reverted"

/-! ## A reverted touch -/

section Touch

variable {db : AccountDB Address} {addr : Address} {acc : Account}

omit [DecidableEq Address] in
/-- The revision a snapshot records is found again, after every revision recorded before it. -/
theorem findIdx_snapshot (hrev : ∀ r ∈ db.validRevisions, r.1 < db.nextRevisionID) (n : ℕ) :
    (db.validRevisions ++ [(db.nextRevisionID, n)]).findIdx (fun r => db.nextRevisionID ≤ r.1) =
      db.validRevisions.length := by
  have hbefore : db.validRevisions.findIdx (fun r => db.nextRevisionID ≤ r.1) =
      db.validRevisions.length :=
    List.findIdx_eq_length.mpr fun r hr => by simpa using hrev r hr
  rw [List.findIdx_append, hbefore, if_neg (lt_irrefl _)]
  simp

/-- Reverting to the revision a snapshot recorded, with no revision after it, undoes from the
last the entries journalled since, and drops them and the revision. -/
theorem revertToSnapshot_of_snapshot (ripemd : Address)
    (hrev : ∀ r ∈ db.validRevisions, r.1 < db.nextRevisionID) {db' : AccountDB Address}
    {es : List (TransitionEntry Address)}
    (hv : db'.validRevisions = db.validRevisions ++ [(db.nextRevisionID, db.transitions.length)])
    (ht : db'.transitions = db.transitions ++ es) :
    RevertToSnapshot ripemd db.nextRevisionID db' = (do
      let db'' ← es.reverse.foldlM (fun db e => undo ripemd e db) db'
      pure { db'' with transitions := db.transitions, validRevisions := db.validRevisions }) := by
  unfold RevertToSnapshot
  rw [hv, findIdx_snapshot hrev]
  dsimp only
  rw [List.getElem?_concat_length]
  dsimp only
  rw [if_neg (not_not.mpr rfl), ht, List.drop_left, List.take_left, List.take_left]

/-- Reverting a zero credit that loaded and touched an empty account: the touch is undone and
the dirty mark taken away, but the object stays loaded with its callback dropped. -/
theorem revert_touch (ripemd : Address) (hobj : db.accountObjects addr = none)
    (htrie : db.trie addr = some acc) (hnonce : acc.nonce = 0) (hbal : acc.balance = 0)
    (hcode : acc.codeHash = emptyCodeHash) (hrev : ∀ r ∈ db.validRevisions, r.1 < db.nextRevisionID)
    (ha : addr ≠ ripemd) :
    RevertToSnapshot ripemd (Snapshot db).1 (AddBalance addr 0 (Snapshot db).2).2 = .ok { db with
      accountObjects := Function.update db.accountObjects addr
        (some ⟨acc, ∅, ∅, false, false, false, false⟩)
      accountObjectsDirty := Function.update db.accountObjectsDirty addr false
      nextRevisionID := db.nextRevisionID + 1 } := by
  rw [@addBalance_zero_eq_of_trie Address _ (Snapshot db).2 addr acc hobj htrie hnonce hbal hcode,
    show (Snapshot db).1 = db.nextRevisionID from rfl, revertToSnapshot_of_snapshot ripemd hrev rfl rfl]
  simp [undo, ha, getAccountObject, putObject, Snapshot]

end Touch

/-- A zero credit to an empty account, reverted, and then a credit of `x`: the object holds the
credit, but its address is not dirty, so `IntermediateRoot(true)` leaves the account as it was.
Without the reverted part the credit reaches the account trie. -/
theorem revert_of_touch_loses_credit (ripemd : Address) (db : AccountDB Address) (a : Address)
    (acc : Account) (hobj : db.accountObjects a = none) (htrie : db.trie a = some acc)
    (hnonce : acc.nonce = 0) (hbal : acc.balance = 0) (hcode : acc.codeHash = emptyCodeHash)
    (hrev : ∀ r ∈ db.validRevisions, r.1 < db.nextRevisionID) (ha : a ≠ ripemd) (x : Int)
    (hx : x ≠ 0) :
    ∃ db', RevertToSnapshot ripemd (Snapshot db).1 (AddBalance a 0 (Snapshot db).2).2 = .ok db' ∧
      (AddBalance a x db').2.accountObjects a =
        some ⟨{ acc with balance := x }, ∅, ∅, false, false, false, false⟩ ∧
      (IntermediateRoot true (AddBalance a x db').2).1 a = some acc ∧
      (IntermediateRoot true (AddBalance a x db).2).1 a = some { acc with balance := x } := by
  obtain ⟨db', hrevert, hloaded, hdirty, htrie'⟩ : ∃ db',
      RevertToSnapshot ripemd (Snapshot db).1 (AddBalance a 0 (Snapshot db).2).2 = .ok db' ∧
        db'.accountObjects a = some ⟨acc, ∅, ∅, false, false, false, false⟩ ∧
        db'.accountObjectsDirty a = false ∧ db'.trie = db.trie :=
    ⟨_, revert_touch ripemd hobj htrie hnonce hbal hcode hrev ha, by simp, by simp, rfl⟩
  have hcredit := addBalance_of_loaded hloaded rfl rfl hx
  -- the credit does not mark the address, whose mark the revert took away
  have hnot : (AddBalance a x db').2.accountObjectsDirty a = false := by
    rw [hcredit]
    exact hdirty
  -- without the reverted part the credit loads the account and marks it
  have hfresh := addBalance_of_trie hobj htrie hx
  have hdirty₁ : (AddBalance a x db).2.accountObjectsDirty a = true := by simp [hfresh]
  have hobj₁ : (AddBalance a x db).2.accountObjects a =
      some ⟨{ acc with balance := acc.balance + x }, ∅, ∅, false, false, false, false⟩ := by
    simp [hfresh]
  have hkeep : deletes true ⟨{ acc with balance := acc.balance + x }, ∅, ∅, false, false, false,
      false⟩ = false := by
    simp [deletes, AccountObject.empty, hbal, hx]
  refine ⟨db', hrevert, ?_, ?_, ?_⟩
  · rw [hcredit]
    simp [hbal]
  · show (Finalise true (AddBalance a x db').2).2.trie a = some acc
    rw [(finalise_of_not_dirty true hnot).1, hcredit]
    simpa [htrie'] using htrie
  · show (Finalise true (AddBalance a x db).2).2.trie a = some { acc with balance := x }
    rw [(finalise_of_not_deletes true hdirty₁ hobj₁ hkeep).1]
    simp [AccountObject.updateRoot, hbal]

/-- The account of `storageAccountDB`, with `ripemd` at address 3 and a credit of 5. -/
theorem revert_of_touch_loses_credit_at_one :
    ∃ db', RevertToSnapshot 3 (Snapshot storageAccountDB).1
        (AddBalance 1 0 (Snapshot storageAccountDB).2).2 = .ok db' ∧
      (AddBalance 1 5 db').2.accountObjects 1 =
        some ⟨{ storageAccount with balance := 5 }, ∅, ∅, false, false, false, false⟩ ∧
      (IntermediateRoot true (AddBalance 1 5 db').2).1 1 = some storageAccount ∧
      (IntermediateRoot true (AddBalance 1 5 storageAccountDB).2).1 1 =
        some { storageAccount with balance := 5 } :=
  revert_of_touch_loses_credit 3 storageAccountDB 1 storageAccount rfl rfl rfl rfl rfl
    (by simp [storageAccountDB, ofTrie]) (by decide) 5 (by decide)

/-! ## Calls that a revert undoes

A change to an object that is loaded, not deleted and has its callback dropped marks nothing;
undoing it writes the old value back and nothing else.  A revert over calls to such objects gives
back the database as it was at the snapshot. -/

/-- An object a change no longer marks: loaded, not deleted, its callback dropped. -/
def Settled (db : AccountDB Address) (addr : Address) : Prop :=
  ∃ ao, db.accountObjects addr = some ao ∧ ao.deleted = false ∧ ao.onDirty = false

/-- `db₁` is `db` after changes that the entries `es` undo: the journal grew by `es`, the
revisions are as they were, and undoing `es` from the last, whatever the journal, gives `db`
back. -/
def Undoes (ripemd : Address) (db db₁ : AccountDB Address) (es : List (TransitionEntry Address)) :
    Prop :=
  db₁.transitions = db.transitions ++ es ∧ db₁.validRevisions = db.validRevisions ∧
    db₁.nextRevisionID = db.nextRevisionID ∧
    ∀ t, es.reverse.foldlM (fun db e => undo ripemd e db) { db₁ with transitions := t } =
      .ok { db with transitions := t }

namespace Undoes

variable {ripemd : Address} {db db₁ db₂ : AccountDB Address} {es es' : List (TransitionEntry Address)}

theorem refl (ripemd : Address) (db : AccountDB Address) : Undoes ripemd db db [] :=
  ⟨(List.append_nil _).symm, rfl, rfl, fun _ => rfl⟩

/-- Changes undone one after the other: the later entries are undone first. -/
theorem trans (h₁ : Undoes ripemd db db₁ es) (h₂ : Undoes ripemd db₁ db₂ es') :
    Undoes ripemd db db₂ (es ++ es') := by
  obtain ⟨ht₁, hv₁, hn₁, hu₁⟩ := h₁
  obtain ⟨ht₂, hv₂, hn₂, hu₂⟩ := h₂
  refine ⟨by rw [ht₂, ht₁, List.append_assoc], hv₂.trans hv₁, hn₂.trans hn₁, fun t => ?_⟩
  rw [List.reverse_append, List.foldlM_append, hu₂ t]
  exact hu₁ t

end Undoes

/-- The calls to the database whose changes a revert undoes on settled objects. -/
inductive Call (Address : Type) where
  | addBalance (addr : Address) (amount : Int)
  | subBalance (addr : Address) (amount : Int)
  | setBalance (addr : Address) (amount : Int)
  | setNonce (addr : Address) (nonce : UInt64)
  | addRefund (gas : UInt64)

namespace Call

/-- `AddBalance`, `SubBalance`, `SetBalance`, `SetNonce` and `AddRefund` of `AccountDB`. -/
def run : Call Address → AccountDB Address → AccountDB Address
  | addBalance addr amount, db => (AddBalance addr amount db).2
  | subBalance addr amount, db => (SubBalance addr amount db).2
  | setBalance addr amount, db => (SetBalanceOf addr amount db).2
  | setNonce addr nonce, db => (SetNonceOf addr nonce db).2
  | addRefund gas, db => (AddRefund gas db).2

/-- The address whose object a call changes. -/
def address : Call Address → Option Address
  | addBalance addr _ | subBalance addr _ | setBalance addr _ | setNonce addr _ => some addr
  | addRefund _ => none

end Call

section Settled

variable {ripemd : Address} {db : AccountDB Address} {addr : Address} {ao : AccountObject}

/-- Writing back the object the map held before leaves the map as it was. -/
theorem update_update_self {ao₁ : AccountObject} (h : db.accountObjects addr = some ao) :
    Function.update (Function.update db.accountObjects addr (some ao₁)) addr (some ao) =
      db.accountObjects := by
  rw [Function.update_idem, Function.update_eq_self_iff.mpr h.symm]

/-- A method run through `withObject` on a loaded object writes the changed object back. -/
theorem withObject_of_loaded (h : db.accountObjects addr = some ao) (hdel : ao.deleted = false)
    (f : AccountObject → AccountDB Address → AccountObject × AccountDB Address) :
    (withObject addr f db).2 = (f ao db).2.putObject addr ⟨(f ao db).1, true⟩ := by
  simp [withObject, getOrNewAccountObject, getAccountObject, h, hdel]

/-- The undo of a balance change on a settled object writes the old balance back. -/
theorem undo_balanceChange (h : db.accountObjects addr = some ao) (hdel : ao.deleted = false)
    (hcb : ao.onDirty = false) (prev : Int) :
    undo ripemd (.balanceChange addr prev) db = .ok { db with
      accountObjects := Function.update db.accountObjects addr
        (some { ao with data := { ao.data with balance := prev } }) } := by
  simp [undo, getAccountObject, h, hdel, setBalance, onDirty, hcb, putObject]

theorem undo_nonceChange (h : db.accountObjects addr = some ao) (hdel : ao.deleted = false)
    (hcb : ao.onDirty = false) (prev : UInt64) :
    undo ripemd (.nonceChange addr prev) db = .ok { db with
      accountObjects := Function.update db.accountObjects addr
        (some { ao with data := { ao.data with nonce := prev } }) } := by
  simp [undo, getAccountObject, h, hdel, setNonce, onDirty, hcb, putObject]

/-- The undo of a touch that marked nothing puts the old flag back, the address not being
`ripemd`. -/
theorem undo_touchChange (h : db.accountObjects addr = some ao) (hdel : ao.deleted = false)
    (htouched : ao.touched = true) (ha : addr ≠ ripemd) (prev : Bool) :
    undo ripemd (.touchChange addr prev true) db = .ok { db with
      accountObjects := Function.update db.accountObjects addr (some { ao with touched := prev }) } := by
  cases prev
  · simp [undo, ha, getAccountObject, h, hdel, putObject]
  · have hsame : ({ ao with touched := true } : AccountObject) = ao := by
      rw [← htouched]
    have hkeep : Function.update db.accountObjects addr (some ao) = db.accountObjects :=
      Function.update_eq_self_iff.mpr h.symm
    simp [undo, hsame, hkeep]

/-- One journalled change of a settled object, undone by its entry. -/
theorem undoes_change (h : db.accountObjects addr = some ao) {ao₁ : AccountObject}
    (e : TransitionEntry Address)
    (hundo : ∀ db' : AccountDB Address, db'.accountObjects addr = some ao₁ →
      undo ripemd e db' = .ok { db' with
        accountObjects := Function.update db'.accountObjects addr (some ao) }) :
    Undoes ripemd db { db with
      accountObjects := Function.update db.accountObjects addr (some ao₁)
      transitions := db.transitions ++ [e] } [e] := by
  refine ⟨rfl, rfl, rfl, fun t => ?_⟩
  rw [List.reverse_singleton, List.foldlM_cons, hundo _ (by simp), Outcome.ok_bind, List.foldlM_nil]
  simp only [update_update_self h, Outcome.pure_eq]

/-- A change that writes a settled object back keeps every settled object settled. -/
theorem settled_of_update {db₁ : AccountDB Address} {ao' : AccountObject}
    (hobj : db₁.accountObjects = Function.update db.accountObjects addr (some ao'))
    (hdel : ao'.deleted = false) (hcb : ao'.onDirty = false) {a : Address} (ha : Settled db a) :
    Settled db₁ a := by
  by_cases hab : a = addr
  · subst hab
    exact ⟨ao', by rw [hobj, Function.update_self], hdel, hcb⟩
  · obtain ⟨ao, h, hd, hc⟩ := ha
    exact ⟨ao, by rw [hobj, Function.update_of_ne hab, h], hd, hc⟩

variable (h : db.accountObjects addr = some ao) (hdel : ao.deleted = false)
  (hcb : ao.onDirty = false)
include h hdel hcb

/-- A call that sets the balance of a settled object. -/
theorem undoes_balance {db₁ : AccountDB Address} {v : Int}
    (hpost : db₁ = { db with
      accountObjects := Function.update db.accountObjects addr
        (some { ao with data := { ao.data with balance := v } })
      transitions := db.transitions ++ [.balanceChange addr ao.data.balance] }) :
    Undoes ripemd db db₁ [.balanceChange addr ao.data.balance] ∧
      ∀ a, Settled db a → Settled db₁ a := by
  subst hpost
  exact ⟨undoes_change h _ fun db' h' => undo_balanceChange h' hdel hcb _,
    fun a => settled_of_update rfl (by exact hdel) (by exact hcb)⟩

/-- A call that sets the nonce of a settled object. -/
theorem undoes_nonce {db₁ : AccountDB Address} {n : UInt64}
    (hpost : db₁ = { db with
      accountObjects := Function.update db.accountObjects addr
        (some { ao with data := { ao.data with nonce := n } })
      transitions := db.transitions ++ [.nonceChange addr ao.data.nonce] }) :
    Undoes ripemd db db₁ [.nonceChange addr ao.data.nonce] ∧
      ∀ a, Settled db a → Settled db₁ a := by
  subst hpost
  exact ⟨undoes_change h _ fun db' h' => undo_nonceChange h' hdel hcb _,
    fun a => settled_of_update rfl (by exact hdel) (by exact hcb)⟩

/-- A call that touches a settled object, not at `ripemd`. -/
theorem undoes_touch {db₁ : AccountDB Address} (ha : addr ≠ ripemd)
    (hpost : db₁ = { db with
      accountObjects := Function.update db.accountObjects addr (some { ao with touched := true })
      transitions := db.transitions ++ [.touchChange addr ao.touched true] }) :
    Undoes ripemd db db₁ [.touchChange addr ao.touched true] ∧
      ∀ a, Settled db a → Settled db₁ a := by
  subst hpost
  exact ⟨undoes_change h _ fun db' h' => undo_touchChange h' hdel rfl ha _,
    fun a => settled_of_update rfl (by exact hdel) (by exact hcb)⟩

theorem withObject_SetBalance (v : Int) :
    (withObject addr (fun ao db => db.SetBalance addr ao v) db).2 = { db with
      accountObjects := Function.update db.accountObjects addr
        (some { ao with data := { ao.data with balance := v } })
      transitions := db.transitions ++ [.balanceChange addr ao.data.balance] } := by
  rw [withObject_of_loaded h hdel]
  simp [SetBalance, setBalance, onDirty, hcb, journal, putObject]

theorem withObject_SetNonce (n : UInt64) :
    (withObject addr (fun ao db => db.SetNonce addr ao n) db).2 = { db with
      accountObjects := Function.update db.accountObjects addr
        (some { ao with data := { ao.data with nonce := n } })
      transitions := db.transitions ++ [.nonceChange addr ao.data.nonce] } := by
  rw [withObject_of_loaded h hdel]
  simp [SetNonce, setNonce, onDirty, hcb, journal, putObject]

theorem subBalance_of_loaded {x : Int} (hx : x ≠ 0) :
    (SubBalance addr x db).2 = { db with
      accountObjects := Function.update db.accountObjects addr
        (some { ao with data := { ao.data with balance := ao.data.balance - x } })
      transitions := db.transitions ++ [.balanceChange addr ao.data.balance] } := by
  rw [SubBalance, withObject_of_loaded h hdel]
  simp [subBalance, hx, SetBalance, setBalance, onDirty, hcb, journal, putObject]

/-- Adding zero to a settled object touches it when it is empty, and changes nothing else. -/
theorem addBalance_zero_of_loaded :
    (AddBalance addr 0 db).2 = if ao.empty then { db with
      accountObjects := Function.update db.accountObjects addr (some { ao with touched := true })
      transitions := db.transitions ++ [.touchChange addr ao.touched true] } else db := by
  have hkeep : Function.update db.accountObjects addr (some ao) = db.accountObjects :=
    Function.update_eq_self_iff.mpr h.symm
  rw [AddBalance, withObject_of_loaded h hdel]
  by_cases he : ao.empty
  · simp [addBalance, he, touch, onDirty, hcb, journal, putObject]
  · simp [addBalance, he, putObject, hkeep]

omit h hdel hcb

/-- Subtracting zero changes nothing. -/
theorem subBalance_zero_of_loaded (h : db.accountObjects addr = some ao) (hdel : ao.deleted = false) :
    (SubBalance addr 0 db).2 = db := by
  have hkeep : Function.update db.accountObjects addr (some ao) = db.accountObjects :=
    Function.update_eq_self_iff.mpr h.symm
  rw [SubBalance, withObject_of_loaded h hdel]
  simp [subBalance, putObject, hkeep]

/-- A call to a settled object, not at `ripemd`, is undone by the entries it journals, and
keeps every settled object settled. -/
theorem Call.undoes_run (c : Call Address) (hs : ∀ a ∈ c.address, Settled db a ∧ a ≠ ripemd) :
    ∃ es, Undoes ripemd db (c.run db) es ∧ ∀ a, Settled db a → Settled (c.run db) a := by
  cases c with
  | addBalance addr x =>
    obtain ⟨⟨ao, h, hdel, hcb⟩, ha⟩ := hs addr rfl
    by_cases hx : x = 0
    · subst hx
      have hzero := addBalance_zero_of_loaded h hdel hcb
      by_cases he : ao.empty
      · rw [if_pos he] at hzero
        exact ⟨_, undoes_touch h hdel hcb ha hzero⟩
      · rw [if_neg he] at hzero
        rw [show (Call.addBalance addr 0).run db = db from hzero]
        exact ⟨[], Undoes.refl ripemd db, fun _ => id⟩
    · exact ⟨_, undoes_balance h hdel hcb (addBalance_of_loaded h hdel hcb hx)⟩
  | subBalance addr x =>
    obtain ⟨⟨ao, h, hdel, hcb⟩, -⟩ := hs addr rfl
    by_cases hx : x = 0
    · subst hx
      rw [show (Call.subBalance addr 0).run db = db from subBalance_zero_of_loaded h hdel]
      exact ⟨[], Undoes.refl ripemd db, fun _ => id⟩
    · exact ⟨_, undoes_balance h hdel hcb (subBalance_of_loaded h hdel hcb hx)⟩
  | setBalance addr v =>
    obtain ⟨⟨ao, h, hdel, hcb⟩, -⟩ := hs addr rfl
    exact ⟨_, undoes_balance h hdel hcb (withObject_SetBalance h hdel hcb v)⟩
  | setNonce addr n =>
    obtain ⟨⟨ao, h, hdel, hcb⟩, -⟩ := hs addr rfl
    exact ⟨_, undoes_nonce h hdel hcb (withObject_SetNonce h hdel hcb n)⟩
  | addRefund gas =>
    exact ⟨[.refundChange db.refund], ⟨rfl, rfl, rfl, fun _ => rfl⟩, fun _ ha => ha⟩

/-- Calls to settled objects, none at `ripemd`, run one after another, are undone by what they
journal. -/
theorem undoes_runs (calls : List (Call Address))
    (hs : ∀ c ∈ calls, ∀ a ∈ c.address, Settled db a ∧ a ≠ ripemd) :
    ∃ es, Undoes ripemd db (calls.foldl (fun db c => c.run db) db) es := by
  induction calls generalizing db with
  | nil => exact ⟨[], Undoes.refl ripemd db⟩
  | cons c calls ih =>
    obtain ⟨es, hu, hsettled⟩ := c.undoes_run (hs c List.mem_cons_self)
    -- the objects the later calls change are still settled after the first
    have hs' : ∀ c' ∈ calls, ∀ a ∈ c'.address, Settled (c.run db) a ∧ a ≠ ripemd :=
      fun c' hc' a ha =>
        let ⟨hset, hne⟩ := hs c' (List.mem_cons_of_mem c hc') a ha
        ⟨hsettled a hset, hne⟩
    obtain ⟨es', hu'⟩ := ih hs'
    exact ⟨es ++ es', hu.trans hu'⟩

end Settled

/-- A revert over calls that change balances, nonces, the touched flag and the refund of
settled objects, none at `ripemd`, gives back the database as it was at the snapshot, but for
the next revision id. -/
theorem revert_restores_settled (ripemd : Address) (db : AccountDB Address)
    (calls : List (Call Address)) (hrev : ∀ r ∈ db.validRevisions, r.1 < db.nextRevisionID)
    (hs : ∀ c ∈ calls, ∀ a ∈ c.address, Settled db a ∧ a ≠ ripemd) :
    RevertToSnapshot ripemd (Snapshot db).1 (calls.foldl (fun db c => c.run db) (Snapshot db).2) =
      .ok { db with nextRevisionID := db.nextRevisionID + 1 } := by
  obtain ⟨es, ht, hv, -, hu⟩ := @undoes_runs Address _ ripemd (Snapshot db).2 calls hs
  generalize hfinal : calls.foldl (fun db c => c.run db) (Snapshot db).2 = final at ht hv hu
  rw [show (Snapshot db).1 = db.nextRevisionID from rfl,
    revertToSnapshot_of_snapshot ripemd hrev hv ht]
  have hback : es.reverse.foldlM (fun db e => undo ripemd e db) final =
      .ok { (Snapshot db).2 with transitions := final.transitions } :=
    hu final.transitions
  rw [hback]
  rfl

/-- `storageAccountDB` after a credit of 5: its account is loaded and dirty, hence settled. -/
def creditedDB : AccountDB ℕ := (AddBalance 1 5 storageAccountDB).2

/-- A credit, a nonce, a debit and a refund on the credited account. -/
def settledCalls : List (Call ℕ) :=
  [.addBalance 1 3, .setNonce 1 2, .subBalance 1 1, .addRefund 4]

theorem revert_restores_settled_after_credit :
    RevertToSnapshot 3 (Snapshot creditedDB).1
      (settledCalls.foldl (fun db c => c.run db) (Snapshot creditedDB).2) =
      .ok { creditedDB with nextRevisionID := creditedDB.nextRevisionID + 1 } := by
  refine revert_restores_settled 3 creditedDB settledCalls (fun r hr => ?_) fun c hc a ha => ?_
  · rw [show creditedDB.validRevisions = [] from rfl] at hr
    cases hr
  · have hset : Settled creditedDB 1 ∧ 1 ≠ 3 := ⟨⟨_, rfl, rfl, rfl⟩, by decide⟩
    simp only [settledCalls, List.mem_cons, List.not_mem_nil, or_false] at hc
    rcases hc with rfl | rfl | rfl | rfl <;> cases ha
    all_goals exact hset

end AccountDB

end Zvchain
