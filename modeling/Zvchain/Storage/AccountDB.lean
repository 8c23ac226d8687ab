import Mathlib

/-!
# The account database (`storage/account/accountdb.go`, `account_object.go`, `transaction.go`)

The account trie maps an address to its account: nonce, balance, code hash, and the storage trie
its `Root` names.  An `AccountDB` loads the accounts it touches as account objects into a map
(`accountObjects`, a `sync.Map`), marks the addresses of changed objects dirty, and records in a
journal (`transitions`) how to undo each change.  `Finalise` writes each dirty object back to the
trie, or deletes its account when it has suicided or, with `deleteEmptyObjects`, when the object
is empty.

An object keeps two caches of its storage: `cachedStorage`, filled by reads and writes, and
`dirtyStorage`, the writes not yet flushed into the storage trie.  A trie's content stands for
its root here: two tries with the same content have the same root.  A nil byte slice and an
empty one are not told apart, since the storage trie drops empty values.

Objects are values in the model, so a method that changes an object writes it back into the map.
The map keeps the object it holds (`LoadOrStore`), so an object `createObject` makes while the
map holds one for the address, deleted or not, is not the map's, and its changes are lost; such
an object is a detached `Handle`.  Its `onDirty` callback still marks the address dirty.
-/

namespace Zvchain

/-- `emptyCodeHash`, `sha3.Sum256(nil)`. -/
def emptyCodeHash : List UInt8 :=
  [0xa7, 0xff, 0xc6, 0xf8, 0xbf, 0x1e, 0xd7, 0x66, 0x51, 0xc1, 0x47, 0x56, 0xa0, 0x61, 0xd6, 0x62,
   0xf5, 0x80, 0xff, 0x4d, 0xe4, 0x3b, 0x49, 0xfa, 0x82, 0xd8, 0x0a, 0x4b, 0x80, 0xf8, 0x43, 0x4a]

/-- `account.Storage`, a map from keys to values. -/
abbrev Storage := AList (fun _ : List UInt8 => List UInt8)

/-- `account.Account`, with the storage trie its `Root` names given by its content. -/
structure Account where
  nonce : UInt64
  balance : Int
  storage : List UInt8 → List UInt8
  codeHash : List UInt8

/-- `Account{}` as `newAccountObject` fills it in: a nil balance is zero and a nil code hash is
`emptyCodeHash`. -/
def Account.blank : Account := ⟨0, 0, fun _ => [], emptyCodeHash⟩

/-- `accountObject`, without its address, which the map keys it by. -/
structure AccountObject where
  data : Account
  cachedStorage : Storage
  dirtyStorage : Storage
  suicided : Bool
  touched : Bool
  deleted : Bool
  /-- Whether the `onDirty` callback is still set: it is called at the first change and then
  dropped. -/
  onDirty : Bool

/-- `newAccountObject`. -/
def newAccountObject (data : Account) (onDirty : Bool) : AccountObject :=
  ⟨data, ∅, ∅, false, false, false, onDirty⟩

namespace AccountObject

/-- `accountObject.empty`: no nonce, no balance, no code, and nothing in the storage cache. -/
def empty (ao : AccountObject) : Bool :=
  ao.data.nonce == 0 && ao.data.balance == 0 && ao.data.codeHash == emptyCodeHash &&
    ao.cachedStorage.entries.isEmpty

/-- `accountObject.GetData`: the cache first, then the storage trie; a value found there is
cached. -/
def getData (ao : AccountObject) (key : List UInt8) : List UInt8 × AccountObject :=
  match ao.cachedStorage.lookup key with
  | some value => (value, ao)
  | none =>
    let value := ao.data.storage key
    if value = [] then (value, ao)
    else (value, { ao with cachedStorage := ao.cachedStorage.insert key value })

/-- `updateTrie` and `updateRoot`: the dirty storage is written into the storage trie, whose
content is then the account's `Root`. -/
def updateRoot (ao : AccountObject) : AccountObject :=
  { ao with
    data := { ao.data with storage := fun key => (ao.dirtyStorage.lookup key).getD (ao.data.storage key) }
    dirtyStorage := ∅ }

end AccountObject

/-- The entries of the journal that the modelled methods write (`transition.go`). -/
inductive TransitionEntry (Address : Type) where
  | createObjectChange (account : Address)
  | resetObjectChange (account : Address) (prev : AccountObject)
  | suicideChange (account : Address) (prev : Bool) (prevbalance : Int)
  | balanceChange (account : Address) (prev : Int)
  | nonceChange (account : Address) (prev : UInt64)
  | storageChange (account : Address) (key prevalue : List UInt8)
  | refundChange (prev : UInt64)
  | touchChange (account : Address) (prev prevDirty : Bool)

/-- `AccountDB`: the account trie, the loaded objects, the dirty addresses, the refund counter
and the journal with its revisions (id and journal length). -/
structure AccountDB (Address : Type) where
  trie : Address → Option Account
  accountObjects : Address → Option AccountObject
  accountObjectsDirty : Address → Bool
  refund : UInt64
  transitions : List (TransitionEntry Address)
  validRevisions : List (ℕ × ℕ)
  nextRevisionID : ℕ

/-- An object a method works on, and whether it is the one the map holds. -/
structure Handle where
  obj : AccountObject
  kept : Bool

namespace AccountDB

variable {Address : Type} [DecidableEq Address]

/-- The database over an account trie, with nothing loaded. -/
def ofTrie (trie : Address → Option Account) : AccountDB Address :=
  ⟨trie, fun _ => none, fun _ => false, 0, [], [], 0⟩

/-! ## Loading objects -/

def journal (e : TransitionEntry Address) (db : AccountDB Address) : AccountDB Address :=
  { db with transitions := db.transitions ++ [e] }

/-- `MarkAccountObjectDirty`. -/
def MarkAccountObjectDirty (addr : Address) (db : AccountDB Address) : AccountDB Address :=
  { db with accountObjectsDirty := Function.update db.accountObjectsDirty addr true }

def getAccountObjectFromTrie (db : AccountDB Address) (addr : Address) : Option AccountObject :=
  (db.trie addr).map fun data => newAccountObject data true

/-- `setAccountObject`: `LoadOrStore`, which keeps an object the map already holds. -/
def setAccountObject (addr : Address) (obj : AccountObject) (db : AccountDB Address) :
    AccountDB Address :=
  match db.accountObjects addr with
  | some _ => db
  | none => { db with accountObjects := Function.update db.accountObjects addr (some obj) }

/-- `getAccountObject`: a deleted object reads as none; an address not loaded is loaded from the
trie. -/
def getAccountObject (addr : Address) : StateM (AccountDB Address) (Option AccountObject) :=
  fun db =>
    match db.accountObjects addr with
    | some obj => (if obj.deleted then none else some obj, db)
    | none =>
      match db.getAccountObjectFromTrie addr with
      | some obj => (some obj, setAccountObject addr obj db)
      | none => (none, db)

/-- The `onDirty` callback of a change: at the first change of an object it marks the address
dirty and is dropped. -/
def onDirty (addr : Address) (obj : AccountObject) (db : AccountDB Address) :
    AccountObject × AccountDB Address :=
  if obj.onDirty then ({ obj with onDirty := false }, db.MarkAccountObjectDirty addr)
  else (obj, db)

/-- Write back an object a method changed, when the map holds it. -/
def putObject (addr : Address) (h : Handle) (db : AccountDB Address) : AccountDB Address :=
  if h.kept then { db with accountObjects := Function.update db.accountObjects addr (some h.obj) }
  else db

/-- `createObject`: a new object, made dirty by `setNonce(0)`, and the one it replaces. -/
def createObject (addr : Address) : StateM (AccountDB Address) (Handle × Option AccountObject) :=
  fun db =>
    let (prev, db) := getAccountObject addr db
    let (newobj, db) := db.onDirty addr (newAccountObject Account.blank true)
    let db := db.journal (match prev with
      | none => .createObjectChange addr
      | some p => .resetObjectChange addr p)
    -- `LoadOrStore` stores the new object only where the map holds none
    let kept := (db.accountObjects addr).isNone
    ((⟨newobj, kept⟩, prev), setAccountObject addr newobj db)

def getOrNewAccountObject (addr : Address) : StateM (AccountDB Address) Handle := fun db =>
  match getAccountObject addr db with
  | (some obj, db) => (⟨obj, true⟩, db)
  | (none, db) =>
    let ((h, _), db) := createObject addr db
    (h, db)

/-! ## The methods of an object

Each returns the changed object and database; the caller writes the object back. -/

def setBalance (addr : Address) (ao : AccountObject) (amount : Int) (db : AccountDB Address) :
    AccountObject × AccountDB Address :=
  db.onDirty addr { ao with data := { ao.data with balance := amount } }

def SetBalance (addr : Address) (ao : AccountObject) (amount : Int) (db : AccountDB Address) :
    AccountObject × AccountDB Address :=
  (db.journal (.balanceChange addr ao.data.balance)).setBalance addr ao amount

def setNonce (addr : Address) (ao : AccountObject) (nonce : UInt64) (db : AccountDB Address) :
    AccountObject × AccountDB Address :=
  db.onDirty addr { ao with data := { ao.data with nonce := nonce } }

def SetNonce (addr : Address) (ao : AccountObject) (nonce : UInt64) (db : AccountDB Address) :
    AccountObject × AccountDB Address :=
  (db.journal (.nonceChange addr ao.data.nonce)).setNonce addr ao nonce

/-- `accountObject.touch`: journalled with whether the object was already dirty. -/
def touch (addr : Address) (ao : AccountObject) (db : AccountDB Address) :
    AccountObject × AccountDB Address :=
  let db := db.journal (.touchChange addr ao.touched !ao.onDirty)
  let (ao, db) := db.onDirty addr ao
  ({ ao with touched := true }, db)

/-- `accountObject.AddBalance`: adding zero only touches an empty object, so that the clearing of
empty accounts takes effect. -/
def addBalance (addr : Address) (ao : AccountObject) (amount : Int) (db : AccountDB Address) :
    AccountObject × AccountDB Address :=
  if amount = 0 then
    if ao.empty then db.touch addr ao else (ao, db)
  else db.SetBalance addr ao (ao.data.balance + amount)

def subBalance (addr : Address) (ao : AccountObject) (amount : Int) (db : AccountDB Address) :
    AccountObject × AccountDB Address :=
  if amount = 0 then (ao, db) else db.SetBalance addr ao (ao.data.balance - amount)

def setData (addr : Address) (ao : AccountObject) (key value : List UInt8)
    (db : AccountDB Address) : AccountObject × AccountDB Address :=
  db.onDirty addr { ao with
    cachedStorage := ao.cachedStorage.insert key value
    dirtyStorage := ao.dirtyStorage.insert key value }

def SetData (addr : Address) (ao : AccountObject) (key value : List UInt8)
    (db : AccountDB Address) : AccountObject × AccountDB Address :=
  let (prevalue, ao) := ao.getData key
  (db.journal (.storageChange addr key prevalue)).setData addr ao key value

/-! ## The methods of the database -/

/-- Run a method of an object on the object of an address, creating it if need be. -/
def withObject (addr : Address)
    (f : AccountObject → AccountDB Address → AccountObject × AccountDB Address) :
    StateM (AccountDB Address) Unit := fun db =>
  let (h, db) := getOrNewAccountObject addr db
  let (obj, db) := f h.obj db
  ((), db.putObject addr ⟨obj, h.kept⟩)

def AddBalance (addr : Address) (amount : Int) : StateM (AccountDB Address) Unit :=
  withObject addr fun ao db => db.addBalance addr ao amount

def SubBalance (addr : Address) (amount : Int) : StateM (AccountDB Address) Unit :=
  withObject addr fun ao db => db.subBalance addr ao amount

def SetBalanceOf (addr : Address) (amount : Int) : StateM (AccountDB Address) Unit :=
  withObject addr fun ao db => db.SetBalance addr ao amount

def SetNonceOf (addr : Address) (nonce : UInt64) : StateM (AccountDB Address) Unit :=
  withObject addr fun ao db => db.SetNonce addr ao nonce

def SetDataOf (addr : Address) (key value : List UInt8) : StateM (AccountDB Address) Unit :=
  withObject addr fun ao db => db.SetData addr ao key value

/-- `AccountDB.GetData`: the value, or nothing for an account that does not exist. -/
def GetData (addr : Address) (key : List UInt8) : StateM (AccountDB Address) (List UInt8) :=
  fun db =>
    match getAccountObject addr db with
    | (none, db) => ([], db)
    | (some ao, db) =>
      let (value, ao) := ao.getData key
      (value, db.putObject addr ⟨ao, true⟩)

def Exist (addr : Address) : StateM (AccountDB Address) Bool := fun db =>
  let (obj, db) := getAccountObject addr db
  (obj.isSome, db)

def AddRefund (gas : UInt64) : StateM (AccountDB Address) Unit := fun db =>
  ((), { db.journal (.refundChange db.refund) with refund := db.refund + gas })

def clearJournalAndRefund (db : AccountDB Address) : AccountDB Address :=
  { db with transitions := [], validRevisions := [], refund := 0 }

/-- Whether `Finalise` deletes the account of an object. -/
def deletes (deleteEmptyObjects : Bool) (ao : AccountObject) : Bool :=
  ao.suicided || (deleteEmptyObjects && ao.empty)

/-- `Finalise`.  Each dirty address is handled on its own, so the loop over the dirty map is
written address by address: a loaded object is deleted from the trie, or written back with its
storage flushed.  The dirty marks stay until `Commit`. -/
def Finalise (deleteEmptyObjects : Bool) : StateM (AccountDB Address) Unit := fun db =>
  ((), clearJournalAndRefund
    { db with
      trie := fun addr =>
        match db.accountObjectsDirty addr, db.accountObjects addr with
        | true, some ao => if deletes deleteEmptyObjects ao then none else some ao.updateRoot.data
        | _, _ => db.trie addr
      accountObjects := fun addr =>
        match db.accountObjectsDirty addr, db.accountObjects addr with
        | true, some ao =>
          some (if deletes deleteEmptyObjects ao then { ao with deleted := true } else ao.updateRoot)
        | _, obj => obj })

/-- `IntermediateRoot`: the account trie after `Finalise`. -/
def IntermediateRoot (deleteEmptyObjects : Bool) :
    StateM (AccountDB Address) (Address → Option Account) := fun db =>
  let ((), db) := Finalise deleteEmptyObjects db
  (db.trie, db)

/-! ## Loading an account and changing it -/

section Steps

variable {db : AccountDB Address} {addr : Address} {acc : Account}

/-- An account not loaded yet is loaded from the trie, and the map then holds it. -/
theorem getAccountObject_of_trie (hobj : db.accountObjects addr = none)
    (htrie : db.trie addr = some acc) :
    getAccountObject addr db = (some (newAccountObject acc true),
      { db with
        accountObjects := Function.update db.accountObjects addr (some (newAccountObject acc true)) }) := by
  simp [getAccountObject, hobj, getAccountObjectFromTrie, htrie, setAccountObject]

/-- A deleted object reads as an account with no storage. -/
theorem getData_of_deleted {ao : AccountObject} (hobj : db.accountObjects addr = some ao)
    (hdel : ao.deleted = true) (key : List UInt8) : (GetData addr key db).1 = [] := by
  simp [GetData, getAccountObject, hobj, hdel]

/-- Reading a key of an account not loaded yet reads its storage trie. -/
theorem getData_of_trie (hobj : db.accountObjects addr = none) (htrie : db.trie addr = some acc)
    (key : List UInt8) : (GetData addr key db).1 = acc.storage key := by
  simp only [GetData, getAccountObject_of_trie hobj htrie, AccountObject.getData,
    newAccountObject, AList.lookup_empty]
  split_ifs <;> rfl

/-- A nonzero credit to an account not loaded yet loads it, credits it, and marks the address
dirty at the first change. -/
theorem addBalance_of_trie (hobj : db.accountObjects addr = none) (htrie : db.trie addr = some acc)
    {x : Int} (hx : x ≠ 0) :
    (AddBalance addr x db).2 = { db with
      accountObjects := Function.update db.accountObjects addr
        (some ⟨{ acc with balance := acc.balance + x }, ∅, ∅, false, false, false, false⟩)
      accountObjectsDirty := Function.update db.accountObjectsDirty addr true
      transitions := db.transitions ++ [.balanceChange addr acc.balance] } := by
  simp [AddBalance, withObject, getOrNewAccountObject, getAccountObject_of_trie hobj htrie,
    addBalance, hx, SetBalance, setBalance, onDirty, newAccountObject, putObject, journal,
    MarkAccountObjectDirty]

/-- A nonzero credit to a loaded object whose callback is dropped changes its balance and marks
nothing. -/
theorem addBalance_of_loaded {ao : AccountObject} (hobj : db.accountObjects addr = some ao)
    (hdel : ao.deleted = false) (hcb : ao.onDirty = false) {x : Int} (hx : x ≠ 0) :
    (AddBalance addr x db).2 = { db with
      accountObjects := Function.update db.accountObjects addr
        (some { ao with data := { ao.data with balance := ao.data.balance + x } })
      transitions := db.transitions ++ [.balanceChange addr ao.data.balance] } := by
  simp [AddBalance, withObject, getOrNewAccountObject, getAccountObject, hobj, hdel, addBalance, hx,
    SetBalance, setBalance, onDirty, hcb, putObject, journal]

/-- Adding zero to an account with no nonce, balance or code that is not loaded yet loads and
touches it: the touch marks the address dirty, drops the object's callback and is journalled. -/
theorem addBalance_zero_eq_of_trie (hobj : db.accountObjects addr = none)
    (htrie : db.trie addr = some acc) (hnonce : acc.nonce = 0) (hbal : acc.balance = 0)
    (hcode : acc.codeHash = emptyCodeHash) :
    (AddBalance addr 0 db).2 = { db with
      accountObjects := Function.update db.accountObjects addr
        (some ⟨acc, ∅, ∅, false, true, false, false⟩)
      accountObjectsDirty := Function.update db.accountObjectsDirty addr true
      transitions := db.transitions ++ [.touchChange addr false false] } := by
  simp [AddBalance, withObject, getOrNewAccountObject, getAccountObject_of_trie hobj htrie,
    addBalance, AccountObject.empty, hnonce, hbal, hcode, touch, onDirty, newAccountObject,
    putObject, journal, MarkAccountObjectDirty]

/-- Adding zero to an account with no nonce, balance or code that is not loaded yet loads it with
an empty storage cache, so that the object is empty, touches it and marks the address dirty. -/
theorem addBalance_zero_of_trie (hobj : db.accountObjects addr = none)
    (htrie : db.trie addr = some acc) (hnonce : acc.nonce = 0) (hbal : acc.balance = 0)
    (hcode : acc.codeHash = emptyCodeHash) :
    (AddBalance addr 0 db).2.accountObjectsDirty addr = true ∧
      (AddBalance addr 0 db).2.accountObjects addr =
        some ⟨acc, ∅, ∅, false, true, false, false⟩ := by
  rw [addBalance_zero_eq_of_trie hobj htrie hnonce hbal hcode]
  simp

end Steps

/-! ## What `Finalise` does at one address -/

section Finalise

omit [DecidableEq Address]

variable (d : Bool) {db : AccountDB Address} {addr : Address}

/-- A dirty loaded object that `Finalise` deletes takes its account out of the trie. -/
theorem finalise_of_deletes {ao : AccountObject} (hdirty : db.accountObjectsDirty addr = true)
    (hobj : db.accountObjects addr = some ao) (hdel : deletes d ao = true) :
    (Finalise d db).2.trie addr = none ∧
      (Finalise d db).2.accountObjects addr = some { ao with deleted := true } := by
  simp [Finalise, clearJournalAndRefund, hdirty, hobj, hdel]

/-- A dirty loaded object that `Finalise` keeps is written back with its storage flushed. -/
theorem finalise_of_not_deletes {ao : AccountObject} (hdirty : db.accountObjectsDirty addr = true)
    (hobj : db.accountObjects addr = some ao) (hdel : deletes d ao = false) :
    (Finalise d db).2.trie addr = some ao.updateRoot.data ∧
      (Finalise d db).2.accountObjects addr = some ao.updateRoot := by
  simp [Finalise, clearJournalAndRefund, hdirty, hobj, hdel]

/-- An address that is not dirty keeps its account and its object. -/
theorem finalise_of_not_dirty (hdirty : db.accountObjectsDirty addr = false) :
    (Finalise d db).2.trie addr = db.trie addr ∧
      (Finalise d db).2.accountObjects addr = db.accountObjects addr := by
  simp [Finalise, clearJournalAndRefund, hdirty]

end Finalise

/-- A zero credit to an account with no nonce, balance or code, whose storage no read has cached
yet, makes `Finalise(true)` delete the account: every value in its storage, readable before,
reads as nothing after. -/
theorem finalise_deletes_account_with_storage (db : AccountDB Address) (a : Address)
    (acc : Account) (hobj : db.accountObjects a = none) (htrie : db.trie a = some acc)
    (hnonce : acc.nonce = 0) (hbal : acc.balance = 0) (hcode : acc.codeHash = emptyCodeHash)
    (key : List UInt8) :
    (GetData a key db).1 = acc.storage key ∧
      (Finalise true (AddBalance a 0 db).2).2.trie a = none ∧
      (GetData a key (Finalise true (AddBalance a 0 db).2).2).1 = [] := by
  obtain ⟨hdirty, hloaded⟩ := addBalance_zero_of_trie hobj htrie hnonce hbal hcode
  -- the touched object is empty: its storage cache is
  have hdel : deletes true ⟨acc, ∅, ∅, false, true, false, false⟩ = true := by
    simp [deletes, AccountObject.empty, hnonce, hbal, hcode]
  obtain ⟨hgone, hdeleted⟩ := finalise_of_deletes true hdirty hloaded hdel
  exact ⟨getData_of_trie hobj htrie key, hgone, getData_of_deleted hdeleted rfl key⟩

section StorageAccount

/-- An account with no nonce, balance or code that holds one value in its storage. -/
def storageAccount : Account := ⟨0, 0, fun key => if key = [1] then [7] else [], emptyCodeHash⟩

def storageAccountDB : AccountDB ℕ := ofTrie fun a => if a = 1 then some storageAccount else none

theorem finalise_deletes_storageAccount :
    storageAccountDB.accountObjects 1 = none ∧ storageAccountDB.trie 1 = some storageAccount ∧
      storageAccount.nonce = 0 ∧ storageAccount.balance = 0 ∧
      storageAccount.codeHash = emptyCodeHash ∧
      ((GetData 1 [1] storageAccountDB).1 = [7] ∧
        (Finalise true (AddBalance 1 0 storageAccountDB).2).2.trie 1 = none ∧
        (GetData 1 [1] (Finalise true (AddBalance 1 0 storageAccountDB).2).2).1 = []) :=
  ⟨rfl, rfl, rfl, rfl, rfl,
    finalise_deletes_account_with_storage storageAccountDB 1 storageAccount rfl rfl rfl rfl rfl [1]⟩

end StorageAccount

end AccountDB

end Zvchain
