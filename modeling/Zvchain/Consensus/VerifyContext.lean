import Zvchain.Core.ForkChoice
import Zvchain.Lib.GoMap
import Zvchain.Lib.Outcome
import Zvchain.Lib.Transition

/-!
# Slots of a verify context (`consensus/logical/verify_context.go`)

A verify context keeps, for one height, a slot per proposed block (`slots`, by block hash) and
the block each proposer proposed (`proposers`, by the address string of the castor).
`PrepareSlot` first settles the proposer: a second proposal of a castor replaces the first when
its hash is larger and is refused otherwise, and the first proposal's slot is deleted.  Then, with
`MaxSlotSize` slots already, it evicts the lightest slot or refuses the block.  Last it stores a
new slot for the block.

Both refusals come after the proposer map has been written: a refused block leaves its castor
recorded with its hash, and the slot of the castor's earlier proposal deleted.  And a block that
already has a slot gets a new, empty one.  The bound on the number of slots, and that a castor
has at most one slot, recorded in `proposers`, hold over every run (`reachable_slotInv`).
-/

namespace Zvchain

/-- The statuses of a slot, `slIniting` to `slRewardSent`. -/
inductive SlotStatus where
  | initing | waiting | signed | recovered | verified | success | failed | rewardSignReq
  | rewardSent
  deriving DecidableEq, Repr

/-- `model.GroupSignGenerator`: the pieces received, by the address string of the signer, and the
threshold. -/
structure GroupSignGenerator (Key Sig : Type) [DecidableEq Key] where
  witnesses : AList fun _ : Key => Sig
  threshold : ℕ

/-- The fields of `SlotContext` that the slot bookkeeping sets and reads. -/
structure SlotContext (Key Sig : Type) [DecidableEq Key] where
  bh : BlockHeader
  castor : Key
  slotStatus : SlotStatus
  gSignGenerator : GroupSignGenerator Key Sig
  rSignGenerator : GroupSignGenerator Key Sig

/-- How blocks are weighed: `types.NewBlockWeight` with the default proof-value function, and
`MoreWeight` under the chain configuration and the default stake getter. -/
structure Weigher (Address : Type) where
  cfg : ChainConfig
  stakeGetter : Option (StakeGetter Address)
  pvFunc : List UInt8 → ℤ
  bytesToAddress : List UInt8 → Address

namespace Weigher

variable {Address : Type} (w : Weigher Address)

def weight (bh : BlockHeader) : BlockWeight Address :=
  BlockWeight.NewBlockWeight w.pvFunc w.bytesToAddress bh

def moreWeight (bw bw2 : BlockWeight Address) : Bool := bw.MoreWeight w.cfg w.stakeGetter bw2

end Weigher

/-- `model.Param.MaxSlotSize`. -/
def MaxSlotSize : ℕ := 5

variable {Address Key Sig : Type} [DecidableEq Key]

/-- `createSlotContext`; `castorOf` is `groupsig.DeserializeID` followed by `GetAddrString`. -/
def createSlotContext (castorOf : List UInt8 → Key) (bh : BlockHeader) (threshold : ℕ) :
    SlotContext Key Sig :=
  ⟨bh, castorOf bh.castor, .waiting, ⟨∅, threshold⟩, ⟨∅, threshold⟩⟩

/-- The fields of `VerifyContext` that the slot bookkeeping reads and writes; `slots` is `none`
after `Clear`, and `threshold` is that of the context's group. -/
structure VerifyContext (Address Key Sig : Type) [DecidableEq Key] where
  castHeight : UInt64
  signedMaxWeight : Option (BlockWeight Address)
  slots : Option (AList fun _ : Hash => SlotContext Key Sig)
  proposers : AList fun _ : Key => Hash
  threshold : ℕ

namespace VerifyContext

variable (w : Weigher Address) (castorOf : List UInt8 → Key)

/-- `newVerifyContext`. -/
def newVerifyContext (threshold : ℕ) (castHeight : UInt64) : VerifyContext Address Key Sig :=
  ⟨castHeight, none, some ∅, ∅, threshold⟩

/-- `hasSignedMoreWeightThan`. -/
def hasSignedMoreWeightThan (vc : VerifyContext Address Key Sig) (bh : BlockHeader) : Bool :=
  match vc.signedMaxWeight with
  | none => false
  | some bw => w.moreWeight bw (w.weight bh)

/-- `updateSignedMaxWeightBlock`, which `markSignedBlock` calls. -/
def updateSignedMaxWeightBlock (vc : VerifyContext Address Key Sig) (bh : BlockHeader) :
    Bool × VerifyContext Address Key Sig :=
  match vc.signedMaxWeight with
  | some bw => if w.moreWeight bw (w.weight bh) then (false, vc)
    else (true, { vc with signedMaxWeight := some (w.weight bh) })
  | none => (true, { vc with signedMaxWeight := some (w.weight bh) })

/-- The loop of `PrepareSlot` that finds the lightest slot, in the map's order of iteration: the
first weight that no later one is lighter than. -/
def minWeightLoop : List (Σ _ : Hash, SlotContext Key Sig) → Option (BlockWeight Address × Hash) →
    Option (BlockWeight Address × Hash)
  | [], acc => acc
  | ⟨hash, slot⟩ :: rest, acc =>
    let bw := w.weight slot.bh
    match acc with
    | none => minWeightLoop rest (some (bw, hash))
    | some (minWeight, _) =>
      if w.moreWeight minWeight bw then minWeightLoop rest (some (bw, hash))
      else minWeightLoop rest acc

/-- The proposer check of `PrepareSlot` for a block of castor `castor`: the proposer map and the
slots after it, or its error.  A second proposal with a larger hash takes the castor's place and
deletes the slot of the first. -/
def settleProposer (vc : VerifyContext Address Key Sig)
    (slots : AList fun _ : Hash => SlotContext Key Sig) (castor : Key) (bh : BlockHeader) :
    Except String ((AList fun _ : Key => Hash) × (AList fun _ : Hash => SlotContext Key Sig)) :=
  match vc.proposers.lookup castor with
  | some v =>
    if vc.castHeight > 1 then
      if v ≠ bh.hash then
        if v.Big < bh.hash.Big then .ok (vc.proposers.insert castor bh.hash, slots.erase v)
        else .error "too many proposals, return error: castor %v, exist %v, coming %v"
      else .ok (vc.proposers, slots)
    else .ok (vc.proposers.insert castor bh.hash, slots)
  | none => .ok (vc.proposers.insert castor bh.hash, slots)

/-- `PrepareSlot`: the slot returned, or the error, and the context after.  The context is
written in place in Go, so the changes made before an error stay. -/
def PrepareSlot (ord : GoMap.IterOrder (Σ _ : Hash, SlotContext Key Sig))
    (vc : VerifyContext Address Key Sig) (bh : BlockHeader) :
    Outcome (SlotContext Key Sig) × VerifyContext Address Key Sig :=
  match vc.slots with
  | none => (.error "slots is nil", vc)
  | some slots =>
    if vc.hasSignedMoreWeightThan w bh ∧ vc.castHeight > 1 then
      (.error "hasSignedMoreWeightThan:%v", vc)
    else
      let sc : SlotContext Key Sig := createSlotContext castorOf bh vc.threshold
      match settleProposer vc slots sc.castor bh with
      | .error err => (.error err, vc)
      | .ok (proposers, slots) =>
        let vc := { vc with proposers := proposers, slots := some slots }
        if slots.entries.length ≥ MaxSlotSize then
          match minWeightLoop w (ord.order slots.entries) none with
          | none => (.panic "runtime error: invalid memory address or nil pointer dereference", vc)
          | some (minWeight, minWeightHash) =>
            if w.moreWeight (w.weight bh) minWeight then
              (.ok sc, { vc with slots := some ((slots.erase minWeightHash).insert bh.hash sc) })
            else (.error "comming block weight less than min block weight", vc)
        else (.ok sc, { vc with slots := some (slots.insert bh.hash sc) })

/-! ## The lightest slot -/

theorem minWeightLoop_cases (l : List (Σ _ : Hash, SlotContext Key Sig))
    (acc : Option (BlockWeight Address × Hash)) :
    minWeightLoop w l acc = acc ∨ ∃ e ∈ l, minWeightLoop w l acc = some (w.weight e.2.bh, e.1) := by
  induction l generalizing acc with
  | nil => exact .inl rfl
  | cons e rest ih =>
    obtain ⟨hash, slot⟩ := e
    -- the head becomes the candidate, or the candidate stays
    have hhead : ∀ acc', (acc' = some (w.weight slot.bh, hash) ∨ acc' = acc) →
        (minWeightLoop w rest acc' = acc ∨
          ∃ e ∈ (⟨hash, slot⟩ :: rest : List (Σ _ : Hash, SlotContext Key Sig)),
            minWeightLoop w rest acc' = some (w.weight e.2.bh, e.1)) := by
      intro acc' hacc'
      rcases ih acc' with h | ⟨e, he, h⟩
      · rcases hacc' with rfl | rfl
        · exact .inr ⟨⟨hash, slot⟩, List.mem_cons_self, h⟩
        · exact .inl h
      · exact .inr ⟨e, List.mem_cons_of_mem _ he, h⟩
    unfold minWeightLoop
    cases acc with
    | none => exact hhead _ (.inl rfl)
    | some a =>
      dsimp only
      split_ifs
      · exact hhead _ (.inl rfl)
      · exact hhead _ (.inr rfl)

/-- Over a map with slots, the loop finds one of them. -/
theorem minWeightLoop_some {l : List (Σ _ : Hash, SlotContext Key Sig)} (hl : l ≠ []) :
    ∃ e ∈ l, minWeightLoop w l none = some (w.weight e.2.bh, e.1) := by
  obtain ⟨⟨hash, slot⟩, rest, rfl⟩ := List.exists_cons_of_ne_nil hl
  rcases minWeightLoop_cases w rest (some (w.weight slot.bh, hash)) with h | ⟨e, he, h⟩
  · exact ⟨⟨hash, slot⟩, List.mem_cons_self, h⟩
  · exact ⟨e, List.mem_cons_of_mem _ he, h⟩

/-! ## A castor's slot is recorded -/

/-- Every slot's castor is recorded in `proposers` with the slot's hash, so that a castor has at
most one slot (`Recorded.unique`). -/
def Recorded (proposers : AList fun _ : Key => Hash)
    (slots : AList fun _ : Hash => SlotContext Key Sig) : Prop :=
  ∀ h s, slots.lookup h = some s → proposers.lookup s.castor = some h

variable {proposers : AList fun _ : Key => Hash} {slots : AList fun _ : Hash => SlotContext Key Sig}

theorem Recorded.unique (hr : Recorded proposers slots) {h₁ h₂ : Hash} {s₁ s₂ : SlotContext Key Sig}
    (hs₁ : slots.lookup h₁ = some s₁) (hs₂ : slots.lookup h₂ = some s₂)
    (hc : s₁.castor = s₂.castor) : h₁ = h₂ := by
  have e₁ := hr h₁ s₁ hs₁
  rw [hc, hr h₂ s₂ hs₂] at e₁
  exact (Option.some.inj e₁).symm

theorem Recorded.erase (hr : Recorded proposers slots) (v : Hash) :
    Recorded proposers (slots.erase v) := by
  intro h s hs
  by_cases hv : h = v
  · subst hv
    rw [AList.lookup_erase] at hs
    cases hs
  · rw [AList.lookup_erase_ne hv] at hs
    exact hr h s hs

theorem Recorded.insert (hr : Recorded proposers slots) {h : Hash} {sc : SlotContext Key Sig}
    (hp : proposers.lookup sc.castor = some h) : Recorded proposers (slots.insert h sc) := by
  intro k s hk
  by_cases hkh : k = h
  · subst hkh
    rw [AList.lookup_insert] at hk
    cases hk
    exact hp
  · rw [AList.lookup_insert_ne hkh] at hk
    exact hr k s hk

/-- Recording a castor that has no slot, or only the slot of `v` when that slot is deleted,
keeps every other castor's record. -/
theorem Recorded.insert_castor (hr : Recorded proposers slots) {c : Key} {h : Hash}
    (hc : ∀ k s, slots.lookup k = some s → s.castor = c → False) :
    Recorded (proposers.insert c h) slots := by
  intro k s hk
  have hne : s.castor ≠ c := fun he => hc k s hk he
  rw [AList.lookup_insert_ne hne]
  exact hr k s hk

/-- The proposer check, on a context of a height above 1 whose slots are recorded, records the
block's castor with the block's hash, keeps the slots recorded, and adds no slot. -/
theorem settleProposer_spec {vc : VerifyContext Address Key Sig} (hcast : vc.castHeight > 1)
    (hr : Recorded vc.proposers slots) {c : Key} {bh : BlockHeader}
    {proposers' : AList fun _ : Key => Hash} {slots' : AList fun _ : Hash => SlotContext Key Sig}
    (hs : settleProposer vc slots c bh = .ok (proposers', slots')) :
    Recorded proposers' slots' ∧ proposers'.lookup c = some bh.hash ∧
      slots'.entries.length ≤ slots.entries.length := by
  unfold settleProposer at hs
  cases hv : vc.proposers.lookup c with
  | none =>
    rw [hv] at hs
    cases hs
    -- a castor without a record has no slot
    refine ⟨hr.insert_castor fun k s hk he => ?_, AList.lookup_insert _, Nat.le_refl _⟩
    have := hr k s hk
    rw [he, hv] at this
    cases this
  | some v =>
    rw [hv] at hs
    dsimp only at hs
    rw [if_pos hcast] at hs
    split_ifs at hs with hne hlt
    · cases hs
      -- the castor's earlier slot, if any, is the one deleted
      refine ⟨(hr.erase v).insert_castor fun k s hk he => ?_, AList.lookup_insert _,
        GoMap.length_erase_le _ _⟩
      have hkv : k ≠ v := fun hkv => by
        subst hkv
        rw [AList.lookup_erase] at hk
        cases hk
      rw [AList.lookup_erase_ne hkv] at hk
      have := hr k s hk
      rw [he, hv] at this
      exact hkv (Option.some.inj this).symm
    · cases hs
      exact ⟨hr, by rw [hv, not_not.mp hne], Nat.le_refl _⟩

/-! ## Over a run of `PrepareSlot` -/

/-- What the slot bookkeeping keeps at a height above 1: at most `MaxSlotSize` slots, each
recorded with its castor. -/
structure SlotInv (vc : VerifyContext Address Key Sig) : Prop where
  castHeight : vc.castHeight > 1
  size : ∀ slots, vc.slots = some slots → slots.entries.length ≤ MaxSlotSize
  recorded : ∀ slots, vc.slots = some slots → Recorded vc.proposers slots

theorem prepareSlot_slotInv (ord : GoMap.IterOrder (Σ _ : Hash, SlotContext Key Sig))
    {vc : VerifyContext Address Key Sig} (hinv : SlotInv vc) (bh : BlockHeader) :
    SlotInv (PrepareSlot w castorOf ord vc bh).2 := by
  unfold PrepareSlot
  cases hslots : vc.slots with
  | none => exact hinv
  | some slots =>
    have hsize := hinv.size slots hslots
    have hr := hinv.recorded slots hslots
    dsimp only
    split_ifs with hsigned
    · exact hinv
    cases hs : settleProposer vc slots (createSlotContext castorOf bh vc.threshold : SlotContext Key Sig).castor bh with
    | error err => exact hinv
    | ok r =>
      obtain ⟨proposers', slots'⟩ := r
      obtain ⟨hr', hc, hlen⟩ := settleProposer_spec hinv.castHeight hr hs
      -- the context after the proposer check, before the capacity check
      have hmid : ∀ slots'', slots'' = slots' ∨ slots''.entries.length ≤ MaxSlotSize ∧
          Recorded proposers' slots'' →
          SlotInv { vc with proposers := proposers', slots := some slots'' } := by
        intro slots'' h''
        refine ⟨hinv.castHeight, fun s hs' => ?_, fun s hs' => ?_⟩ <;> cases hs' <;>
          rcases h'' with rfl | h''
        · exact Nat.le_trans hlen hsize
        · exact h''.1
        · exact hr'
        · exact h''.2
      dsimp only
      split_ifs with hfull
      · obtain ⟨⟨mh, ms⟩, hmem, hmin⟩ := minWeightLoop_some w (l := ord.order slots'.entries)
          (fun hnil => by
            have := (ord.perm slots'.entries).length_eq
            rw [hnil] at this
            simp only [List.length_nil, MaxSlotSize] at this hfull
            omega)
        rw [hmin]
        dsimp only
        split_ifs
        · -- the lightest slot makes room for the new one
          have hmh : mh ∈ slots' := AList.mem_keys.mpr (List.mem_keys_of_mem
            ((ord.perm _).mem_iff.mp hmem))
          have herase := GoMap.length_erase_of_mem hmh
          have hins := GoMap.length_insert_le (slots'.erase mh) bh.hash
            (createSlotContext castorOf bh vc.threshold)
          exact hmid _ (.inr ⟨by omega, (hr'.erase mh).insert hc⟩)
        · exact hmid _ (.inl rfl)
      · have hins := GoMap.length_insert_le slots' bh.hash
          (createSlotContext castorOf bh vc.threshold : SlotContext Key Sig)
        exact hmid _ (.inr ⟨by omega, hr'.insert hc⟩)

/-- The contexts of a run at one height above 1: from a new context, blocks are prepared and
signed (`markSignedBlock`) in any order. -/
def Init (vc : VerifyContext Address Key Sig) : Prop :=
  ∃ threshold castHeight, castHeight > 1 ∧ vc = newVerifyContext threshold castHeight

def Step (vc vc' : VerifyContext Address Key Sig) : Prop :=
  (∃ ord bh, vc' = (PrepareSlot w castorOf ord vc bh).2) ∨
    ∃ bh, vc' = (updateSignedMaxWeightBlock w vc bh).2

theorem updateSignedMaxWeightBlock_slotInv {vc : VerifyContext Address Key Sig}
    (hinv : SlotInv vc) (bh : BlockHeader) : SlotInv (updateSignedMaxWeightBlock w vc bh).2 := by
  unfold updateSignedMaxWeightBlock
  split
  · split_ifs
    · exact hinv
    · exact ⟨hinv.castHeight, hinv.size, hinv.recorded⟩
  · exact ⟨hinv.castHeight, hinv.size, hinv.recorded⟩

/-- Over every run, a context has at most `MaxSlotSize` slots, and each castor at most one slot,
the one `proposers` records for it. -/
theorem reachable_slotInv {vc : VerifyContext Address Key Sig}
    (h : Transition.Reachable Init (Step w castorOf) vc) : SlotInv vc := by
  refine Transition.Reachable.induction (fun s hs => ?_) (fun s s' hs hstep => ?_) h
  · obtain ⟨threshold, castHeight, hcast, rfl⟩ := hs
    refine ⟨hcast, fun slots hs' => ?_, fun slots hs' => ?_⟩ <;> cases hs'
    · exact Nat.zero_le _
    · intro k sc hk
      cases hk
  · rcases hstep with ⟨ord, bh, rfl⟩ | ⟨bh, rfl⟩
    · exact prepareSlot_slotInv w castorOf ord hs bh
    · exact updateSignedMaxWeightBlock_slotInv w hs bh

/-! ## What an error and a success leave -/

theorem settleProposer_of_lookup_none {vc : VerifyContext Address Key Sig} {c : Key}
    (hc : vc.proposers.lookup c = none) (bh : BlockHeader) :
    settleProposer vc slots c bh = .ok (vc.proposers.insert c bh.hash, slots) := by
  unfold settleProposer
  rw [hc]

/-- A block of a castor with no record, no heavier than any slot of a full context, is refused;
the castor stays recorded with the refused block's hash, since the write to `proposers` comes
before the capacity check. -/
theorem prepareSlot_error_records_castor (ord : GoMap.IterOrder (Σ _ : Hash, SlotContext Key Sig))
    {vc : VerifyContext Address Key Sig} (hslots : vc.slots = some slots) {bh : BlockHeader}
    (hsigned : vc.hasSignedMoreWeightThan w bh = false)
    (hnew : vc.proposers.lookup (castorOf bh.castor) = none)
    (hfull : MaxSlotSize ≤ slots.entries.length)
    (hlight : ∀ e ∈ slots.entries, w.moreWeight (w.weight bh) (w.weight e.2.bh) = false) :
    (PrepareSlot w castorOf ord vc bh).1 = .error "comming block weight less than min block weight" ∧
      (PrepareSlot w castorOf ord vc bh).2.proposers.lookup (castorOf bh.castor) = some bh.hash := by
  have hne : ord.order slots.entries ≠ [] := fun hnil => by
    have := (ord.perm slots.entries).length_eq
    rw [hnil] at this
    simp only [List.length_nil, MaxSlotSize] at this hfull
    omega
  obtain ⟨e, he, hmin⟩ := minWeightLoop_some w hne
  have hheavier := hlight e ((ord.perm _).mem_iff.mp he)
  unfold PrepareSlot
  rw [hslots]
  dsimp only
  rw [if_neg (by simp [hsigned]), createSlotContext, settleProposer_of_lookup_none hnew]
  dsimp only
  rw [if_pos hfull, hmin]
  dsimp only
  rw [if_neg (by simp [hheavier])]
  exact ⟨rfl, AList.lookup_insert _⟩

/-- Preparing blocks one after the other from a reachable context reaches a reachable context. -/
theorem reachable_foldl_prepareSlot (ord : GoMap.IterOrder (Σ _ : Hash, SlotContext Key Sig))
    {vc : VerifyContext Address Key Sig} (h : Transition.Reachable Init (Step w castorOf) vc)
    (bhs : List BlockHeader) :
    Transition.Reachable Init (Step w castorOf)
      (bhs.foldl (fun vc b => (PrepareSlot w castorOf ord vc b).2) vc) := by
  induction bhs generalizing vc with
  | nil => exact h
  | cons b bhs ih => exact ih (h.of_step (.inl ⟨ord, b, rfl⟩))

/-- From a new context at height 2, five blocks of five castors fill the slots; a lighter block of
a sixth castor is then refused, and the sixth castor is recorded all the same. -/
theorem prepareSlot_error_at_sixth_castor :
    let w : Weigher (List UInt8) := ⟨⟨0, 0, 0, 0, 0, 0⟩, none, fun _ => 0, id⟩
    let bh : UInt8 → UInt64 → BlockHeader := fun i qn =>
      ⟨BytesToHash [i], 2, BytesToHash [], [], qn, [i], BytesToHash []⟩
    let vc : VerifyContext (List UInt8) (List UInt8) Unit :=
      [bh 1 10, bh 2 10, bh 3 10, bh 4 10, bh 5 10].foldl
        (fun vc b => (PrepareSlot w id .stored vc b).2) (newVerifyContext 1 2)
    Transition.Reachable Init (Step w id) vc ∧
      (PrepareSlot w id .stored vc (bh 6 1)).1 =
        .error "comming block weight less than min block weight" ∧
      vc.proposers.lookup [6] = none ∧
      (PrepareSlot w id .stored vc (bh 6 1)).2.proposers.lookup [6] = some (bh 6 1).hash := by
  intro w bh vc
  have hslots : vc.slots = some (vc.slots.getD ∅) := rfl
  have hnew : vc.proposers.lookup (id (bh 6 1).castor) = none := by decide
  obtain ⟨herr, hrec⟩ := prepareSlot_error_records_castor w id .stored hslots (by decide) hnew
    (by decide) (by decide)
  exact ⟨reachable_foldl_prepareSlot w id .stored (.init ⟨1, 2, by decide, rfl⟩) _, herr, hnew, hrec⟩

/-- Over every run, a context holds at most `MaxSlotSize` slots, and no two of its slots have the
same castor. -/
theorem reachable_slots_bounded {vc : VerifyContext Address Key Sig}
    (hr : Transition.Reachable Init (Step w castorOf) vc) {slots : AList fun _ : Hash => SlotContext Key Sig}
    (hs : vc.slots = some slots) :
    slots.entries.length ≤ MaxSlotSize ∧ ∀ (h₁ h₂ : Hash) (s₁ s₂ : SlotContext Key Sig),
      slots.lookup h₁ = some s₁ → slots.lookup h₂ = some s₂ → s₁.castor = s₂.castor → h₁ = h₂ := by
  have hinv := reachable_slotInv w castorOf hr
  exact ⟨hinv.size slots hs, fun _ _ _ _ hs₁ hs₂ hc => (hinv.recorded slots hs).unique hs₁ hs₂ hc⟩

/-- The five slots of five castors at height 2: at most `MaxSlotSize`, one per castor. -/
theorem slots_after_five_castors :
    let w : Weigher (List UInt8) := ⟨⟨0, 0, 0, 0, 0, 0⟩, none, fun _ => 0, id⟩
    let bh : UInt8 → UInt64 → BlockHeader := fun i qn =>
      ⟨BytesToHash [i], 2, BytesToHash [], [], qn, [i], BytesToHash []⟩
    let vc : VerifyContext (List UInt8) (List UInt8) Unit :=
      [bh 1 10, bh 2 10, bh 3 10, bh 4 10, bh 5 10].foldl
        (fun vc b => (PrepareSlot w id .stored vc b).2) (newVerifyContext 1 2)
    (vc.slots.getD ∅).entries.length ≤ MaxSlotSize ∧ ∀ (h₁ h₂ : Hash) (s₁ s₂ : SlotContext (List UInt8) Unit),
      (vc.slots.getD ∅).lookup h₁ = some s₁ → (vc.slots.getD ∅).lookup h₂ = some s₂ →
        s₁.castor = s₂.castor → h₁ = h₂ := by
  intro w bh vc
  have hslots : vc.slots = some (vc.slots.getD ∅) := rfl
  exact reachable_slots_bounded w id (reachable_foldl_prepareSlot w id .stored
    (.init ⟨1, 2, by decide, rfl⟩) [bh 1 10, bh 2 10, bh 3 10, bh 4 10, bh 5 10]) hslots

end VerifyContext

end Zvchain
