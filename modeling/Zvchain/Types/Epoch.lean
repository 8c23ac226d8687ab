import Mathlib

/-!
# Epochs (`middleware/types/epoch.go`)

An epoch is a run of `EpochLength` heights.  Groups created at a height start working two epochs
later and are dismissed `GroupLiveEpochs` epochs after that (`ActivateEpochOfGroupsCreatedAt`,
`DismissEpochOfGroupsCreatedAt`).  The start heights are `uint64` products and sums: below the
top `27` epochs of the range they are the epoch arithmetic on numbers (`dismissStart_toNat`), so
that later groups are dismissed no earlier (`dismissStart_le`); at the top of the range the sums
wrap around to small heights.
-/

namespace Zvchain

/-- `types.Epoch`: an `epoch`, numbered from height 0, or the `genesisEpoch` that `Add` with a
negative delta reaches before the first. -/
inductive Epoch where
  | epoch (e : UInt64)
  | genesisEpoch
  deriving DecidableEq, Repr

/-- Blocks per epoch. -/
def EpochLength : UInt64 := 240

/-- Epochs one group can live. -/
def GroupLiveEpochs : ℤ := 25

/-- The epoch gap after the group created can start working. -/
def GroupActivateEpochGap : ℤ := 1

def EpochAt (h : UInt64) : Epoch := .epoch (h / EpochLength)

namespace Epoch

def Start : Epoch → UInt64
  | epoch e => e * EpochLength
  | genesisEpoch => 0

def End : Epoch → UInt64
  | epoch e => (epoch e).Start + EpochLength
  | genesisEpoch => 0

/-- `Equal`: two epochs end at the same height; the genesis epoch equals only the genesis
epoch, by the type assertion of its method. -/
def Equal : Epoch → Epoch → Bool
  | epoch e, e2 => (epoch e).End == e2.End
  | genesisEpoch, e2 => e2 == genesisEpoch

/-- `Add`, with Go's `int` delta. -/
def Add : Epoch → ℤ → Epoch
  | epoch e, delta =>
    if delta ≥ 0 then EpochAt ((epoch e).Start + UInt64.ofInt delta * EpochLength)
    else if (epoch e).Start ≥ UInt64.ofInt (-delta) * EpochLength then
      EpochAt ((epoch e).Start - UInt64.ofInt (-delta) * EpochLength)
    else genesisEpoch
  | genesisEpoch, delta =>
    if delta ≤ 0 then genesisEpoch
    else if delta = 1 then EpochAt 0
    else EpochAt (genesisEpoch.Start + UInt64.ofInt delta * EpochLength)

end Epoch

def ActivateEpochOfGroupsCreatedAt (h : UInt64) : Epoch :=
  (EpochAt h).Add (GroupActivateEpochGap + 1)

def DismissEpochOfGroupsCreatedAt (h : UInt64) : Epoch :=
  (ActivateEpochOfGroupsCreatedAt h).Add GroupLiveEpochs

/-! ## Start heights as numbers -/

theorem toNat_mul_epochLength {x : UInt64} (h : x.toNat * 240 < 2 ^ 64) :
    (x * EpochLength).toNat = x.toNat * 240 := by
  rw [UInt64.toNat_mul]
  exact Nat.mod_eq_of_lt h

/-- The start of an epoch reached by a sum that does not wrap. -/
theorem start_epochAt (h : UInt64) : (EpochAt h).Start.toNat = h.toNat / 240 * 240 := by
  have hdiv : (h / EpochLength).toNat = h.toNat / 240 := by
    rw [UInt64.toNat_div]
    rfl
  unfold EpochAt Epoch.Start
  rw [toNat_mul_epochLength (by have := h.toNat_lt; omega), hdiv]

theorem add_epochAt (h : UInt64) (delta : ℕ) :
    (EpochAt h).Add delta = EpochAt ((EpochAt h).Start + UInt64.ofInt delta * EpochLength) := by
  show (Epoch.epoch (h / EpochLength)).Add delta = _
  rw [Epoch.Add.eq_1, if_pos (Int.natCast_nonneg delta)]
  rfl

/-- The height `Add` of a delta that is not negative takes the epoch of, when the sum does not
wrap. -/
theorem toNat_add_arg (h : UInt64) {delta : ℕ} (hw : h.toNat / 240 * 240 + delta * 240 < 2 ^ 64) :
    ((EpochAt h).Start + UInt64.ofInt delta * EpochLength).toNat =
      h.toNat / 240 * 240 + delta * 240 := by
  have h240 : delta * 240 < 2 ^ 64 := by omega
  have hof : (UInt64.ofInt delta).toNat = delta := by
    have hmod : (delta : ℤ) % 2 ^ 64 = delta := Int.emod_eq_of_lt (by omega) (by omega)
    rw [UInt64.ofInt, hmod, Int.toNat_natCast]
    exact UInt64.toNat_ofNat_of_lt' (by unfold UInt64.size; omega)
  have hmul : (UInt64.ofInt delta).toNat * 240 < 2 ^ 64 := by
    rw [hof]
    exact h240
  rw [UInt64.toNat_add, start_epochAt, toNat_mul_epochLength hmul, hof]
  exact Nat.mod_eq_of_lt hw

/-- `Add` of a delta that is not negative, when the sum does not wrap. -/
theorem start_add_of_nonneg (h : UInt64) {delta : ℕ}
    (hw : h.toNat / 240 * 240 + delta * 240 < 2 ^ 64) :
    ((EpochAt h).Add delta).Start.toNat = (h.toNat / 240 + delta) * 240 := by
  rw [add_epochAt, start_epochAt, toNat_add_arg h hw]
  omega

theorem activateEpoch_eq (h : UInt64) : ActivateEpochOfGroupsCreatedAt h = (EpochAt h).Add (2 : ℕ) :=
  rfl

/-- Below the top `2` epochs of the range, a group created at `h` starts working at the start of
the epoch `2` after that of `h`. -/
theorem activateStart_toNat {h : UInt64} (hw : h.toNat + 2 * 240 < 2 ^ 64) :
    (ActivateEpochOfGroupsCreatedAt h).Start.toNat = (h.toNat / 240 + 2) * 240 := by
  rw [activateEpoch_eq]
  exact start_add_of_nonneg h (by omega)

/-- Below the top `27` epochs of the range, a group created at `h` is dismissed at the start of
the epoch `27` after that of `h`. -/
theorem dismissStart_toNat {h : UInt64} (hw : h.toNat + 27 * 240 < 2 ^ 64) :
    (DismissEpochOfGroupsCreatedAt h).Start.toNat = (h.toNat / 240 + 27) * 240 := by
  have harg : ((EpochAt h).Start + UInt64.ofInt ((2 : ℕ) : ℤ) * EpochLength).toNat =
      h.toNat / 240 * 240 + 2 * 240 := toNat_add_arg h (by omega)
  show (((EpochAt h).Add (2 : ℕ)).Add (25 : ℕ)).Start.toNat = _
  rw [add_epochAt h 2, start_add_of_nonneg _ (by rw [harg]; omega), harg]
  omega

/-- Below the top `27` epochs of the range, a group created later is dismissed no earlier. -/
theorem dismissStart_le {h₁ h₂ : UInt64} (hle : h₁ ≤ h₂) (hw : h₂.toNat + 27 * 240 < 2 ^ 64) :
    (DismissEpochOfGroupsCreatedAt h₁).Start ≤ (DismissEpochOfGroupsCreatedAt h₂).Start := by
  have hle' : h₁.toNat ≤ h₂.toNat := UInt64.le_iff_toNat_le.mp hle
  rw [UInt64.le_iff_toNat_le, dismissStart_toNat hw, dismissStart_toNat (by omega)]
  have := Nat.div_le_div_right (c := 240) hle'
  omega

/-- A group created below the top `2` epochs of the range starts working above height 0. -/
theorem activateStart_pos {h : UInt64} (hw : h.toNat + 2 * 240 < 2 ^ 64) :
    0 < (ActivateEpochOfGroupsCreatedAt h).Start := by
  rw [UInt64.lt_iff_toNat_lt, activateStart_toNat hw]
  simp

end Zvchain
