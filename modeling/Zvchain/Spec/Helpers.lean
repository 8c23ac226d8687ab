import Zvchain.Core.MinerOperation
import Zvchain.Lib.StateProc

/-!
# Specifications of the storage helpers

Each storage helper of `core/miner_base.go` that does not branch gets its weakest-precondition
specification, tagged `@[spec]`, so that `mvcgen` steps over it and the state it leaves appears
as a term: a read passes the stored value on, a write continues in the written state.  The
helpers that branch (`reduceBalance`, `addToPool`, the total-stake helpers) are unfolded by
their callers' `mvcgen` calls instead.

The pure functions the procedures compute records with come with their field lemmas.
-/

set_option mvcgen.warning false

namespace Zvchain

open Std.Do

/-- The shape of the postconditions of a procedure over the state. -/
abbrev ProcShape (Address : Type) : PostShape := .except Failure (.arg (State Address) .pure)

variable {Address : Type}

/-! ## Reads, and the writes of single fields -/

section Reads

@[spec] theorem getMiner_spec (a : Address) (t : MinerType)
    (Q : PostCond (Option (Miner Address)) (ProcShape Address)) :
    Triple (getMiner a t) (spred(fun s => Q.1 (s.miner a t) s)) Q := by
  mvcgen [getMiner]

@[spec] theorem getDetail_spec (a : Address) (k : DetailKey Address)
    (Q : PostCond (Option StakeDetail) (ProcShape Address)) :
    Triple (getDetail a k) (spred(fun s => Q.1 (s.detail a k) s)) Q := by
  mvcgen [getDetail]

@[spec] theorem getProposalTotalStake_spec (Q : PostCond UInt64 (ProcShape Address)) :
    Triple getProposalTotalStake (spred(fun s => Q.1 s.totalStake s)) Q := by
  mvcgen [getProposalTotalStake]

@[spec] theorem getTickets_spec (a : Address) (Q : PostCond UInt64 (ProcShape Address)) :
    Triple (getTickets a) (spred(fun s => Q.1 (s.tickets a) s)) Q := by
  mvcgen [getTickets]

@[spec] theorem getVoteInfo_spec (a : Address)
    (Q : PostCond (Option (VoteInfo Address)) (ProcShape Address)) :
    Triple (getVoteInfo a) (spred(fun s => Q.1 (s.vote a) s)) Q := by
  mvcgen [getVoteInfo]

@[spec] theorem getFundGuardNode_spec (a : Address)
    (Q : PostCond (Option FundGuardNode) (ProcShape Address)) :
    Triple (getFundGuardNode a) (spred(fun s => Q.1 (s.fundGuard a) s)) Q := by
  mvcgen [getFundGuardNode]

@[spec] theorem getBalance_spec (a : Address) (Q : PostCond ℤ (ProcShape Address)) :
    Triple (getBalance a) (spred(fun s => Q.1 (s.balance a) s)) Q := by
  mvcgen [getBalance]

@[spec] theorem hasScanedSixAddFiveFundGuards_spec (Q : PostCond Bool (ProcShape Address)) :
    Triple hasScanedSixAddFiveFundGuards (spred(fun s => Q.1 s.scanSixAddFive s)) Q := by
  mvcgen [hasScanedSixAddFiveFundGuards]

@[spec] theorem hasScanedSixAddSixFundGuards_spec (Q : PostCond Bool (ProcShape Address)) :
    Triple hasScanedSixAddSixFundGuards (spred(fun s => Q.1 s.scanSixAddSix s)) Q := by
  mvcgen [hasScanedSixAddSixFundGuards]

@[spec] theorem setProposalTotalStake_spec (v : UInt64) (Q : PostCond Unit (ProcShape Address)) :
    Triple (setProposalTotalStake v) (spred(fun s => Q.1 () { s with totalStake := v })) Q := by
  mvcgen [setProposalTotalStake]

@[spec] theorem markScanedSixAddFiveFundGuards_spec (Q : PostCond Unit (ProcShape Address)) :
    Triple (markScanedSixAddFiveFundGuards : Proc Address Unit)
      (spred(fun s => Q.1 () { s with scanSixAddFive := true })) Q := by
  mvcgen [markScanedSixAddFiveFundGuards]

@[spec] theorem markScanedSixAddSixFundGuards_spec (Q : PostCond Unit (ProcShape Address)) :
    Triple (markScanedSixAddSixFundGuards : Proc Address Unit)
      (spred(fun s => Q.1 () { s with scanSixAddSix := true })) Q := by
  mvcgen [markScanedSixAddSixFundGuards]

end Reads

/-! ## Writes -/

section Writes

variable [DecidableEq Address]

@[spec] theorem setMiner_spec (m : Miner Address) (Q : PostCond Unit (ProcShape Address)) :
    Triple (setMiner m) (spred(fun s => Q.1 () (s.putMiner m))) Q := by
  mvcgen [setMiner]

@[spec] theorem setDetail_spec (a : Address) (k : DetailKey Address) (d : StakeDetail)
    (Q : PostCond Unit (ProcShape Address)) :
    Triple (setDetail a k d) (spred(fun s => Q.1 () (s.putDetail a k (some d)))) Q := by
  mvcgen [setDetail]

@[spec] theorem removeDetail_spec (a : Address) (k : DetailKey Address)
    (Q : PostCond Unit (ProcShape Address)) :
    Triple (removeDetail a k) (spred(fun s => Q.1 () (s.putDetail a k none))) Q := by
  mvcgen [removeDetail]

@[spec] theorem setVoteInfo_spec (a : Address) (vf : VoteInfo Address)
    (Q : PostCond Unit (ProcShape Address)) :
    Triple (setVoteInfo a vf) (spred(fun s => Q.1 () (s.putVote a (some vf)))) Q := by
  mvcgen [setVoteInfo]

@[spec] theorem delVoteInfo_spec (a : Address) (Q : PostCond Unit (ProcShape Address)) :
    Triple (delVoteInfo a) (spred(fun s => Q.1 () (s.putVote a none))) Q := by
  mvcgen [delVoteInfo]

@[spec] theorem initVoteInfo_spec [Zero Address] (a : Address)
    (Q : PostCond (VoteInfo Address) (ProcShape Address)) :
    Triple (initVoteInfo a)
      (spred(fun s => Q.1 ⟨0, 0⟩ (s.putVote a (some ⟨0, 0⟩)))) Q := by
  mvcgen [initVoteInfo]

@[spec] theorem voteMinerPool_spec (vf : VoteInfo Address) (source target : Address)
    (height : UInt64) (Q : PostCond Unit (ProcShape Address)) :
    Triple (voteMinerPool vf source target height)
      (spred(fun s => Q.1 () (s.putVote source (some ⟨target, height⟩)))) Q := by
  mvcgen [voteMinerPool]

@[spec] theorem setFundGuardNode_spec (a : Address) (fn : FundGuardNode)
    (Q : PostCond Unit (ProcShape Address)) :
    Triple (setFundGuardNode a fn) (spred(fun s => Q.1 () (s.putFundGuard a (some fn)))) Q := by
  mvcgen [setFundGuardNode]

@[spec] theorem addFundGuardPool_spec (a : Address) (Q : PostCond Unit (ProcShape Address)) :
    Triple (addFundGuardPool a)
      (spred(fun s => Q.1 () (s.putFundGuard a (some ⟨.fundGuardNodeType, 0, .sixAddSix⟩)))) Q := by
  mvcgen [addFundGuardPool]

@[spec] theorem updateFundGuardMode_spec (fn : FundGuardNode) (a : Address) (mode : FundModeType)
    (height : UInt64) (Q : PostCond Unit (ProcShape Address)) :
    Triple (updateFundGuardMode fn a mode height)
      (spred(fun s => Q.1 () (s.putFundGuard a
        (some { fn with height := height, fundModeType := mode })))) Q := by
  mvcgen [updateFundGuardMode]

@[spec] theorem addFullStakeGuardPool_spec (a : Address) (Q : PostCond Unit (ProcShape Address)) :
    Triple (addFullStakeGuardPool a) (spred(fun s => Q.1 () (s.putFullStakeGuard a true))) Q := by
  mvcgen [addFullStakeGuardPool]

@[spec] theorem removeFullStakeGuardNodeFromPool_spec (a : Address)
    (Q : PostCond Unit (ProcShape Address)) :
    Triple (removeFullStakeGuardNodeFromPool a)
      (spred(fun s => Q.1 () (s.putFullStakeGuard a false))) Q := by
  mvcgen [removeFullStakeGuardNodeFromPool]

@[spec] theorem addTicket_spec (a : Address) (Q : PostCond UInt64 (ProcShape Address)) :
    Triple (addTicket a)
      (spred(fun s => Q.1 (s.tickets a + 1) (s.putTickets a (s.tickets a + 1)))) Q := by
  mvcgen [addTicket]

/-- `subTicket`'s count: one less, floored at zero. -/
def ticketsAfterSub (n : UInt64) : UInt64 := if n < 1 then 0 else n - 1

@[spec] theorem subTicket_spec (a : Address) (Q : PostCond UInt64 (ProcShape Address)) :
    Triple (subTicket a)
      (spred(fun s => Q.1 (ticketsAfterSub (s.tickets a))
        (s.putTickets a (ticketsAfterSub (s.tickets a))))) Q := by
  mvcgen [subTicket, ticketsAfterSub]

@[spec] theorem addBalance_spec (a : Address) (v : ℤ) (Q : PostCond Unit (ProcShape Address)) :
    Triple (addBalance a v) (spred(fun s => Q.1 () (s.putBalance a (s.balance a + v)))) Q := by
  mvcgen [addBalance]

@[spec] theorem subBalance_spec (a : Address) (v : ℤ) (Q : PostCond Unit (ProcShape Address)) :
    Triple (subBalance a v) (spred(fun s => Q.1 () (s.putBalance a (s.balance a - v)))) Q := by
  mvcgen [subBalance]

end Writes

/-! ## Field lemmas of the computed records -/

section Records

@[simp] theorem setPks_id (m : Miner Address) (pks : MinerPks) : (setPks m pks).id = m.id := by
  unfold setPks; split_ifs <;> rfl

@[simp] theorem setPks_type (m : Miner Address) (pks : MinerPks) :
    (setPks m pks).type = m.type := by
  unfold setPks; split_ifs <;> rfl

@[simp] theorem setPks_stake (m : Miner Address) (pks : MinerPks) :
    (setPks m pks).stake = m.stake := by
  unfold setPks; split_ifs <;> rfl

@[simp] theorem setPks_identity (m : Miner Address) (pks : MinerPks) :
    (setPks m pks).identity = m.identity := by
  unfold setPks; split_ifs <;> rfl

@[simp] theorem initMiner_id (op : StakeAddOp Address) : (initMiner op).id = op.addTarget := rfl

@[simp] theorem initMiner_type (op : StakeAddOp Address) :
    (initMiner op).type = op.minerType := rfl

@[simp] theorem initMiner_stake (op : StakeAddOp Address) : (initMiner op).stake = op.value := rfl

@[simp] theorem initMiner_status (op : StakeAddOp Address) :
    (initMiner op).status = .prepare := rfl

variable [DecidableEq Address]

@[simp] theorem stakeAddedMiner_type (op : StakeAddOp Address) (tm : Option (Miner Address)) :
    (stakeAddedMiner op tm).type = (tm.map Miner.type).getD op.minerType := by
  cases tm <;> unfold stakeAddedMiner <;> split_ifs <;> simp

@[simp] theorem stakeAddedMiner_stake (op : StakeAddOp Address) (tm : Option (Miner Address)) :
    (stakeAddedMiner op tm).stake = (tm.map Miner.stake).getD 0 + op.value := by
  cases tm <;> unfold stakeAddedMiner <;> split_ifs <;> simp

@[simp] theorem stakeAddedMiner_identity (op : StakeAddOp Address) (tm : Option (Miner Address)) :
    (stakeAddedMiner op tm).identity = (tm.map Miner.identity).getD .minerNormal := by
  cases tm <;> unfold stakeAddedMiner <;> split_ifs <;> simp [initMiner]

end Records

end Zvchain
