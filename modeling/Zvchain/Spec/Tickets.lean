import Zvchain.Spec.Stake
import Zvchain.System.Chain
import Zvchain.Lib.Tally

/-!
# Vote tickets over whole runs

A guard's vote is stored in its own account (`KeyVote`), the tickets of each target under
`MinerPoolTicketsAddr`; `processVote`, `reduceTicketsOp` and `guardNodeExpired` move both.  The
empty address stands for "no vote": a vote that leaves it takes no ticket from it, and one for it
is counted like any other.  What the ticket bookkeeping reads of a state is the counter of each
target and the target of each vote (`State.ballot`).

First the effect of every entry point of `Zvchain.Step` on these two: a vote moves one ballot
(`votedTickets`), a guard expiry withdraws ballots one at a time (`withdrawnTickets`), and every
other operation leaves both as they were.  Then the invariant `TicketsCount`: the counter of every
target other than the empty address is the number of its voters, read through the tally of
`Lib/Tally`.  A counter is a `uint64`, and only a run of fewer than `2^64` steps can be sure that
no counter wrapped, so the invariant carries the number of steps as a bound on the number of
voters (`ticketsCount_of_reachableIn`).
-/

set_option mvcgen.warning false

namespace Zvchain

open Std.Do

variable {Address : Type}

/-- The target of each stored vote. -/
def State.ballot (s : State Address) : Address → Option Address :=
  fun g => (s.vote g).map VoteInfo.target

@[simp] theorem State.ballot_apply (s : State Address) (g : Address) :
    s.ballot g = (s.vote g).map VoteInfo.target := rfl

variable [DecidableEq Address]

/-- The vote targets after the vote of `g` is replaced by one for `x`. -/
theorem ballot_of_vote_eq_update {s s' : State Address} {g x : Address} {height : UInt64}
    (h : s'.vote = Function.update s.vote g (some ⟨x, height⟩)) :
    s'.ballot = Function.update s.ballot g (some x) := by
  funext a
  by_cases ha : a = g
  · subst ha
    simp [h]
  · simp [h, ha]

theorem ballot_of_vote_eq_update_none {s s' : State Address} {g : Address}
    (h : s'.vote = Function.update s.vote g none) :
    s'.ballot = Function.update s.ballot g none := by
  funext a
  by_cases ha : a = g
  · subst ha
    simp [h]
  · simp [h, ha]

variable [Zero Address]

/-! ## What the vote paths do to the counters -/

/-- The counters after the vote of a voter whose target was `old` is withdrawn: the target
loses a ticket as `subTicket` takes it, unless it is the empty address. -/
def withdrawnTickets (old : Address) (tickets : Address → UInt64) : Address → UInt64 :=
  if old ≠ 0 then Function.update tickets old (ticketsAfterSub (tickets old)) else tickets

/-- The counters after `processVote` moves a vote from `old` to `target`: nothing changes for a
renewed vote for the same non-empty target; otherwise the old vote is withdrawn and the new
target gains a ticket. -/
def votedTickets (old target : Address) (tickets : Address → UInt64) : Address → UInt64 :=
  if old = target ∧ old ≠ 0 then tickets
  else Function.update (withdrawnTickets old tickets) target (withdrawnTickets old tickets target + 1)

omit [DecidableEq Address] [Zero Address] in
/-- `afterTicketReduce` downgrades a miner pool; it touches no counter and no vote. -/
theorem afterTicketReduce_frame [DecidableEq Address] (b : IdentityOp)
    (op : ReduceTicketsOp Address) (m : Option (Miner Address)) (total : UInt64)
    (s0 : State Address) :
    ⦃fun s => ⌜s = s0⌝⦄ b.afterTicketReduce op m total
    ⦃post⟨fun _ s => ⌜s.tickets = s0.tickets ∧ s.vote = s0.vote⌝,
      fun _ s => ⌜s.tickets = s0.tickets ∧ s.vote = s0.vote⌝⟩⦄ := by
  cases b <;> mvcgen [IdentityOp.afterTicketReduce, removeFromPool] <;> simp_all +zetaDelta

omit [Zero Address] in
/-- A nested `reduceTicketsOp` takes one ticket from its target, whether or not the downgrade
that follows fails: the error only goes into the result. -/
theorem reduceTickets_spec (target : Address) (height : UInt64) (s0 : State Address) :
    ⦃fun s => ⌜s = s0⌝⦄ reduceTickets target height
    ⦃post⟨fun _ s => ⌜s.tickets = Function.update s0.tickets target
          (ticketsAfterSub (s0.tickets target)) ∧ s.vote = s0.vote⌝,
      fun _ _ => ⌜True⌝⟩⦄ := by
  have hafter := @afterTicketReduce_frame Address _
  mvcgen [reduceTickets, ReduceTicketsOp.Transition, toResult, IdentityOp.processReduceTicket,
    hafter]
  all_goals (clear hafter; simp_all [EStateM.Backtrackable.restore, EStateM.dummyRestore])

theorem processVote_spec (op : VoteMinerPoolOp Address) (vf : Option (VoteInfo Address))
    (s0 : State Address) :
    ⦃fun s => ⌜s = s0⌝⦄ processVote op vf
    ⦃post⟨fun _ s => ⌜s.vote = Function.update s0.vote op.source (some ⟨op.targetAddr, op.height⟩) ∧
        s.tickets = votedTickets ((vf.map VoteInfo.target).getD 0) op.targetAddr s0.tickets⌝,
      fun _ _ => ⌜True⌝⟩⦄ := by
  have hreduce := fun (target : Address) => reduceTickets_spec target
  cases vf <;> mvcgen [processVote, hreduce]
  all_goals (subst_vars; simp_all +zetaDelta [votedTickets, withdrawnTickets])
  -- the branch that keeps the counters: the vote stays with a non-empty target
  rename_i h
  exact fun hx => h.2 (h.1.trans hx)

omit [DecidableEq Address] [Zero Address] in
theorem checkVote_spec (op : VoteMinerPoolOp Address) (vf : Option (VoteInfo Address))
    (s0 : State Address) :
    ⦃fun s => ⌜s = s0⌝⦄ checkVote op vf ⦃post⟨fun _ s => ⌜s = s0⌝, fun _ _ => ⌜True⌝⟩⦄ := by
  mvcgen [checkVote]

omit [Zero Address] in
theorem afterTicketsFull_frame (op : VoteMinerPoolOp Address) (tm : Option (Miner Address))
    (b : IdentityOp) (s0 : State Address) :
    ⦃fun s => ⌜s = s0⌝⦄ b.afterTicketsFull op tm
    ⦃post⟨fun _ s => ⌜s.tickets = s0.tickets ∧ s.vote = s0.vote⌝, fun _ _ => ⌜True⌝⟩⦄ := by
  cases b <;> mvcgen [IdentityOp.afterTicketsFull] <;> simp_all

theorem identityProcessVote_spec (b : IdentityOp) (op : VoteMinerPoolOp Address)
    (tm : Option (Miner Address)) (s0 : State Address) :
    ⦃fun s => ⌜s = s0⌝⦄ b.processVote op tm
    ⦃post⟨fun _ s => ⌜s.vote = Function.update s0.vote op.source (some ⟨op.targetAddr, op.height⟩) ∧
        s.tickets = votedTickets ((s0.ballot op.source).getD 0) op.targetAddr s0.tickets⌝,
      fun _ _ => ⌜True⌝⟩⦄ := by
  have hcheck := fun (op : VoteMinerPoolOp Address) => checkVote_spec op
  have hvote := fun (op : VoteMinerPoolOp Address) => processVote_spec op
  have hfull := fun (op : VoteMinerPoolOp Address) => afterTicketsFull_frame op
  cases b <;> mvcgen [IdentityOp.processVote, hcheck, hvote, hfull]
  all_goals (subst_vars; simp_all)

/-- A vote that succeeds moves the voter's ballot to the target. -/
theorem voteTransition_spec (op : VoteMinerPoolOp Address) (s0 : State Address) :
    ⦃fun s => ⌜s = s0⌝⦄ op.Transition
    ⦃post⟨fun r s => ⌜r.err = none →
        s.vote = Function.update s0.vote op.source (some ⟨op.targetAddr, op.height⟩) ∧
        s.tickets = votedTickets ((s0.ballot op.source).getD 0) op.targetAddr s0.tickets⌝,
      fun _ _ => ⌜True⌝⟩⦄ := by
  have hprocess := fun (b : IdentityOp) (op : VoteMinerPoolOp Address) => identityProcessVote_spec b op
  mvcgen [VoteMinerPoolOp.Transition, toResult, hprocess]
  all_goals (subst_vars; simp_all [newResult])

/-! ## Operations that leave the ballots alone -/

omit [Zero Address] in
theorem afterBecomeFullGuardNode_frame (k : DetailKey Address) (d : StakeDetail) (a : Address)
    (height : UInt64) (b : IdentityOp) (s0 : State Address) :
    ⦃fun s => ⌜s = s0⌝⦄ b.afterBecomeFullGuardNode k d a height
    ⦃post⟨fun _ s => ⌜s.tickets = s0.tickets ∧ s.vote = s0.vote ∧ s.miner = s0.miner⌝,
      fun _ _ => ⌜True⌝⟩⦄ := by
  cases b <;> mvcgen [IdentityOp.afterBecomeFullGuardNode, updateFundGuardPoolStatus] <;> simp_all

omit [DecidableEq Address] [Zero Address] in
theorem checkApplyGuard_spec (op : ApplyGuardMinerOp Address) (m : Option (Miner Address))
    (d : Option StakeDetail) (s0 : State Address) :
    ⦃fun s => ⌜s = s0⌝⦄ IdentityOp.checkApplyGuard op m d
    ⦃post⟨fun _ s => ⌜s = s0⌝, fun _ _ => ⌜True⌝⟩⦄ := by
  mvcgen [IdentityOp.checkApplyGuard]

omit [Zero Address] in
/-- A guard application rewrites the height of the guard's vote, never its target. -/
theorem applyGuardTransition_spec (op : ApplyGuardMinerOp Address) (s0 : State Address) :
    ⦃fun s => ⌜s = s0⌝⦄ op.Transition
    ⦃post⟨fun r s => ⌜r.err = none → s.tickets = s0.tickets ∧ s.ballot = s0.ballot⌝,
      fun _ _ => ⌜True⌝⟩⦄ := by
  have hcheck := fun (op : ApplyGuardMinerOp Address) => checkApplyGuard_spec op
  have hfull := fun (k : DetailKey Address) => afterBecomeFullGuardNode_frame k
  mvcgen [ApplyGuardMinerOp.Transition, toResult, IdentityOp.processApplyGuard, hcheck, hfull]
  all_goals (subst_vars; simp_all [newResult])
  -- what is left is the vote whose height the guard application rewrites: its target stays
  all_goals (funext g; by_cases hg : g = op.targetAddr <;> simp_all)

omit [Zero Address] in
theorem changeFundGuardModeTransition_spec (op : ChangeFundGuardMode Address)
    (s0 : State Address) :
    ⦃fun s => ⌜s = s0⌝⦄ op.Transition
    ⦃post⟨fun r s => ⌜r.err = none →
        s.tickets = s0.tickets ∧ s.vote = s0.vote ∧ s.miner = s0.miner⌝,
      fun _ _ => ⌜True⌝⟩⦄ := by
  mvcgen [ChangeFundGuardMode.Transition, toResult, processChangeFundGuardMode]
  all_goals simp_all [newResult]

/-- One round of the penalty loop keeps the counters and the votes. -/
theorem penalizeTarget_frame (value height : UInt64) (addr : Address)
    (t0 : Address → UInt64) (v0 : Address → Option (VoteInfo Address)) :
    ⦃fun s => ⌜s.tickets = t0 ∧ s.vote = v0⌝⦄ penalizeTarget value height addr
    ⦃post⟨fun _ s => ⌜s.tickets = t0 ∧ s.vote = v0⌝, fun _ _ => ⌜True⌝⟩⦄ := by
  have hspec := @penalizeTarget_spec Address _ _
  mvcgen [hspec]
  rintro ⟨m, -, hp⟩
  rw [hp.tickets, hp.vote]
  assumption

theorem minerPenaltyTransition_frame (op : MinerPenaltyOp Address)
    (t0 : Address → UInt64) (v0 : Address → Option (VoteInfo Address)) :
    ⦃fun s => ⌜s.tickets = t0 ∧ s.vote = v0⌝⦄ MinerPenaltyOp.Transition op
    ⦃post⟨fun r s => ⌜r.err = none → s.tickets = t0 ∧ s.vote = v0⌝, fun _ _ => ⌜True⌝⟩⦄ := by
  have hloop := fun g : Address → Proc Address PUnit => StateProc.forM_spec (g := g)
    (I := fun s : State Address => s.tickets = t0 ∧ s.vote = v0) (E := fun _ _ => True)
  have hpenalize := fun (value height : UInt64) (addr : Address) => penalizeTarget_frame value height addr
  mvcgen [MinerPenaltyOp.Transition, toResult, hloop, hpenalize]
  all_goals simp_all [newResult]

/-! ## The guard expiry -/

omit [Zero Address] in
theorem checkFullStakeGuardNodeExpired_frame (a : Address) (height : UInt64)
    (t0 : Address → UInt64) (v0 : Address → Option (VoteInfo Address))
    (m0 : Address → MinerType → Option (Miner Address)) :
    ⦃fun s => ⌜s.tickets = t0 ∧ s.vote = v0 ∧ s.miner = m0⌝⦄ checkFullStakeGuardNodeExpired a height
    ⦃post⟨fun _ s => ⌜s.tickets = t0 ∧ s.vote = v0 ∧ s.miner = m0⌝, fun _ _ => ⌜True⌝⟩⦄ := by
  mvcgen -trivial [checkFullStakeGuardNodeExpired] <;> simp_all

omit [Zero Address] in
theorem collectExpiredFullStakeGuards_frame (height : UInt64) (t0 : Address → UInt64)
    (v0 : Address → Option (VoteInfo Address))
    (m0 : Address → MinerType → Option (Miner Address)) : ∀ xs : List Address,
    ⦃fun s => ⌜s.tickets = t0 ∧ s.vote = v0 ∧ s.miner = m0⌝⦄ collectExpiredFullStakeGuards height xs
    ⦃post⟨fun _ s => ⌜s.tickets = t0 ∧ s.vote = v0 ∧ s.miner = m0⌝, fun _ _ => ⌜True⌝⟩⦄
  | [] => by mvcgen [collectExpiredFullStakeGuards]
  | a :: rest => by
    have ih := collectExpiredFullStakeGuards_frame height t0 v0 m0 rest
    have hcheck := checkFullStakeGuardNodeExpired_frame a height
    mvcgen [collectExpiredFullStakeGuards, hcheck, ih] <;> simp_all

omit [Zero Address] in
theorem fullStakeGuardNodesCheck_frame (order : List Address) (height : UInt64)
    (t0 : Address → UInt64) (v0 : Address → Option (VoteInfo Address))
    (m0 : Address → MinerType → Option (Miner Address)) :
    ⦃fun s => ⌜s.tickets = t0 ∧ s.vote = v0 ∧ s.miner = m0⌝⦄ FullStakeGuardNodesCheck order height
    ⦃post⟨fun _ s => ⌜s.tickets = t0 ∧ s.vote = v0 ∧ s.miner = m0⌝, fun _ _ => ⌜True⌝⟩⦄ := by
  have hcollect := collectExpiredFullStakeGuards_frame height t0 v0 m0
  mvcgen [FullStakeGuardNodesCheck, GetAllFullStakeGuardNodes, hcollect]

omit [Zero Address] in
theorem expireFundGuards_frame (mode : FundModeType) (height : UInt64) (t0 : Address → UInt64)
    (v0 : Address → Option (VoteInfo Address))
    (m0 : Address → MinerType → Option (Miner Address)) : ∀ fds : List (Address × FundGuardNode),
    ⦃fun s => ⌜s.tickets = t0 ∧ s.vote = v0 ∧ s.miner = m0⌝⦄ expireFundGuards mode height fds
    ⦃post⟨fun _ s => ⌜s.tickets = t0 ∧ s.vote = v0 ∧ s.miner = m0⌝, fun _ _ => ⌜True⌝⟩⦄
  | [] => by mvcgen [expireFundGuards]
  | (a, fd) :: rest => by
    have ih := expireFundGuards_frame mode height t0 v0 m0 rest
    mvcgen [expireFundGuards, updateFundGuardPoolStatus, ih]

omit [Zero Address] in
theorem fundGuardExpiredCheck_frame (order : List Address) (height : UInt64)
    (t0 : Address → UInt64) (v0 : Address → Option (VoteInfo Address))
    (m0 : Address → MinerType → Option (Miner Address)) :
    ⦃fun s => ⌜s.tickets = t0 ∧ s.vote = v0 ∧ s.miner = m0⌝⦄ FundGuardExpiredCheck order height
    ⦃post⟨fun _ s => ⌜s.tickets = t0 ∧ s.vote = v0 ∧ s.miner = m0⌝, fun _ _ => ⌜True⌝⟩⦄ := by
  have hexpire := @expireFundGuards_frame Address _
  mvcgen [FundGuardExpiredCheck, fundGuardSixAddFiveNodesCheck, fundGuardSixAddSixNodesCheck,
    fundGuardNodesCheck, GetAllFundStakeGuardNodes, hexpire] <;> (clear hexpire; simp_all)

/-- An expiring guard's vote is withdrawn, whatever the expiry returns: a failed downgrade of the
target only goes into the returned error. -/
theorem guardNodeExpired_spec (a : Address) (height : UInt64) (isFundGuardNode : Bool)
    (s0 : State Address) :
    ⦃fun s => ⌜s = s0⌝⦄ guardNodeExpired a height isFundGuardNode
    ⦃post⟨fun _ s => ⌜(s.tickets = s0.tickets ∧ s.vote = s0.vote) ∨
        (s.vote = Function.update s0.vote a none ∧
          s.tickets = withdrawnTickets ((s0.ballot a).getD 0) s0.tickets)⌝,
      fun _ _ => ⌜True⌝⟩⦄ := by
  have hreduce := fun (target : Address) => reduceTickets_spec target
  mvcgen [guardNodeExpired, hreduce]
  -- no miner or no vote: nothing moves; a vote: it is withdrawn
  all_goals (subst_vars; first
    | (left; simp_all; done)
    | (right; simp_all [withdrawnTickets]))

/-! ## What each step does to the ballots -/

/-- What a step other than the guard expiry does to the counters and the vote targets: nothing,
or one vote moved. -/
def BallotEffect (s s' : State Address) : Prop :=
  (s'.tickets = s.tickets ∧ s'.ballot = s.ballot) ∨
  ∃ g x, s'.ballot = Function.update s.ballot g (some x) ∧
    s'.tickets = votedTickets ((s.ballot g).getD 0) x s.tickets

theorem ballotEffect_of_frame {s s' : State Address} (ht : s'.tickets = s.tickets)
    (hv : s'.vote = s.vote) : BallotEffect s s' :=
  Or.inl ⟨ht, funext fun g => by simp [hv]⟩

omit [DecidableEq Address] [Zero Address] in
/-- `executeOperation` reverts what a failed operation did: a property of the state before that
every successful run establishes holds after every run. -/
theorem executeOperation_spec {t : Proc Address Result} {Q : State Address → Prop}
    (s0 : State Address) (hQ : Q s0)
    (ht : ⦃fun s => ⌜s = s0⌝⦄ t ⦃post⟨fun r s => ⌜r.err = none → Q s⌝, fun _ _ => ⌜True⌝⟩⦄) :
    ⦃fun s => ⌜s = s0⌝⦄ executeOperation t ⦃post⟨fun _ s => ⌜Q s⌝, fun _ _ => ⌜True⌝⟩⦄ := by
  mvcgen [executeOperation, ht] <;> simp_all

theorem executeOperation_ballots (env : MinerEnv Address) (op : MinerOp Address)
    (s0 : State Address) :
    ⦃fun s => ⌜s = s0⌝⦄ ExecuteOperation env op
    ⦃post⟨fun _ s => ⌜BallotEffect s0 s⌝, fun _ _ => ⌜True⌝⟩⦄ := by
  apply executeOperation_spec s0 (ballotEffect_of_frame rfl rfl)
  cases op with
  | stakeAdd op =>
    have hspec := @stakeAddTransition_spec Address _
    mvcgen [MinerOp.Transition, hspec]
    rintro h herr
    subst_vars
    exact ballotEffect_of_frame (h herr).1.tickets (h herr).1.vote
  | minerAbort op =>
    have hspec := @minerAbortTransition_spec Address _
    mvcgen [MinerOp.Transition, hspec]
    rintro h herr
    subst_vars
    obtain ⟨m, -, hm⟩ := h herr
    exact ballotEffect_of_frame hm.tickets hm.vote
  | stakeReduce op =>
    have hspec := @stakeReduceTransition_spec Address _
    mvcgen [MinerOp.Transition, hspec]
    rintro h herr
    subst_vars
    obtain ⟨m, -, hm⟩ := h herr
    exact ballotEffect_of_frame hm.tickets hm.vote
  | stakeRefund op =>
    have hspec := @stakeRefundTransition_spec Address _
    mvcgen [MinerOp.Transition, hspec]
    rintro h - herr
    subst_vars
    exact ballotEffect_of_frame (h herr).tickets (h herr).vote
  | voteMinerPool op =>
    have hvote := voteTransition_spec op
    mvcgen [MinerOp.Transition, hvote]
    rintro h herr
    subst_vars
    exact Or.inr ⟨op.source, op.targetAddr, ballot_of_vote_eq_update (h herr).1, (h herr).2⟩
  | applyGuardMiner op =>
    have hguard := applyGuardTransition_spec op
    mvcgen [MinerOp.Transition, hguard]
    rintro h herr
    subst_vars
    exact Or.inl (h herr)
  | changeFundGuardMode op =>
    have hmode := changeFundGuardModeTransition_spec op
    mvcgen [MinerOp.Transition, hmode]
    rintro h herr
    subst_vars
    exact ballotEffect_of_frame (h herr).1 (h herr).2.1

theorem minerFrozen_ballots (addr : Address) (height : UInt64) (s0 : State Address) :
    ⦃fun s => ⌜s = s0⌝⦄ MinerFrozen addr height
    ⦃post⟨fun _ s => ⌜BallotEffect s0 s⌝, fun _ _ => ⌜True⌝⟩⦄ := by
  apply executeOperation_spec s0 (ballotEffect_of_frame rfl rfl)
  have hspec := @minerFreezeTransition_spec Address _
  mvcgen [hspec]
  rintro h - herr
  subst_vars
  obtain ⟨m, -, hm⟩ := h herr
  exact ballotEffect_of_frame hm.tickets hm.vote

theorem minerPenalty_ballots (msg : PunishmentMsg Address) (height : UInt64)
    (s0 : State Address) :
    ⦃fun s => ⌜s = s0⌝⦄ MinerPenalty msg height
    ⦃post⟨fun _ s => ⌜BallotEffect s0 s⌝, fun _ _ => ⌜True⌝⟩⦄ := by
  apply executeOperation_spec s0 (ballotEffect_of_frame rfl rfl)
  have hframe := minerPenaltyTransition_frame
    { targets := msg.penaltyTarget, rewards := msg.rewardTarget, value := minimumStake,
      height := height } s0.tickets s0.vote
  mvcgen [hframe]
  case vc1.pre =>
    subst_vars
    exact ⟨rfl, rfl⟩
  rintro h herr
  exact ballotEffect_of_frame (h herr).1 (h herr).2

/-! ## The invariant -/

/-- `subTicket`'s count in `ℕ`: one less, floored at zero. -/
theorem toNat_ticketsAfterSub (x : UInt64) : (ticketsAfterSub x).toNat = x.toNat - 1 := by
  unfold ticketsAfterSub
  split_ifs with h
  · rw [Word64.lt_iff] at h
    simp only [UInt64.toNat_zero, UInt64.toNat_one] at h ⊢
    omega
  · rw [Word64.toNat_sub_of_not_lt h, UInt64.toNat_one]

/-- After `n` steps: the counter of every target other than the empty address is the number of
its voters, and at most `n` addresses hold a vote. -/
structure TicketsCount (n : ℕ) (tickets : Address → UInt64) (ballot : Address → Option Address) :
    Prop where
  counts : Tally.Counts (· ≠ (0 : Address)) (fun t => (tickets t).toNat) ballot
  holders_le : (Tally.holders ballot).ncard ≤ n

section Count

variable {n : ℕ} {tickets : Address → UInt64} {ballot : Address → Option Address}

omit [DecidableEq Address] in
theorem TicketsCount.mono (h : TicketsCount n tickets ballot) {m : ℕ} (hnm : n ≤ m) :
    TicketsCount m tickets ballot :=
  ⟨h.counts, h.holders_le.trans hnm⟩

/-- Withdrawing the vote of `g`, whatever it is: the counter of its target, if not the empty
address, falls by one. -/
theorem TicketsCount.withdraw (h : TicketsCount n tickets ballot) (g : Address) :
    TicketsCount n (withdrawnTickets ((ballot g).getD 0) tickets) (Function.update ballot g none) := by
  cases hg : ballot g with
  | none =>
    have hb : Function.update ballot g none = ballot := by rw [← hg, Function.update_eq_self]
    simpa [withdrawnTickets, hb] using h
  | some o =>
    refine ⟨(h.counts.withdraw hg).congr fun t ht => ?_,
      (Tally.ncard_holders_update_none_le h.counts.finite).trans h.holders_le⟩
    by_cases hto : t = o
    · subst hto
      simp [withdrawnTickets, ht, toNat_ticketsAfterSub]
    · by_cases ho : o = 0 <;> simp [withdrawnTickets, ho, hto, ht]

/-- A vote cast by an address that holds none: its target gains a ticket, which cannot wrap while
fewer than `2^64 - 1` addresses vote. -/
theorem TicketsCount.cast (h : TicketsCount n tickets ballot) {g : Address} (hg : ballot g = none)
    (hn : n + 1 < 2 ^ 64) (x : Address) :
    TicketsCount (n + 1) (Function.update tickets x (tickets x + 1))
      (Function.update ballot g (some x)) := by
  have hle := h.holders_le
  refine ⟨(h.counts.cast x hg).congr fun t ht => ?_,
    (Tally.ncard_holders_update_some_le x).trans (by omega)⟩
  by_cases htx : t = x
  · subst htx
    have hcount : (tickets t).toNat ≤ n := (h.counts.count_le ht).trans hle
    rw [Function.update_self, Function.update_self,
      Word64.toNat_add_of_lt (by rw [UInt64.toNat_one]; omega), UInt64.toNat_one]
  · simp [Function.update_of_ne htx]

/-- A vote of `g` for `x`, as `processVote` counts it. -/
theorem TicketsCount.vote (h : TicketsCount n tickets ballot) (hn : n + 1 < 2 ^ 64) (g x : Address) :
    TicketsCount (n + 1) (votedTickets ((ballot g).getD 0) x tickets)
      (Function.update ballot g (some x)) := by
  by_cases hkeep : ballot g = some x ∧ x ≠ 0
  · -- a renewed vote for the same target keeps every counter
    obtain ⟨hgx, hx⟩ := hkeep
    have hv : votedTickets ((ballot g).getD 0) x tickets = tickets := by
      simp [votedTickets, hgx, hx]
    rw [hv, ← hgx, Function.update_eq_self]
    exact h.mono n.le_succ
  · have hmove : ¬((ballot g).getD 0 = x ∧ (ballot g).getD 0 ≠ 0) := by
      rintro ⟨hox, ho⟩
      apply hkeep
      cases hb : ballot g with
      | none => simp [hb] at ho
      | some o =>
        rw [hb, Option.getD_some] at hox ho
        exact ⟨by rw [hox], hox ▸ ho⟩
    have hb : Function.update ballot g (some x) =
        Function.update (Function.update ballot g none) g (some x) :=
      (Function.update_idem ..).symm
    rw [votedTickets, if_neg hmove, hb]
    exact (h.withdraw g).cast (Function.update_self g none ballot) hn x

omit [DecidableEq Address] in
theorem TicketsCount.of_frame {s s' : State Address} (h : TicketsCount n s.tickets s.ballot)
    (hf : s'.tickets = s.tickets ∧ s'.vote = s.vote) : TicketsCount n s'.tickets s'.ballot := by
  rw [hf.1, show s'.ballot = s.ballot from funext fun g => by simp [hf.2]]
  exact h

omit [DecidableEq Address] in
/-- A procedure that keeps the counters, the votes and the miner records keeps the count. -/
theorem ticketsCount_of_frame {α : Type} {x : Proc Address α}
    (hx : ∀ t0 v0 m0, ⦃fun s => ⌜s.tickets = t0 ∧ s.vote = v0 ∧ s.miner = m0⌝⦄ x
      ⦃post⟨fun _ s => ⌜s.tickets = t0 ∧ s.vote = v0 ∧ s.miner = m0⌝, fun _ _ => ⌜True⌝⟩⦄)
    (n : ℕ) :
    ⦃fun s => ⌜TicketsCount n s.tickets s.ballot⌝⦄ x
    ⦃post⟨fun _ s => ⌜TicketsCount n s.tickets s.ballot⌝, fun _ _ => ⌜True⌝⟩⦄ := by
  mvcgen [hx]
  rename_i s h _ s'
  intro ht hv _
  exact h.of_frame ⟨ht, hv⟩

theorem TicketsCount.of_ballotEffect {s s' : State Address} (h : TicketsCount n s.tickets s.ballot)
    (he : BallotEffect s s') (hn : n + 1 < 2 ^ 64) : TicketsCount (n + 1) s'.tickets s'.ballot := by
  rcases he with ⟨ht, hb⟩ | ⟨g, x, hb, ht⟩
  · rw [ht, hb]
    exact h.mono n.le_succ
  · rw [ht, hb]
    exact h.vote hn g x

end Count

/-! ## The guard expiry keeps the count -/

theorem guardNodeExpired_ticketsCount (a : Address) (height : UInt64) (isFundGuardNode : Bool)
    (n : ℕ) :
    ⦃fun s => ⌜TicketsCount n s.tickets s.ballot⌝⦄ guardNodeExpired a height isFundGuardNode
    ⦃post⟨fun _ s => ⌜TicketsCount n s.tickets s.ballot⌝, fun _ _ => ⌜True⌝⟩⦄ := by
  have hexpired := guardNodeExpired_spec a height isFundGuardNode
  mvcgen [hexpired]
  rename_i s0 h _ s
  rintro (hf | ⟨hv, ht⟩)
  · exact h.of_frame hf
  · rw [ht, ballot_of_vote_eq_update_none hv]
    exact h.withdraw a

theorem processGuardNodeExpired_ticketsCount (a : Address) (height : UInt64) (n : ℕ) :
    ⦃fun s => ⌜TicketsCount n s.tickets s.ballot⌝⦄ processGuardNodeExpired a height
    ⦃post⟨fun _ s => ⌜TicketsCount n s.tickets s.ballot⌝, fun _ _ => ⌜True⌝⟩⦄ := by
  have hexpired := fun (a : Address) => guardNodeExpired_ticketsCount a height
  mvcgen [processGuardNodeExpired, hexpired]

omit [DecidableEq Address] [Zero Address] in
/-- Expiring guards one after another keeps what each expiry keeps. -/
theorem expireGuards_spec {I : State Address → Prop} (expire : Address → Proc Address (Option String))
    (hexp : ∀ a, ⦃fun s => ⌜I s⌝⦄ expire a ⦃post⟨fun _ s => ⌜I s⌝, fun _ _ => ⌜True⌝⟩⦄) :
    ∀ xs, ⦃fun s => ⌜I s⌝⦄ expireGuards expire xs ⦃post⟨fun _ s => ⌜I s⌝, fun _ _ => ⌜True⌝⟩⦄
  | [] => by mvcgen [expireGuards]
  | a :: rest => by
    have ha := hexp a
    have ih := expireGuards_spec expire hexp rest
    mvcgen [expireGuards, ha, ih]

theorem guardNodesCheck_ticketsCount (order : List Address) (height : UInt64) (n : ℕ) :
    ⦃fun s => ⌜TicketsCount n s.tickets s.ballot⌝⦄ GuardNodesCheck order height
    ⦃post⟨fun _ s => ⌜TicketsCount n s.tickets s.ballot⌝, fun _ _ => ⌜True⌝⟩⦄ := by
  have hfull := expireGuards_spec (fun a : Address => processGuardNodeExpired a height)
    fun a => processGuardNodeExpired_ticketsCount a height n
  have hfund := expireGuards_spec (fun a : Address => guardNodeExpired a height true)
    fun a => guardNodeExpired_ticketsCount a height true n
  have hcheck := ticketsCount_of_frame (fullStakeGuardNodesCheck_frame order height) n
  have hfundCheck := ticketsCount_of_frame (fundGuardExpiredCheck_frame order height) n
  mvcgen [GuardNodesCheck, hcheck, hfundCheck, hfull, hfund]

/-! ## Genesis -/

theorem stakeAdd_frame (env : MinerEnv Address) (op : StakeAddOp Address) (s0 : State Address) :
    ⦃fun s => ⌜s = s0⌝⦄ ExecuteOperation env (.stakeAdd op)
    ⦃post⟨fun _ s => ⌜s.tickets = s0.tickets ∧ s.vote = s0.vote⌝, fun _ _ => ⌜True⌝⟩⦄ := by
  apply executeOperation_spec s0 ⟨rfl, rfl⟩
  have hspec := @stakeAddTransition_spec Address _
  mvcgen [MinerOp.Transition, hspec]
  rintro h herr
  subst_vars
  exact ⟨(h herr).1.tickets, (h herr).1.vote⟩

omit [Zero Address] in
theorem setupGenesisStateDB_frame (info : GenesisInfo Address) (t0 : Address → UInt64)
    (v0 : Address → Option (VoteInfo Address)) :
    ⦃fun s => ⌜s.tickets = t0 ∧ s.vote = v0⌝⦄ setupGenesisStateDB info
    ⦃post⟨fun _ s => ⌜s.tickets = t0 ∧ s.vote = v0⌝, fun _ _ => ⌜True⌝⟩⦄ := by
  have hloop := fun g : GenesisMember Address → Proc Address PUnit => StateProc.forM_spec (g := g)
    (I := fun s : State Address => s.tickets = t0 ∧ s.vote = v0) (E := fun _ _ => True)
  mvcgen [setupGenesisStateDB, hloop]

theorem addGenesesMiners_frame (env : MinerEnv Address) (members : List (GenesisMember Address))
    (t0 : Address → UInt64) (v0 : Address → Option (VoteInfo Address)) :
    ⦃fun s => ⌜s.tickets = t0 ∧ s.vote = v0⌝⦄ addGenesesMiners env members
    ⦃post⟨fun _ s => ⌜s.tickets = t0 ∧ s.vote = v0⌝, fun _ _ => ⌜True⌝⟩⦄ := by
  have hloop := fun g : GenesisMember Address → Proc Address PUnit => StateProc.forM_spec (g := g)
    (I := fun s : State Address => s.tickets = t0 ∧ s.vote = v0) (E := fun _ _ => True)
  have hstake := stakeAdd_frame env
  mvcgen [addGenesesMiners, addGenesisMinerStake, hstake, hloop]
  all_goals simp_all +zetaDelta

omit [Zero Address] in
theorem genFundGuardNodes_frame (guards : List Address) (t0 : Address → UInt64)
    (v0 : Address → Option (VoteInfo Address)) :
    ⦃fun s => ⌜s.tickets = t0 ∧ s.vote = v0⌝⦄ genFundGuardNodes guards
    ⦃post⟨fun _ s => ⌜s.tickets = t0 ∧ s.vote = v0⌝, fun _ _ => ⌜True⌝⟩⦄ := by
  have hloop := fun g : Address → Proc Address PUnit => StateProc.forM_spec (g := g)
    (I := fun s : State Address => s.tickets = t0 ∧ s.vote = v0) (E := fun _ _ => True)
  mvcgen [genFundGuardNodes, hloop]

theorem insertGenesisBlock_frame (env : MinerEnv Address) (info : GenesisInfo Address)
    (t0 : Address → UInt64) (v0 : Address → Option (VoteInfo Address)) :
    ⦃fun s => ⌜s.tickets = t0 ∧ s.vote = v0⌝⦄ insertGenesisBlock env info
    ⦃post⟨fun _ s => ⌜s.tickets = t0 ∧ s.vote = v0⌝, fun _ _ => ⌜True⌝⟩⦄ := by
  have hsetup := fun (info : GenesisInfo Address) => setupGenesisStateDB_frame info
  have hminers := addGenesesMiners_frame env
  have hguards := fun (guards : List Address) => genFundGuardNodes_frame guards
  mvcgen [insertGenesisBlock, hsetup, hminers, hguards]
  simp_all

/-- The genesis block leaves no vote and no ticket. -/
theorem ticketsCount_init {s : State Address} (h : Init s) : TicketsCount 0 s.tickets s.ballot := by
  obtain ⟨env, info, -, hrun⟩ := h
  have hf := StateProc.ok_of_triple (insertGenesisBlock_frame env info State.empty.tickets
    State.empty.vote) ⟨rfl, rfl⟩ hrun
  have hb : s.ballot = fun _ => none := funext fun g => by simp [hf.2, State.empty]
  rw [hf.1, hb]
  refine ⟨(Tally.counts_none _).congr fun t _ => ?_, by simp [Tally.holders]⟩
  rfl

/-! ## Whole runs -/

/-- One step keeps the count, one more vote at most. -/
theorem TicketsCount.step {n : ℕ} {s s' : State Address} (h : TicketsCount n s.tickets s.ballot)
    (hst : Step s s') (hn : n + 1 < 2 ^ 64) : TicketsCount (n + 1) s'.tickets s'.ballot := by
  cases hst with
  | executeOperation env op _ hrun =>
    exact h.of_ballotEffect (StateProc.ok_of_triple (executeOperation_ballots env op s) rfl hrun) hn
  | minerFrozen addr height hrun =>
    exact h.of_ballotEffect (StateProc.ok_of_triple (minerFrozen_ballots addr height s) rfl hrun) hn
  | minerPenalty msg height hrun =>
    exact h.of_ballotEffect (StateProc.ok_of_triple (minerPenalty_ballots msg height s) rfl hrun) hn
  | guardNodesCheck order height hrun =>
    exact (StateProc.ok_of_triple (guardNodesCheck_ticketsCount order height n) h hrun).mono
      n.le_succ

/-- The run lemma: a state reached in fewer than `2^64` steps keeps the count. -/
theorem ticketsCount_of_reachableIn {n : ℕ} {s : State Address} (h : ReachableIn n s)
    (hn : n < 2 ^ 64) : TicketsCount n s.tickets s.ballot := by
  refine Transition.ReachableIn.induction
    (P := fun n s => n < 2 ^ 64 → TicketsCount n s.tickets s.ballot)
    (fun s hs _ => ticketsCount_init hs) (fun n s s' ih hst hn' => ?_) h hn
  exact (ih (by omega)).step hst hn'

/-- Vote tickets count the voters: in a state reached in fewer than `2^64` steps, the counter of
every target other than the empty address is the number of addresses whose vote is for it, and
the counter of the target of every vote for a non-empty address is at least one, so that the
floor of `subTicket` is never what withdraws such a vote. -/
theorem tickets_count_voters {n : ℕ} {s : State Address} (h : ReachableIn n s) (hn : n < 2 ^ 64) :
    (∀ t, t ≠ 0 → (s.tickets t).toNat = {g | ∃ vf, s.vote g = some vf ∧ vf.target = t}.ncard) ∧
    ∀ g vf, s.vote g = some vf → vf.target ≠ 0 → ¬ s.tickets vf.target < 1 := by
  have hc := (ticketsCount_of_reachableIn h hn).counts
  refine ⟨fun t ht => ?_, fun g vf hg ht => ?_⟩
  · have hv : Tally.voters s.ballot t = {g | ∃ vf, s.vote g = some vf ∧ vf.target = t} := by
      ext g
      simp [Tally.voters]
    rw [hc.count t ht, hv]
  · have hpos := hc.pos ht (g := g) (by simp [hg])
    rw [Word64.lt_iff, UInt64.toNat_one]
    omega

/-! A genesis with one guard at address `5`, which then votes for address `7`. -/

def oneVoteEnv : MinerEnv ℕ where
  stakePlatformAddr := 3
  livedGroupsAt _ := []

def oneVoteGenesis : GenesisInfo ℕ where
  businessFoundationAddr := 1
  teamFoundationAddr := 2
  stakePlatformAddr := 3
  circulatesAddr := 4
  members := []
  guards := [5]

def oneVoteGenesisState : State ℕ :=
  StateProc.stateOf ((insertGenesisBlock oneVoteEnv oneVoteGenesis).run State.empty)

def oneVoteOp : MinerOp ℕ := .voteMinerPool { source := 5, targetAddr := 7, height := 1 }

def oneVoteState : State ℕ :=
  StateProc.stateOf ((ExecuteOperation oneVoteEnv oneVoteOp).run oneVoteGenesisState)

set_option maxRecDepth 8192 in
theorem tickets_count_voters_after_one_vote :
    (∀ t, t ≠ 0 → (oneVoteState.tickets t).toNat =
      {g | ∃ vf, oneVoteState.vote g = some vf ∧ vf.target = t}.ncard) ∧
    ∀ g vf, oneVoteState.vote g = some vf → vf.target ≠ 0 → ¬ oneVoteState.tickets vf.target < 1 := by
  have h0 : Init oneVoteGenesisState :=
    ⟨oneVoteEnv, oneVoteGenesis, ⟨by simp [oneVoteGenesis], by simp [oneVoteGenesis]⟩, rfl⟩
  have h1 : Step oneVoteGenesisState oneVoteState :=
    .executeOperation oneVoteEnv oneVoteOp trivial (show _ = EStateM.Result.ok newResult _ from rfl)
  exact tickets_count_voters ((Transition.ReachableIn.init h0).step h1) (by norm_num)

end Zvchain
