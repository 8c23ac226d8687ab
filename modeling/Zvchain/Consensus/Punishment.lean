import Zvchain.System.Chain
import Zvchain.Spec.Stake
import Zvchain.Lib.Outcome

/-!
# The punishment of a failed group creation (`consensus/group/checker.go`, `core/group/manager.go`)

At the first height of an era's end round, `CheckGroupCreatePunishment` lists as penalty targets
the senders of an mpk packet that sent no origin pieces, the senders of origin pieces that fail
the share checks (once for invalid pieces and once more for evil ones), and, when every origin
piece is in, the senders of a wrong mpk; the other mpk senders are rewarded.  `tryDoPunish` hands
the message to `MinerPenalty`.

The packets are read by sender address.  The group-signature checks (`CheckSharePiecesValid`,
`checkEvil`, `aggrSignSecKeyWithMyPK` and the mpk comparison) are taken as given verdicts per
sender.  The candidates are chosen from the active verifiers at the era's seed, and an mpk packet
is only accepted from a candidate that `CanJoinGroup` at the time (`CheckMpkPacket`); the end
round comes many blocks later, with whatever the miner operations did in between.
-/

set_option mvcgen.warning false

namespace Zvchain

variable {Address : Type} [DecidableEq Address]

/-- `MinerDO.CanJoinGroup`, on the stored record: an active verifier. -/
def canJoinGroup (m : Miner Address) : Bool := IsVerifyRole m.type && m.IsActive

/-- What `CheckGroupCreatePunishment` reads of the current era: its round checks, the candidates,
and the senders of the packets of each kind, in the order the store returns them. -/
structure CreateEra (Address : Type) where
  seedExist : Bool
  shouldCreateGroup : Bool
  inEndRound : Bool
  firstOfEndRound : Bool
  originPieceRequired : Bool
  cands : List Address
  piecePkt : List Address
  mpkPacket : List Address
  originPacket : List Address

/-- The verdicts of the group-signature checks on each sender's packets. -/
structure CreateVerdicts (Address : Type) where
  sharePiecesValid : Address → Bool
  evil : Address → Bool
  mpkValid : Address → Bool

/-- The loop over the origin packets: a sender is listed once if its pieces are invalid and once
more if they are evil; an origin packet without an encrypted one panics. -/
def collectWrongPieces (piecePkt : List Address) (v : CreateVerdicts Address) :
    List Address → Outcome (List Address)
  | [] => pure []
  | ori :: rest =>
    if ori ∉ piecePkt then .panic "cannot find enc packet of %v"
    else do
      let tail ← collectWrongPieces piecePkt v rest
      pure ((if !v.sharePiecesValid ori then [ori] else []) ++
        (if v.evil ori then [ori] else []) ++ tail)

/-- The loop over the mpk packets: a sender of a wrong mpk is listed; a sender that is no
candidate panics. -/
def collectWrongMpks (cands : List Address) (v : CreateVerdicts Address) :
    List Address → Outcome (List Address)
  | [] => pure []
  | mpk :: rest =>
    if mpk ∉ cands then .panic "cannot find id:%v"
    else do
      let tail ← collectWrongMpks cands v rest
      pure ((if !v.mpkValid mpk then [mpk] else []) ++ tail)

/-- `createChecker.CheckGroupCreatePunishment`. -/
def CheckGroupCreatePunishment (era : CreateEra Address) (v : CreateVerdicts Address) :
    Outcome (PunishmentMsg Address) :=
  if !era.seedExist then .error "seed not exists:%v"
  else if !era.shouldCreateGroup then .error "should not create group, candsize %v"
  else if !era.inEndRound then .error "not in the end round, curr %v, round %v, first %v"
  else if !era.firstOfEndRound then
    .error "not the first height of the end round, curr %v, round %v, first %v"
  else if !era.originPieceRequired then .error "origin piece not required"
  else do
    -- those who sent an mpk but no origin pieces
    let missOriPieceIds := era.mpkPacket.filter (· ∉ era.originPacket)
    let wrongPiecesIds ← collectWrongPieces era.piecePkt v era.originPacket
    -- a wrong mpk can only be found when every origin piece is in
    let wrongMpkIds ← if missOriPieceIds = [] then collectWrongMpks era.cands v era.mpkPacket
      else pure []
    let penaltyTargets := missOriPieceIds ++ wrongPiecesIds ++ wrongMpkIds
    let rewardTargets := era.mpkPacket.filter (· ∉ penaltyTargets)
    pure ⟨penaltyTargets, rewardTargets⟩

/-! ## Who the checker lists -/

theorem collectWrongPieces_subset (piecePkt : List Address) (v : CreateVerdicts Address)
    (l out : List Address) (h : collectWrongPieces piecePkt v l = .ok out) : out ⊆ l := by
  induction l generalizing out with
  | nil =>
    simp only [collectWrongPieces, Outcome.pure_eq, Outcome.ok.injEq] at h
    subst h
    exact List.nil_subset _
  | cons ori rest ih =>
    unfold collectWrongPieces at h
    by_cases hp : ori ∉ piecePkt
    · rw [if_pos hp] at h
      cases h
    rw [if_neg hp] at h
    cases ht : collectWrongPieces piecePkt v rest with
    | error m => rw [ht] at h; cases h
    | panic m => rw [ht] at h; cases h
    | ok tail =>
      simp only [ht, Outcome.ok_bind, Outcome.pure_eq, Outcome.ok.injEq] at h
      subst h
      intro x hx
      simp only [List.mem_append, List.mem_ite_nil_right, List.mem_singleton] at hx
      rcases hx with (⟨-, rfl⟩ | ⟨-, rfl⟩) | hx
      · exact List.mem_cons_self
      · exact List.mem_cons_self
      · exact List.mem_cons_of_mem ori (ih tail ht hx)

theorem collectWrongMpks_subset (cands : List Address) (v : CreateVerdicts Address)
    (l out : List Address) (h : collectWrongMpks cands v l = .ok out) : out ⊆ l := by
  induction l generalizing out with
  | nil =>
    simp only [collectWrongMpks, Outcome.pure_eq, Outcome.ok.injEq] at h
    subst h
    exact List.nil_subset _
  | cons mpk rest ih =>
    unfold collectWrongMpks at h
    by_cases hc : mpk ∉ cands
    · rw [if_pos hc] at h
      cases h
    rw [if_neg hc] at h
    cases ht : collectWrongMpks cands v rest with
    | error m => rw [ht] at h; cases h
    | panic m => rw [ht] at h; cases h
    | ok tail =>
      simp only [ht, Outcome.ok_bind, Outcome.pure_eq, Outcome.ok.injEq] at h
      subst h
      intro x hx
      simp only [List.mem_append, List.mem_ite_nil_right, List.mem_singleton] at hx
      rcases hx with ⟨-, rfl⟩ | hx
      · exact List.mem_cons_self
      · exact List.mem_cons_of_mem mpk (ih tail ht hx)

/-- What `CheckGroupCreatePunishment` returns when it returns: the missing-origin senders, the
wrong pieces and, only when no origin piece is missing, the wrong mpks, and as rewarded the mpk
senders that are no penalty target. -/
theorem checkGroupCreatePunishment_eq_ok {era : CreateEra Address} {v : CreateVerdicts Address}
    {msg : PunishmentMsg Address} (h : CheckGroupCreatePunishment era v = .ok msg) :
    ∃ wrongPieces wrongMpks,
      collectWrongPieces era.piecePkt v era.originPacket = .ok wrongPieces ∧
      (wrongMpks = [] ∨ (era.mpkPacket.filter (· ∉ era.originPacket) = [] ∧
        collectWrongMpks era.cands v era.mpkPacket = .ok wrongMpks)) ∧
      msg.penaltyTarget =
        era.mpkPacket.filter (· ∉ era.originPacket) ++ wrongPieces ++ wrongMpks ∧
      msg.rewardTarget = era.mpkPacket.filter (· ∉ msg.penaltyTarget) := by
  unfold CheckGroupCreatePunishment at h
  split_ifs at h
  cases hw : collectWrongPieces era.piecePkt v era.originPacket with
  | error m => rw [hw] at h; cases h
  | panic m => rw [hw] at h; cases h
  | ok wrongPieces =>
    rw [hw, Outcome.ok_bind] at h
    by_cases hm : era.mpkPacket.filter (· ∉ era.originPacket) = []
    · rw [if_pos hm] at h
      cases hk : collectWrongMpks era.cands v era.mpkPacket with
      | error m => rw [hk] at h; cases h
      | panic m => rw [hk] at h; cases h
      | ok wrongMpks =>
        simp only [hk, Outcome.ok_bind, Outcome.pure_eq, Outcome.ok.injEq] at h
        subst h
        exact ⟨wrongPieces, wrongMpks, rfl, Or.inr ⟨hm, rfl⟩, rfl, rfl⟩
    · simp only [if_neg hm, Outcome.pure_eq, Outcome.ok_bind, Outcome.ok.injEq] at h
      subst h
      exact ⟨wrongPieces, [], rfl, Or.inl rfl, rfl, rfl⟩

theorem collectWrongMpks_sublist (cands : List Address) (v : CreateVerdicts Address)
    (l out : List Address) (h : collectWrongMpks cands v l = .ok out) : out.Sublist l := by
  induction l generalizing out with
  | nil =>
    simp only [collectWrongMpks, Outcome.pure_eq, Outcome.ok.injEq] at h
    subst h
    exact List.Sublist.refl _
  | cons mpk rest ih =>
    unfold collectWrongMpks at h
    by_cases hc : mpk ∉ cands
    · rw [if_pos hc] at h
      cases h
    rw [if_neg hc] at h
    cases ht : collectWrongMpks cands v rest with
    | error m => rw [ht] at h; cases h
    | panic m => rw [ht] at h; cases h
    | ok tail =>
      simp only [ht, Outcome.ok_bind, Outcome.pure_eq, Outcome.ok.injEq] at h
      subst h
      split_ifs
      · exact (ih tail ht).cons_cons mpk
      · exact (ih tail ht).cons mpk

/-- Every penalty target sent an mpk packet or origin pieces, and the rewarded are the mpk
senders that are no penalty target. -/
theorem checkGroupCreatePunishment_targets (era : CreateEra Address) (v : CreateVerdicts Address)
    (msg : PunishmentMsg Address) (h : CheckGroupCreatePunishment era v = .ok msg) :
    (∀ a ∈ msg.penaltyTarget, a ∈ era.mpkPacket ∨ a ∈ era.originPacket) ∧
      msg.rewardTarget = era.mpkPacket.filter (· ∉ msg.penaltyTarget) := by
  obtain ⟨wrongPieces, wrongMpks, hw, hk, hpen, hrew⟩ := checkGroupCreatePunishment_eq_ok h
  refine ⟨fun a ha => ?_, hrew⟩
  rw [hpen] at ha
  simp only [List.mem_append] at ha
  rcases ha with (ha | ha) | ha
  · exact Or.inl (List.mem_of_mem_filter ha)
  · exact Or.inr (collectWrongPieces_subset _ _ _ _ hw ha)
  · rcases hk with rfl | ⟨-, hk⟩
    · simp at ha
    · exact Or.inl (collectWrongMpks_subset _ _ _ _ hk ha)

/-! ## How often the checker lists a sender -/

/-- The loop over the origin packets lists a sender at most twice for each of its packets. -/
theorem collectWrongPieces_count (piecePkt : List Address) (v : CreateVerdicts Address)
    (l out : List Address) (h : collectWrongPieces piecePkt v l = .ok out) (a : Address) :
    out.count a ≤ 2 * l.count a := by
  induction l generalizing out with
  | nil =>
    simp only [collectWrongPieces, Outcome.pure_eq, Outcome.ok.injEq] at h
    subst h
    simp
  | cons ori rest ih =>
    unfold collectWrongPieces at h
    by_cases hp : ori ∉ piecePkt
    · rw [if_pos hp] at h
      cases h
    rw [if_neg hp] at h
    cases ht : collectWrongPieces piecePkt v rest with
    | error m => rw [ht] at h; cases h
    | panic m => rw [ht] at h; cases h
    | ok tail =>
      simp only [ht, Outcome.ok_bind, Outcome.pure_eq, Outcome.ok.injEq] at h
      subst h
      have htail := ih tail ht
      -- each of the two checks adds the sender once at most
      have hinvalid : (if !v.sharePiecesValid ori then [ori] else []).count a ≤
          [ori].count a := by split_ifs <;> simp
      have hevil : (if v.evil ori then [ori] else []).count a ≤ [ori].count a := by
        split_ifs <;> simp
      rw [List.count_append, List.count_append, List.count_cons]
      simp only [List.count_singleton] at hinvalid hevil
      split_ifs at hinvalid hevil ⊢ <;> omega

/-- The loop over the mpk packets lists a sender at most once for each of its packets. -/
theorem collectWrongMpks_count (cands : List Address) (v : CreateVerdicts Address)
    (l out : List Address) (h : collectWrongMpks cands v l = .ok out) (a : Address) :
    out.count a ≤ l.count a :=
  List.Sublist.count_le a (collectWrongMpks_sublist cands v l out h)

/-- What the packet checks let into the store of an era: one packet of each kind per sender,
from a candidate (`CheckEncryptedPiecePacket`), an mpk only from a sender of encrypted pieces
(`CheckMpkPacket`), and origin pieces only from a sender of an mpk (`CheckOriginPiecePacket`). -/
structure CreateEra.Accepted (era : CreateEra Address) : Prop where
  piece_nodup : era.piecePkt.Nodup
  mpk_nodup : era.mpkPacket.Nodup
  origin_nodup : era.originPacket.Nodup
  piece_cands : era.piecePkt ⊆ era.cands
  mpk_piece : era.mpkPacket ⊆ era.piecePkt
  origin_mpk : era.originPacket ⊆ era.mpkPacket

/-- On the packets the checks accept, the penalty and reward targets are mpk senders, the
rewarded are those not penalized, each once, and a sender is listed as a penalty target at most
three times: once for a missing origin piece or twice for wrong pieces, and once for a wrong
mpk. -/
theorem checkGroupCreatePunishment_partition (era : CreateEra Address)
    (v : CreateVerdicts Address) (hacc : era.Accepted) (msg : PunishmentMsg Address)
    (h : CheckGroupCreatePunishment era v = .ok msg) :
    (∀ a ∈ msg.penaltyTarget, a ∈ era.mpkPacket) ∧
      msg.rewardTarget = era.mpkPacket.filter (· ∉ msg.penaltyTarget) ∧
      msg.rewardTarget.Nodup ∧ ∀ a, msg.penaltyTarget.count a ≤ 3 := by
  obtain ⟨hmem, hrew⟩ := checkGroupCreatePunishment_targets era v msg h
  refine ⟨fun a ha => (hmem a ha).elim id (fun ho => hacc.origin_mpk ho), hrew,
    hrew ▸ hacc.mpk_nodup.filter _, fun a => ?_⟩
  obtain ⟨wrongPieces, wrongMpks, hw, hk, hpen, -⟩ := checkGroupCreatePunishment_eq_ok h
  have hmpk : era.mpkPacket.count a ≤ 1 := List.nodup_iff_count_le_one.mp hacc.mpk_nodup a
  have horigin : era.originPacket.count a ≤ 1 :=
    List.nodup_iff_count_le_one.mp hacc.origin_nodup a
  have hpieces := collectWrongPieces_count _ _ _ _ hw a
  have hmpks : wrongMpks.count a ≤ 1 := by
    rcases hk with rfl | ⟨-, hk⟩
    · simp
    · exact (collectWrongMpks_count _ _ _ _ hk a).trans hmpk
  rw [hpen, List.count_append, List.count_append]
  -- a sender that missed its origin piece has no origin packet, so no wrong pieces
  by_cases ho : a ∈ era.originPacket
  · have hmiss : (era.mpkPacket.filter (· ∉ era.originPacket)).count a = 0 :=
      List.count_eq_zero.mpr fun hm => by simp [ho] at hm
    omega
  · have hmiss : (era.mpkPacket.filter (· ∉ era.originPacket)).count a ≤ 1 :=
      (List.filter_sublist.count_le a).trans hmpk
    have hnone : era.originPacket.count a = 0 := List.count_eq_zero.mpr ho
    omega

section DuplicateTarget

/-- One candidate, `4`, that sent every packet, with origin pieces that fail the share check and
encrypted pieces that do not match them. -/
def duplicateTargetEra : CreateEra ℕ where
  seedExist := true
  shouldCreateGroup := true
  inEndRound := true
  firstOfEndRound := true
  originPieceRequired := true
  cands := [4]
  piecePkt := [4]
  mpkPacket := [4]
  originPacket := [4]

def duplicateTargetVerdicts : CreateVerdicts ℕ where
  sharePiecesValid _ := false
  evil _ := true
  mpkValid _ := true

theorem checkGroupCreatePunishment_lists_sender_twice :
    duplicateTargetEra.Accepted ∧
      CheckGroupCreatePunishment duplicateTargetEra duplicateTargetVerdicts = .ok ⟨[4, 4], []⟩ :=
  ⟨⟨by decide, by decide, by decide, by decide, by decide, by decide⟩, rfl⟩

theorem checkGroupCreatePunishment_partition_at_duplicateTargetEra :
    duplicateTargetEra.Accepted ∧
      CheckGroupCreatePunishment duplicateTargetEra duplicateTargetVerdicts = .ok ⟨[4, 4], []⟩ ∧
      ∀ a, [4, 4].count a ≤ 3 :=
  have hacc : duplicateTargetEra.Accepted :=
    ⟨by decide, by decide, by decide, by decide, by decide, by decide⟩
  ⟨hacc, rfl, (checkGroupCreatePunishment_partition duplicateTargetEra duplicateTargetVerdicts
    hacc ⟨[4, 4], []⟩ rfl).2.2.2⟩

end DuplicateTarget

/-! ## Handing the message to the penalty -/

section Penalty

variable [Zero Address]

/-- `Manager.tryDoPunish`: a message the checker returns goes to `MinerPenalty`, whose error is
only logged; a panic of either goes through. -/
def tryDoPunish (era : CreateEra Address) (v : CreateVerdicts Address) (height : UInt64) :
    Proc Address Unit :=
  match CheckGroupCreatePunishment era v with
  | .ok msg => do
    let _ ← MinerPenalty msg height
    return
  | .error _ => return
  | .panic m => throw (.panic m)

open Std.Do in
/-- The penalty panics when its first target's verifier stake is below the minimum stake, the
value it takes off each target. -/
theorem minerPenalty_panics_of_stake_lt (a : Address) (rest rewards : List Address)
    (height : UInt64) (s0 : State Address) (m : Miner Address)
    (hm : s0.miner a .verify = some m) (hs : m.stake < minimumStake) :
    ⦃fun s => ⌜s = s0⌝⦄ MinerPenalty ⟨a :: rest, rewards⟩ height
    ⦃post⟨fun _ _ => ⌜False⌝,
      fun e _ => ⌜e = .panic "stake less than punish value:%v %v of %v"⌝⟩⦄ := by
  have hv : IsVerifyRole m.type = true := by simp [State.miner_type hm, IsVerifyRole]
  simp only [MinerPenalty, executeOperation, MinerPenaltyOp.Transition, List.forM_eq_forM,
    List.forM_cons]
  have hpenalize := @penalizeTarget_spec Address _ _
  mvcgen [toResult, hpenalize]
  all_goals subst_vars
  case vc1.post.success =>
    -- a penalty of the first target that returns took the value off its stake
    rintro s ⟨m', hm', hp⟩
    rw [hm, Option.some.injEq] at hm'
    subst hm'
    exact absurd hs hp.covered
  all_goals simp_all [PenalizeTargetPanics, Word64.le_eq_false_of_lt]

end Penalty

/-! ## A candidate that leaves before the end round

A verifier stakes the minimum for itself and is active, so it can be a candidate and send its
mpk.  Before the end round it aborts, which takes it out of the pool, and, being in no living
group, reduces its whole stake.  It sent no origin pieces, so the checker lists it as a penalty
target, and the penalty finds a stake of zero. -/

section ReducedCandidate

/-- The keys of the verifier, as a stake add for oneself carries them. -/
def reducedCandidatePks : MinerPks where
  mType := .verify
  pk := List.replicate 128 1
  vrfPk := List.replicate 32 1
  decoded := Or.inr ⟨List.length_replicate, List.length_replicate⟩

def reducedCandidateEnv : MinerEnv ℕ where
  stakePlatformAddr := 3
  livedGroupsAt _ := []

/-- A genesis with the foundations and the circulating supply, and no group members or guards. -/
def reducedCandidateGenesis : GenesisInfo ℕ where
  businessFoundationAddr := 1
  teamFoundationAddr := 2
  stakePlatformAddr := 3
  circulatesAddr := 4
  members := []
  guards := []

/-- The verifier at address `4` stakes the minimum, aborts, and reduces all of it. -/
def reducedCandidateStake : MinerOp ℕ :=
  .stakeAdd { minerPks := reducedCandidatePks, value := minimumStake, addSource := 4,
              addTarget := 4, minerType := .verify, height := 10 }

def reducedCandidateAbort : MinerOp ℕ :=
  .minerAbort { addr := 4, minerType := .verify, height := 20 }

def reducedCandidateReduce : MinerOp ℕ :=
  .stakeReduce { cancelTarget := 4, cancelSource := 4, value := minimumStake,
                 minerType := .verify, height := 30 }

def reducedCandidateGenesisState : State ℕ :=
  StateProc.stateOf ((insertGenesisBlock reducedCandidateEnv reducedCandidateGenesis).run
    State.empty)

def reducedCandidateStaked : State ℕ :=
  StateProc.stateOf ((ExecuteOperation reducedCandidateEnv reducedCandidateStake).run
    reducedCandidateGenesisState)

def reducedCandidateAborted : State ℕ :=
  StateProc.stateOf ((ExecuteOperation reducedCandidateEnv reducedCandidateAbort).run
    reducedCandidateStaked)

def reducedCandidateReduced : State ℕ :=
  StateProc.stateOf ((ExecuteOperation reducedCandidateEnv reducedCandidateReduce).run
    reducedCandidateAborted)

/-- The era: the verifier is the one candidate, it sent its encrypted pieces and its mpk, and no
origin pieces. -/
def reducedCandidateEra : CreateEra ℕ where
  seedExist := true
  shouldCreateGroup := true
  inEndRound := true
  firstOfEndRound := true
  originPieceRequired := true
  cands := [4]
  piecePkt := [4]
  mpkPacket := [4]
  originPacket := []

def reducedCandidateVerdicts : CreateVerdicts ℕ where
  sharePiecesValid _ := true
  evil _ := false
  mpkValid _ := true

set_option maxRecDepth 8192 in
theorem reducedCandidate_reachable : Reachable reducedCandidateReduced := by
  have h0 : Init reducedCandidateGenesisState :=
    ⟨reducedCandidateEnv, reducedCandidateGenesis, ⟨by simp [reducedCandidateGenesis],
      by simp [reducedCandidateGenesis]⟩, rfl⟩
  have h1 : Step reducedCandidateGenesisState reducedCandidateStaked :=
    .executeOperation reducedCandidateEnv reducedCandidateStake (fun _ => rfl)
      (show _ = EStateM.Result.ok newResult _ from rfl)
  have h2 : Step reducedCandidateStaked reducedCandidateAborted :=
    .executeOperation reducedCandidateEnv reducedCandidateAbort trivial
      (show _ = EStateM.Result.ok newResult _ from rfl)
  have h3 : Step reducedCandidateAborted reducedCandidateReduced :=
    .executeOperation reducedCandidateEnv reducedCandidateReduce
      (show minimumStake ≠ 0 by decide) (show _ = EStateM.Result.ok newResult _ from rfl)
  exact ((Transition.Reachable.init h0).step h1 |>.step h2).step h3

set_option maxRecDepth 8192 in
theorem tryDoPunish_panics_on_reduced_candidate :
    Reachable reducedCandidateReduced ∧
      (reducedCandidateStaked.miner 4 .verify).any canJoinGroup = true ∧
      CheckGroupCreatePunishment reducedCandidateEra reducedCandidateVerdicts = .ok ⟨[4], []⟩ ∧
      ∃ s', (tryDoPunish reducedCandidateEra reducedCandidateVerdicts 40).run
        reducedCandidateReduced = .error (.panic "stake less than punish value:%v %v of %v") s' := by
  refine ⟨reducedCandidate_reachable, rfl, rfl, ?_⟩
  obtain ⟨m, hm, hs⟩ : ∃ m, reducedCandidateReduced.miner 4 .verify = some m ∧
      m.stake < minimumStake := ⟨_, rfl, by decide⟩
  obtain ⟨e, s', hr, he⟩ := StateProc.error_of_triple_not_ok
    (minerPenalty_panics_of_stake_lt 4 [] [] 40 _ m hm hs) rfl
  subst he
  refine ⟨s', ?_⟩
  show (do let _ ← MinerPenalty ⟨[4], []⟩ 40; return () : Proc ℕ Unit).run reducedCandidateReduced = _
  simp only [EStateM.run] at hr ⊢
  simp [bind, EStateM.bind, hr]

end ReducedCandidate

end Zvchain
