import Zvchain.Spec.Tickets

/-!
# Only guards vote

`checkVote` lets an address vote only while its proposer record has the guard identity, and the
guard expiry, the only code that takes that identity away, withdraws the vote with it
(`guardNodeExpired`).  Over whole runs: every address that holds a vote is a guard
(`voters_are_guards`).

What the invariant reads of a state is the votes and the guards (`State.guardAt`).  Every step
but the guard expiry keeps every guard a guard and lets only a guard cast a new vote
(`GuardEffect`): a stake operation rewrites a record with the identity it had, a vote makes a
miner pool of its target, which is no guard, and takes a miner pool's identity on a lost ticket,
and a guard application only adds a guard.  The guard expiry keeps the identity of every address
that still votes after it.
-/

set_option mvcgen.warning false

namespace Zvchain

open Std.Do

variable {Address : Type}

/-- The addresses whose proposer record has the guard identity. -/
def State.guardAt (s : State Address) (a : Address) : Bool :=
  (s.miner a .proposal).any (·.IsGuard)

/-- Every address that holds a vote is a guard. -/
def VotersGuards (s : State Address) : Prop :=
  ∀ a, (s.vote a).isSome → s.guardAt a

/-- What a step other than the guard expiry does to the guards and the votes: every guard stays
a guard, and an address that votes after it and not before is a guard. -/
def GuardEffect (s s' : State Address) : Prop :=
  (∀ a, s.guardAt a → s'.guardAt a) ∧ ∀ a, (s'.vote a).isSome → (s.vote a).isSome ∨ s'.guardAt a

section Effect

variable {s s' : State Address}

theorem State.guardAt_congr (h : s'.miner = s.miner) : s'.guardAt = s.guardAt := by
  funext a
  simp [State.guardAt, h]

theorem State.guardAt_of_miner {a : Address} {m : Miner Address}
    (hm : s.miner a .proposal = some m) (hg : m.IsGuard = true) : s.guardAt a := by
  simp [State.guardAt, hm, hg]

theorem GuardEffect.refl (s : State Address) : GuardEffect s s :=
  ⟨fun _ h => h, fun _ h => Or.inl h⟩

theorem guardEffect_of_frame (hg : s'.guardAt = s.guardAt) (hv : s'.vote = s.vote) :
    GuardEffect s s' := by
  refine ⟨fun a h => ?_, fun a h => Or.inl ?_⟩
  · rw [hg]
    exact h
  · rw [← hv]
    exact h

theorem VotersGuards.of_guardEffect (h : VotersGuards s) (he : GuardEffect s s') :
    VotersGuards s' := by
  intro a ha
  rcases he.2 a ha with hv | hg
  · exact he.1 a (h a hv)
  · exact hg

/-- A step that keeps every guard and adds no vote. -/
theorem guardEffect_of_grow (hg : ∀ a, s.guardAt a → s'.guardAt a)
    (hv : ∀ a, (s'.vote a).isSome → (s.vote a).isSome) : GuardEffect s s' :=
  ⟨hg, fun a h => Or.inl (hv a h)⟩

/-- A step after which every voter voted before and has the guard status it had. -/
theorem VotersGuards.of_shrink (h : VotersGuards s)
    (hs : ∀ a, (s'.vote a).isSome → (s.vote a).isSome ∧ s'.guardAt a = s.guardAt a) :
    VotersGuards s' := by
  intro a ha
  obtain ⟨hv, hg⟩ := hs a ha
  rw [hg]
  exact h a hv

/-- A vote cast by a guard, with the guards as they were. -/
theorem guardEffect_of_vote [DecidableEq Address] {g : Address} {v : VoteInfo Address}
    (hg : s'.guardAt = s.guardAt) (hv : s'.vote = Function.update s.vote g (some v))
    (hgd : s.guardAt g) : GuardEffect s s' := by
  refine ⟨fun a h => ?_, fun a h => ?_⟩
  · rw [hg]
    exact h
  · by_cases hag : a = g
    · right
      rw [hag, hg]
      exact hgd
    · left
      simpa [hv, hag] using h

end Effect

/-! ## Record writes and the guards -/

/-- Only a guard's record makes `geneBaseIdentityOp` pick the guard's methods. -/
theorem isGuard_eq_false_of_geneBaseIdentityOp {m : Miner Address} {b : IdentityOp}
    (h : geneBaseIdentityOp .proposal (some m) = b) (hb : b ≠ .guardProposalMiner) :
    m.IsGuard = false := by
  subst h
  cases hi : m.identity <;> simp_all [geneBaseIdentityOp, Miner.IsGuard]

theorem guardAt_eq_false_of_geneBaseIdentityOp {s : State Address} {a : Address} {b : IdentityOp}
    (h : geneBaseIdentityOp .proposal (s.miner a .proposal) = b)
    (hb : b ≠ .guardProposalMiner) : s.guardAt a = false := by
  unfold State.guardAt
  cases hm : s.miner a .proposal with
  | none => rfl
  | some m =>
    rw [hm] at h
    exact isGuard_eq_false_of_geneBaseIdentityOp h hb

variable [DecidableEq Address]

theorem State.guardAt_putMiner (s : State Address) (w : Miner Address) (a : Address) :
    (s.putMiner w).guardAt a = if a = w.id ∧ w.type = .proposal then w.IsGuard else s.guardAt a := by
  unfold State.guardAt
  rw [State.putMiner_miner_apply]
  split_ifs <;> simp_all

section Writes

variable {s s' : State Address} {w : Miner Address}

/-- A record written, on a state with the guards of `s`, with the guard status of the proposer
record it replaces in `s` keeps every guard. -/
theorem State.guardAt_putMiner_eq (hs : s'.guardAt = s.guardAt)
    (h : w.type = .proposal → w.IsGuard = s.guardAt w.id) : (s'.putMiner w).guardAt = s.guardAt := by
  funext a
  rw [State.guardAt_putMiner, hs]
  split_ifs with ha
  · obtain ⟨rfl, ht⟩ := ha
    exact h ht
  · rfl

theorem State.guardAt_putMiner_any (hs : s'.guardAt = s.guardAt)
    (h : w.IsGuard = (s.miner w.id w.type).any (·.IsGuard)) :
    (s'.putMiner w).guardAt = s.guardAt := by
  refine State.guardAt_putMiner_eq hs fun ht => ?_
  rw [h, ht]
  rfl

/-- A record written over the stored `m`, with its guard status. -/
theorem State.guardAt_putMiner_stored {a : Address} {t : MinerType} {m : Miner Address}
    (hs : s'.guardAt = s.guardAt) (hm : s.miner a t = some m) (hw : w.id = m.id ∧ w.type = m.type)
    (hg : w.IsGuard = m.IsGuard) : (s'.putMiner w).guardAt = s.guardAt := by
  refine State.guardAt_putMiner_any hs ?_
  rw [hw.1, hw.2, State.miner_id hm, State.miner_type hm, hm, hg]
  rfl

/-- A guard written keeps every guard. -/
theorem State.guardAt_putMiner_guard (hs : s'.guardAt = s.guardAt) (hw : w.IsGuard = true) (a : Address)
    (ha : s.guardAt a) : (s'.putMiner w).guardAt a := by
  rw [State.guardAt_putMiner, hs]
  split_ifs
  · exact hw
  · exact ha

/-- The record `afterTicketsFull` writes, a miner pool made of the vote's target `t`, which is no
guard: the stored record, or `d` when there is none. -/
theorem State.guardAt_putMiner_minerPool {t : Address} {d : Miner Address} {b : IdentityOp}
    (hs : s'.guardAt = s.guardAt) (hd : d.id = t) (hb : geneBaseIdentityOp .proposal (s.miner t .proposal) = b)
    (hbg : b ≠ .guardProposalMiner) (height : UInt64) :
    (s'.putMiner (((s.miner t .proposal).getD d).UpdateIdentity .minerPool height)).guardAt =
      s.guardAt := by
  refine State.guardAt_putMiner_eq hs fun _ => ?_
  have ht : ((s.miner t .proposal).getD d).id = t := by
    cases hm : s.miner t .proposal with
    | none => exact hd
    | some m => exact State.miner_id hm
  rw [Miner.updateIdentity_id, ht, guardAt_eq_false_of_geneBaseIdentityOp hb hbg]
  rfl

/-- The miner records of a step that rewrites the stored `m` with its identity. -/
theorem State.guardAt_of_miner_eq_stored {a : Address} {t : MinerType} {m : Miner Address}
    (h : s'.miner = (s.putMiner w).miner) (hm : s.miner a t = some m)
    (hw : w.id = m.id ∧ w.type = m.type ∧ w.identity = m.identity) : s'.guardAt = s.guardAt := by
  rw [State.guardAt_congr h]
  refine State.guardAt_putMiner_stored rfl hm ⟨hw.1, hw.2.1⟩ ?_
  simp [Miner.IsGuard, hw.2.2]

/-- What the guard expiry leaves of the guards: the record of `a` is rewritten, and every address
that still votes is another one. -/
theorem State.guardAt_expire {a : Address} {m : Miner Address} {height : UInt64}
    (hm : s.miner a .proposal = some m)
    (h : s'.miner = (s.putMiner (m.UpdateIdentity .minerNormal height)).miner)
    (hv : ∀ b, (s'.vote b).isSome → b ≠ a ∧ (s.vote b).isSome) :
    ∀ b, (s'.vote b).isSome → (s.vote b).isSome ∧ s'.guardAt b = s.guardAt b := by
  intro b hb
  obtain ⟨hba, hb0⟩ := hv b hb
  refine ⟨hb0, ?_⟩
  rw [State.guardAt_congr h, State.guardAt_putMiner, if_neg]
  rintro ⟨hbm, -⟩
  rw [Miner.updateIdentity_id] at hbm
  exact hba (hbm.trans (State.miner_id hm))

end Writes

/-! ## The records of the stake operations -/

@[simp] theorem stakeAddedMiner_id (op : StakeAddOp Address) (tm : Option (Miner Address)) :
    (stakeAddedMiner op tm).id = (tm.map Miner.id).getD op.addTarget := by
  cases tm <;> unfold stakeAddedMiner <;> split_ifs <;> simp

section Records

variable (op : StakeAddOp Address) (tm : Option (Miner Address))

@[simp] theorem activatedMiner_id : (activatedMiner op tm).id = (stakeAddedMiner op tm).id := by
  simp only [activatedMiner]
  split <;> simp

@[simp] theorem activatedMiner_type : (activatedMiner op tm).type = (stakeAddedMiner op tm).type := by
  simp only [activatedMiner]
  split <;> simp

@[simp] theorem activatedMiner_identity :
    (activatedMiner op tm).identity = (stakeAddedMiner op tm).identity := by
  simp only [activatedMiner]
  split <;> simp

end Records

omit [DecidableEq Address] in
theorem stakeReducedMiner_keys (op : StakeReduceOp Address) (m : Miner Address) :
    (stakeReducedMiner op m).id = m.id ∧ (stakeReducedMiner op m).type = m.type ∧
      (stakeReducedMiner op m).identity = m.identity := by
  unfold stakeReducedMiner reducedMiner
  split_ifs <;> exact ⟨rfl, rfl, rfl⟩

/-- A stake add rewrites the target's record with its identity, or creates a normal miner. -/
theorem StakeAdded.guardAt {op : StakeAddOp Address} {s s' : State Address}
    (h : StakeAdded op (s.miner op.addTarget op.minerType) s s') : s'.guardAt = s.guardAt := by
  rw [State.guardAt_congr h.miner]
  refine State.guardAt_putMiner_any rfl ?_
  cases hm : s.miner op.addTarget op.minerType with
  | none => simp [Miner.IsGuard, hm]
  | some m => simp [Miner.IsGuard, hm, State.miner_id hm, State.miner_type hm]

/-! ## The vote -/

variable [Zero Address]

omit [Zero Address] in
/-- A nested `reduceTicketsOp` keeps every guard: what it downgrades is a miner pool. -/
theorem reduceTickets_guards (target : Address) (height : UInt64) (s0 : State Address) :
    ⦃fun s => ⌜s = s0⌝⦄ reduceTickets target height
    ⦃post⟨fun _ s => ⌜s.guardAt = s0.guardAt ∧ s.vote = s0.vote⌝, fun _ _ => ⌜True⌝⟩⦄ := by
  mvcgen [reduceTickets, ReduceTicketsOp.Transition, toResult, IdentityOp.processReduceTicket,
    IdentityOp.afterTicketReduce, removeFromPool]
  all_goals (subst_vars; simp_all +zetaDelta [EStateM.Backtrackable.restore, EStateM.dummyRestore])
  all_goals first
    | rfl
    | have hb := isGuard_eq_false_of_geneBaseIdentityOp ‹geneBaseIdentityOp _ (some _) = _›
        (by decide)
      exact State.guardAt_putMiner_stored rfl (by assumption) (by exact ⟨rfl, rfl⟩)
        (by rw [hb]; rfl)

theorem processVote_guards (op : VoteMinerPoolOp Address) (vf : Option (VoteInfo Address))
    (s0 : State Address) :
    ⦃fun s => ⌜s = s0⌝⦄ processVote op vf
    ⦃post⟨fun _ s => ⌜s.guardAt = s0.guardAt ∧
        s.vote = Function.update s0.vote op.source (some ⟨op.targetAddr, op.height⟩)⌝,
      fun _ _ => ⌜True⌝⟩⦄ := by
  have hreduce := @reduceTickets_guards Address _
  cases vf <;> mvcgen [processVote, hreduce]
  all_goals (clear hreduce; subst_vars; simp_all +zetaDelta)
  all_goals first
    | rfl
    | (unfold State.guardAt at *; simp_all)

/-- A vote that succeeds is a guard's and keeps every guard: its target, which is no guard,
becomes a miner pool at most. -/
theorem voteTransition_guards (op : VoteMinerPoolOp Address) (s0 : State Address) :
    ⦃fun s => ⌜s = s0⌝⦄ op.Transition
    ⦃post⟨fun r s => ⌜r.err = none → GuardEffect s0 s⌝, fun _ _ => ⌜True⌝⟩⦄ := by
  have hprocess := @processVote_guards Address _ _
  mvcgen [VoteMinerPoolOp.Transition, toResult, IdentityOp.processVote, checkVote, hprocess,
    IdentityOp.afterTicketsFull]
  all_goals (clear hprocess; subst_vars; simp_all [newResult])
  -- a guard's vote, whose target becomes a miner pool unless it is one
  all_goals
    obtain ⟨hg, hv⟩ := ‹_ ∧ _›
    have hsrc := State.guardAt_of_miner ‹_› ‹_›
  · exact guardEffect_of_vote hg hv hsrc
  · exact guardEffect_of_vote (State.guardAt_putMiner_minerPool (t := op.targetAddr) hg rfl rfl ‹_› op.height) hv hsrc
  · exact guardEffect_of_vote hg hv hsrc

/-! ## The other operations -/

omit [Zero Address] in
/-- A guard written, and no vote added. -/
theorem guardEffect_of_putGuard {s s' : State Address} {w : Miner Address} (hw : w.IsGuard = true)
    (hm : s'.miner = (s.putMiner w).miner) (hv : ∀ a, (s'.vote a).isSome → (s.vote a).isSome) :
    GuardEffect s s' := by
  refine guardEffect_of_grow (fun a ha => ?_) hv
  rw [State.guardAt_congr hm]
  exact State.guardAt_putMiner_guard rfl hw a ha

omit [Zero Address] in
/-- A guard application adds a guard and rewrites the height of its vote, if any. -/
theorem applyGuardTransition_guards (op : ApplyGuardMinerOp Address) (s0 : State Address) :
    ⦃fun s => ⌜s = s0⌝⦄ op.Transition
    ⦃post⟨fun r s => ⌜r.err = none → GuardEffect s0 s⌝, fun _ _ => ⌜True⌝⟩⦄ := by
  have hcheck := @checkApplyGuard_spec Address
  have hfull := @afterBecomeFullGuardNode_frame Address _
  mvcgen [ApplyGuardMinerOp.Transition, toResult, IdentityOp.processApplyGuard, hcheck, hfull]
  all_goals subst_vars
  all_goals try (intro herr; simp at herr)
  · -- the guard had a vote, whose height is rewritten
    rintro -
    obtain ⟨-, hv, hm⟩ := ‹_ ∧ _›
    rename_i hvf _ _ _ _
    refine guardEffect_of_putGuard rfl hm fun a ha => ?_
    by_cases hat : a = op.targetAddr
    · rw [hat, ← State.putMiner_vote _ (_ : Miner Address), ← hv, hvf]
      rfl
    · simpa [hat, hv] using ha
  · rintro -
    obtain ⟨-, hv, hm⟩ := ‹_ ∧ _›
    refine guardEffect_of_putGuard rfl hm fun a ha => ?_
    rw [hv] at ha
    exact ha

theorem executeOperation_guards (env : MinerEnv Address) (op : MinerOp Address)
    (s0 : State Address) :
    ⦃fun s => ⌜s = s0⌝⦄ ExecuteOperation env op
    ⦃post⟨fun _ s => ⌜GuardEffect s0 s⌝, fun _ _ => ⌜True⌝⟩⦄ := by
  apply executeOperation_spec s0 (GuardEffect.refl s0)
  cases op with
  | stakeAdd op =>
    have hspec := @stakeAddTransition_spec Address _
    mvcgen [MinerOp.Transition, hspec]
    rintro h herr
    subst_vars
    exact guardEffect_of_frame (h herr).1.guardAt (h herr).1.vote
  | minerAbort op =>
    have hspec := @minerAbortTransition_spec Address _
    mvcgen [MinerOp.Transition, hspec]
    rintro h herr
    subst_vars
    obtain ⟨m, hm, ha⟩ := h herr
    exact guardEffect_of_frame (State.guardAt_of_miner_eq_stored ha.miner hm ⟨rfl, rfl, rfl⟩) ha.vote
  | stakeReduce op =>
    have hspec := @stakeReduceTransition_spec Address _
    mvcgen [MinerOp.Transition, hspec]
    rintro h herr
    subst_vars
    obtain ⟨m, hm, hr⟩ := h herr
    exact guardEffect_of_frame
      (State.guardAt_of_miner_eq_stored hr.miner hm (stakeReducedMiner_keys op m)) hr.vote
  | stakeRefund op =>
    have hspec := @stakeRefundTransition_spec Address _
    mvcgen [MinerOp.Transition, hspec]
    rintro h - herr
    subst_vars
    exact guardEffect_of_frame (State.guardAt_congr (h herr).miner) (h herr).vote
  | voteMinerPool op =>
    have hvote := voteTransition_guards op
    mvcgen [MinerOp.Transition, hvote]
  | applyGuardMiner op =>
    have hguard := applyGuardTransition_guards op
    mvcgen [MinerOp.Transition, hguard]
  | changeFundGuardMode op =>
    have hspec := @changeFundGuardModeTransition_spec Address _
    mvcgen [MinerOp.Transition, hspec]
    rintro h herr
    subst_vars
    exact guardEffect_of_frame (State.guardAt_congr (h herr).2.2) (h herr).2.1

omit [Zero Address] in
theorem minerFrozen_guards (addr : Address) (height : UInt64) (s0 : State Address) :
    ⦃fun s => ⌜s = s0⌝⦄ MinerFrozen addr height
    ⦃post⟨fun _ s => ⌜GuardEffect s0 s⌝, fun _ _ => ⌜True⌝⟩⦄ := by
  apply executeOperation_spec s0 (GuardEffect.refl s0)
  have hspec := @minerFreezeTransition_spec Address _
  mvcgen [hspec]
  rintro h - herr
  subst_vars
  obtain ⟨m, hm, hf⟩ := h herr
  exact guardEffect_of_frame (State.guardAt_of_miner_eq_stored hf.miner hm ⟨rfl, rfl, rfl⟩) hf.vote

/-- One round of the penalty loop keeps the guards and the votes: it rewrites a verifier. -/
theorem penalizeTarget_guards (value height : UInt64) (addr : Address) (g0 : Address → Bool)
    (v0 : Address → Option (VoteInfo Address)) :
    ⦃fun s => ⌜s.guardAt = g0 ∧ s.vote = v0⌝⦄ penalizeTarget value height addr
    ⦃post⟨fun _ s => ⌜s.guardAt = g0 ∧ s.vote = v0⌝, fun _ _ => ⌜True⌝⟩⦄ := by
  have hspec := @penalizeTarget_spec Address _ _
  mvcgen [hspec]
  rename_i s h _ s'
  rintro ⟨m, hm, hp⟩
  rw [State.guardAt_of_miner_eq_stored hp.miner hm ⟨rfl, rfl, rfl⟩, hp.vote]
  exact h

theorem minerPenalty_guards (msg : PunishmentMsg Address) (height : UInt64) (s0 : State Address) :
    ⦃fun s => ⌜s = s0⌝⦄ MinerPenalty msg height
    ⦃post⟨fun _ s => ⌜GuardEffect s0 s⌝, fun _ _ => ⌜True⌝⟩⦄ := by
  apply executeOperation_spec s0 (GuardEffect.refl s0)
  have hloop := fun g : Address → Proc Address PUnit => StateProc.forM_spec (g := g)
    (I := fun s : State Address => s.guardAt = s0.guardAt ∧ s.vote = s0.vote) (E := fun _ _ => True)
  have hpenalize := fun (value : UInt64) (addr : Address) => penalizeTarget_guards value height addr
  mvcgen [MinerPenaltyOp.Transition, toResult, hloop, hpenalize]
  all_goals (subst_vars; simp_all [newResult])
  all_goals
    rename_i h
    exact guardEffect_of_frame h.1 h.2

/-! ## The guard expiry -/

/-- The guard expiry: every address that votes after it voted before and kept its guard status;
the expiring guard itself loses its vote with its identity. -/
theorem guardNodeExpired_guards (a : Address) (height : UInt64) (isFundGuardNode : Bool)
    (s0 : State Address) :
    ⦃fun s => ⌜s = s0⌝⦄ guardNodeExpired a height isFundGuardNode
    ⦃post⟨fun _ s => ⌜∀ b, (s.vote b).isSome → (s0.vote b).isSome ∧ s.guardAt b = s0.guardAt b⌝,
      fun _ _ => ⌜True⌝⟩⦄ := by
  have hreduce := fun (target : Address) => reduceTickets_guards target height
  mvcgen [guardNodeExpired, hreduce]
  all_goals subst_vars
  -- no miner: nothing changes
  case vc9 =>
    intro b hb
    exact ⟨hb, rfl⟩
  -- the state after the downgrade of the vote's target, which keeps the guards and the votes
  all_goals try
    obtain ⟨hg, hv⟩ := ‹_ ∧ _›
    intro b hb
    rw [hg]
    rw [hv] at hb
    revert b
  all_goals
    refine State.guardAt_expire ‹_› rfl fun b hb => ⟨fun hba => ?_, ?_⟩
    · subst hba
      simp_all [Option.isSome_iff_exists]
    · by_cases hba : b = a <;> simp_all

theorem guardNodeExpired_votersGuards (a : Address) (height : UInt64) (isFundGuardNode : Bool) :
    ⦃fun s => ⌜VotersGuards s⌝⦄ guardNodeExpired a height isFundGuardNode
    ⦃post⟨fun _ s => ⌜VotersGuards s⌝, fun _ _ => ⌜True⌝⟩⦄ := by
  have hexpired := guardNodeExpired_guards a height isFundGuardNode
  mvcgen [hexpired]
  rename_i s0 h _ s
  exact h.of_shrink

theorem processGuardNodeExpired_votersGuards (a : Address) (height : UInt64) :
    ⦃fun s => ⌜VotersGuards s⌝⦄ processGuardNodeExpired a height
    ⦃post⟨fun _ s => ⌜VotersGuards s⌝, fun _ _ => ⌜True⌝⟩⦄ := by
  have hexpired := guardNodeExpired_votersGuards a height
  mvcgen [processGuardNodeExpired, hexpired]

omit [DecidableEq Address] [Zero Address] in
/-- A procedure that keeps the counters, the votes and the miner records keeps the invariant. -/
theorem votersGuards_of_frame {α : Type} {x : Proc Address α}
    (hx : ∀ t0 v0 m0, ⦃fun s => ⌜s.tickets = t0 ∧ s.vote = v0 ∧ s.miner = m0⌝⦄ x
      ⦃post⟨fun _ s => ⌜s.tickets = t0 ∧ s.vote = v0 ∧ s.miner = m0⌝, fun _ _ => ⌜True⌝⟩⦄) :
    ⦃fun s => ⌜VotersGuards s⌝⦄ x ⦃post⟨fun _ s => ⌜VotersGuards s⌝, fun _ _ => ⌜True⌝⟩⦄ := by
  mvcgen [hx]
  rename_i s h _ s'
  rintro - hv hm
  exact h.of_guardEffect (guardEffect_of_frame (State.guardAt_congr hm) hv)

theorem guardNodesCheck_votersGuards (order : List Address) (height : UInt64) :
    ⦃fun s => ⌜VotersGuards s⌝⦄ GuardNodesCheck order height
    ⦃post⟨fun _ s => ⌜VotersGuards s⌝, fun _ _ => ⌜True⌝⟩⦄ := by
  have hfull := expireGuards_spec (fun a : Address => processGuardNodeExpired a height)
    fun a => processGuardNodeExpired_votersGuards a height
  have hfund := expireGuards_spec (fun a : Address => guardNodeExpired a height true)
    fun a => guardNodeExpired_votersGuards a height true
  have hcheck := votersGuards_of_frame (fullStakeGuardNodesCheck_frame order height)
  have hfundCheck := votersGuards_of_frame (fundGuardExpiredCheck_frame order height)
  mvcgen [GuardNodesCheck, hcheck, hfundCheck, hfull, hfund]

/-! ## Whole runs -/

/-- The genesis block leaves no vote. -/
theorem votersGuards_init {s : State Address} (h : Init s) : VotersGuards s := by
  obtain ⟨env, info, -, hrun⟩ := h
  have hf := StateProc.ok_of_triple (insertGenesisBlock_frame env info State.empty.tickets
    State.empty.vote) ⟨rfl, rfl⟩ hrun
  intro a ha
  simp [hf.2, State.empty] at ha

theorem VotersGuards.step {s s' : State Address} (h : VotersGuards s) (hst : Step s s') :
    VotersGuards s' := by
  cases hst with
  | executeOperation env op _ hrun =>
    exact h.of_guardEffect (StateProc.ok_of_triple (executeOperation_guards env op s) rfl hrun)
  | minerFrozen addr height hrun =>
    exact h.of_guardEffect (StateProc.ok_of_triple (minerFrozen_guards addr height s) rfl hrun)
  | minerPenalty msg height hrun =>
    exact h.of_guardEffect (StateProc.ok_of_triple (minerPenalty_guards msg height s) rfl hrun)
  | guardNodesCheck order height hrun =>
    exact StateProc.ok_of_triple (guardNodesCheck_votersGuards order height) h hrun

/-- The run lemma: every reachable state keeps the invariant. -/
theorem votersGuards_of_reachable {s : State Address} (h : Reachable s) : VotersGuards s :=
  Transition.Reachable.induction (P := VotersGuards) (fun _ hs => votersGuards_init hs)
    (fun _ _ hs hst => hs.step hst) h

/-- Only guards vote: in every reachable state, an address that holds a vote has a proposer record
with the guard identity.  `checkVote` checks it when the vote is cast; the invariant says that the
guard expiry withdraws the vote of every guard that stops being one. -/
theorem voters_are_guards {s : State Address} (h : Reachable s) :
    ∀ g vf, s.vote g = some vf → ∃ m, s.miner g .proposal = some m ∧ m.IsGuard = true := by
  intro g vf hg
  have hguard := votersGuards_of_reachable h g (by simp [hg])
  unfold State.guardAt at hguard
  rw [Option.any_eq_true] at hguard
  exact hguard

set_option maxRecDepth 8192 in
theorem voters_are_guards_after_one_vote :
    ∃ m, oneVoteState.miner 5 .proposal = some m ∧ m.IsGuard = true := by
  have h0 : Init oneVoteGenesisState :=
    ⟨oneVoteEnv, oneVoteGenesis, ⟨by simp [oneVoteGenesis], by simp [oneVoteGenesis]⟩, rfl⟩
  have h1 : Step oneVoteGenesisState oneVoteState :=
    .executeOperation oneVoteEnv oneVoteOp trivial (show _ = EStateM.Result.ok newResult _ from rfl)
  exact voters_are_guards ((Transition.Reachable.init h0).step h1) 5 ⟨7, 1⟩ rfl

end Zvchain
