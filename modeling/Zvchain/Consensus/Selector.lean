import Zvchain.Lib.Outcome
import Zvchain.Lib.WeightedPick

/-!
# Candidate selection by stake (`consensus/group/selector.go`)

`newCandidateSelector` keeps the candidates with stake and sums their stakes into
`remainStake`; `fts` then draws `num` of them, at most as many as there are, following the satoshi:
the draw for the `i`-th pick is the derived random number `Deri(i)` modulo `remainStake`, and the
inner loop takes out the first candidate whose stake interval holds it, lowering `remainStake` by
its stake.  The outer loop repeats until enough are drawn, so a draw that no interval holds would
make it run for ever (`ftsLoop` returns `none` there), and a `remainStake` of zero would panic in
`ModuloUint64`.

While the stakes sum below `2 ^ 64`, the uint64 scan is the pick by weight over the numbers
(`scan_eq_pick`), `remainStake` stays the stake of the list (`Valid`), and so every draw lands
on a candidate: `fts` returns, with `min num n` distinct candidates with stake among the `n` there
are (`fts_sample`).

The seed's derivation is a parameter `deri`: `deri rand i` is the number whose big-endian bytes
are `RandFromBytes(rand).Deri(i)`, for any hash.
-/

namespace Zvchain

namespace Selector

/-- `candidateSelector`: the candidates not drawn yet, their stake and the seed. -/
structure candidateSelector (M : Type) where
  list : List M
  remainStake : UInt64
  rand : List UInt8

/-- `Rand.ModuloUint64`: the big-integer remainder, which panics on a zero modulus. -/
def ModuloUint64 (v : ℕ) (n : UInt64) : Outcome UInt64 :=
  if n = 0 then .panic "division by zero" else .ok (UInt64.ofNat (v % n.toNat))

variable {M : Type} (Stake : M → UInt64)

/-- `newCandidateSelector`: the candidates with stake, in order, and the uint64 sum of their
stakes. -/
def newCandidateSelector (cands : List M) (rand : List UInt8) : candidateSelector M :=
  let acc := cands.foldl (fun (acc : List M × UInt64) c =>
    if Stake c = 0 then acc else (acc.1 ++ [c], acc.2 + Stake c)) ([], 0)
  ⟨acc.1, acc.2, rand⟩

/-- The inner loop of `fts`: the first candidate whose stake interval holds `r`, taken out of the
list, with `cumulativeStake` the stake before it. -/
def scan (r : UInt64) : List M → UInt64 → Option (M × List M)
  | [], _ => none
  | m :: rest, cumulativeStake =>
    if Stake m + cumulativeStake > r then some (m, rest)
    else (scan r rest (cumulativeStake + Stake m)).map fun p => (p.1, m :: p.2)

-- the seed's derivation: the number `RandFromBytes(rand).Deri(i)` reads as
variable (deri : List UInt8 → ℕ → ℕ)

/-- The outer loop of `fts`, with `k` draws to go and `result` drawn so far. -/
def ftsLoop : ℕ → candidateSelector M → List M → Option (Outcome (candidateSelector M × List M))
  | 0, cs, result => some (.ok (cs, result))
  | k + 1, cs, result =>
    match ModuloUint64 (deri cs.rand result.length) cs.remainStake with
    | .ok r =>
      match scan Stake r cs.list 0 with
      | some (m, list) =>
        ftsLoop k { cs with list := list, remainStake := cs.remainStake - Stake m } (result ++ [m])
      -- no interval holds the draw: nothing changes, and the loop draws it again for ever
      | none => none
    | .error e => some (.error e)
    | .panic e => some (.panic e)

/-- `candidateSelector.fts`: the selector after the draws, and the candidates drawn. -/
def fts (cs : candidateSelector M) (num : ℕ) : Option (Outcome (candidateSelector M × List M)) :=
  let num := if num > cs.list.length then cs.list.length else num
  ftsLoop Stake deri num cs []

/-! ## The scan is the pick by stake -/

variable {Stake}

/-- The stake as a number. -/
def stakeOf (Stake : M → UInt64) (m : M) : ℕ := (Stake m).toNat

/-- While no sum wraps, the scan from a `cumulativeStake` at most `r` is the pick of what is left
of `r`. -/
theorem scan_eq_pick (r : UInt64) (l : List M) {cum : UInt64} (hle : cum.toNat ≤ r.toNat)
    (hw : cum.toNat + (l.map (stakeOf Stake)).sum < 2 ^ 64) :
    scan Stake r l cum = WeightedPick.pick (stakeOf Stake) (r.toNat - cum.toNat) l := by
  induction l generalizing cum with
  | nil => rfl
  | cons m l ih =>
    simp only [List.map_cons, List.sum_cons] at hw
    have hsum : (Stake m + cum).toNat = stakeOf Stake m + cum.toNat := by
      rw [UInt64.toNat_add]
      exact Nat.mod_eq_of_lt (by unfold stakeOf at hw; omega)
    have hsum' : (cum + Stake m).toNat = cum.toNat + stakeOf Stake m := by
      rw [UInt64.toNat_add]
      exact Nat.mod_eq_of_lt (by unfold stakeOf at hw; omega)
    rw [scan, WeightedPick.pick_cons]
    by_cases hin : r.toNat - cum.toNat < stakeOf Stake m
    · -- the interval of `m` holds `r`
      have hgt : Stake m + cum > r := by
        rw [GT.gt, UInt64.lt_iff_toNat_lt, hsum]
        omega
      rw [if_pos hgt, if_pos hin]
    · have hngt : ¬ Stake m + cum > r := by
        rw [GT.gt, UInt64.lt_iff_toNat_lt, hsum]
        omega
      rw [if_neg hngt, if_neg hin, ih (by rw [hsum']; omega) (by rw [hsum']; omega)]
      congr 2
      rw [hsum']
      omega

/-! ## `remainStake` is the stake of the list -/

/-- What `newCandidateSelector` sets up and each draw of `fts` keeps: every candidate in the list
has stake, and `remainStake` is the sum of their stakes, which does not wrap. -/
structure Valid (Stake : M → UInt64) (cs : candidateSelector M) : Prop where
  pos : ∀ m ∈ cs.list, Stake m ≠ 0
  remain : cs.remainStake.toNat = (cs.list.map (stakeOf Stake)).sum

theorem Valid.sum_lt {cs : candidateSelector M} (hv : Valid Stake cs) :
    (cs.list.map (stakeOf Stake)).sum < 2 ^ 64 := by
  rw [← hv.remain]
  exact cs.remainStake.toNat_lt

theorem sum_filter_stake (cands : List M) :
    ((cands.filter fun c => Stake c ≠ 0).map (stakeOf Stake)).sum =
      (cands.map (stakeOf Stake)).sum := by
  induction cands with
  | nil => rfl
  | cons c cands ih =>
    by_cases hc : Stake c = 0
    · have h0 : stakeOf Stake c = 0 := by simp [stakeOf, hc]
      rw [List.filter_cons_of_neg (by simp [hc]), ih, List.map_cons, List.sum_cons, h0, zero_add]
    · rw [List.filter_cons_of_pos (by simp [hc]), List.map_cons, List.sum_cons, List.map_cons,
        List.sum_cons, ih]

/-- The loop of `newCandidateSelector` from any start: it appends the candidates with stake and
adds their stakes, while the sum does not wrap. -/
theorem newCandidateSelector_foldl (cands : List M) (acc : List M × UInt64)
    (hw : acc.2.toNat + (cands.map (stakeOf Stake)).sum < 2 ^ 64) :
    let acc' := cands.foldl (fun (acc : List M × UInt64) c =>
      if Stake c = 0 then acc else (acc.1 ++ [c], acc.2 + Stake c)) acc
    acc'.1 = acc.1 ++ cands.filter (fun c => Stake c ≠ 0) ∧
      acc'.2.toNat = acc.2.toNat + (cands.map (stakeOf Stake)).sum := by
  induction cands generalizing acc with
  | nil => simp
  | cons c cands ih =>
    simp only [List.map_cons, List.sum_cons] at hw
    simp only [List.foldl_cons]
    by_cases hc : Stake c = 0
    · have h0 : stakeOf Stake c = 0 := by simp [stakeOf, hc]
      rw [if_pos hc]
      obtain ⟨h1, h2⟩ := ih acc (by omega)
      refine ⟨by simp [h1, hc], by simp [h2, h0]⟩
    · rw [if_neg hc]
      have hadd : (acc.2 + Stake c).toNat = acc.2.toNat + stakeOf Stake c := by
        rw [UInt64.toNat_add]
        exact Nat.mod_eq_of_lt (by unfold stakeOf at hw; omega)
      obtain ⟨h1, h2⟩ := ih (acc.1 ++ [c], acc.2 + Stake c) (by simp only [hadd]; omega)
      refine ⟨by simp [h1, hc], ?_⟩
      rw [h2, hadd]
      simp only [List.map_cons, List.sum_cons]
      omega

/-- `newCandidateSelector` keeps exactly the candidates with stake, and is valid while their
stakes sum below `2 ^ 64`. -/
theorem newCandidateSelector_spec (cands : List M) (rand : List UInt8)
    (hw : (cands.map (stakeOf Stake)).sum < 2 ^ 64) :
    (newCandidateSelector Stake cands rand).list = cands.filter (fun c => Stake c ≠ 0) ∧
      Valid Stake (newCandidateSelector Stake cands rand) := by
  obtain ⟨h1, h2⟩ := @newCandidateSelector_foldl M Stake cands ([], 0) (by simpa using hw)
  have hlist : (newCandidateSelector Stake cands rand).list =
      cands.filter (fun c => Stake c ≠ 0) :=
    h1.trans (List.nil_append _)
  refine ⟨hlist, ⟨?_, ?_⟩⟩
  · rw [hlist]
    intro m hm
    simpa using (List.mem_filter.mp hm).2
  · rw [hlist, sum_filter_stake]
    exact h2.trans (by simp)

/-! ## Each draw lands on a candidate -/

variable {deri}

/-- One draw of `fts` from a valid selector with candidates left: the candidate whose interval
holds the draw is taken out, and the selector stays valid. -/
theorem ftsLoop_succ (k : ℕ) {cs : candidateSelector M} (result : List M)
    (hv : Valid Stake cs) (hne : cs.list ≠ []) :
    ∃ m list, (m :: list).Perm cs.list ∧
      Valid Stake { cs with list := list, remainStake := cs.remainStake - Stake m } ∧
      ftsLoop Stake deri (k + 1) cs result =
        ftsLoop Stake deri k { cs with list := list, remainStake := cs.remainStake - Stake m }
          (result ++ [m]) := by
  have hsum := hv.sum_lt
  -- the list has a candidate, with stake, so `remainStake` is not zero
  obtain ⟨m₀, l₀, hl₀⟩ := List.exists_cons_of_ne_nil hne
  have hpos : 0 < cs.remainStake.toNat := by
    have hm₀ := hv.pos m₀ (by simp [hl₀])
    have : 0 < stakeOf Stake m₀ := by
      unfold stakeOf
      rw [← UInt64.toNat_zero] at *
      exact Nat.pos_of_ne_zero fun h => hm₀ (UInt64.toNat_inj.mp h)
    rw [hv.remain, hl₀, List.map_cons, List.sum_cons]
    omega
  have hne0 : cs.remainStake ≠ 0 := fun h => by simp [h] at hpos
  set r := UInt64.ofNat (deri cs.rand result.length % cs.remainStake.toNat) with hr
  have hrlt : r.toNat < cs.remainStake.toNat := by
    rw [hr, UInt64.toNat_ofNat_of_lt' (by
      have := cs.remainStake.toNat_lt
      have := Nat.mod_lt (deri cs.rand result.length) hpos
      unfold UInt64.size
      omega)]
    exact Nat.mod_lt _ hpos
  -- the scan is the pick of `r`, which lands on a candidate
  have hscan : scan Stake r cs.list 0 = WeightedPick.pick (stakeOf Stake) r.toNat cs.list := by
    simpa using @scan_eq_pick M Stake r cs.list 0 (by simp) (by simpa using hsum)
  obtain ⟨m, list, hpick⟩ := WeightedPick.pick_isSome (w := stakeOf Stake) (r := r.toNat)
    (l := cs.list) (by rw [← hv.remain]; exact hrlt)
  have hperm := WeightedPick.perm_of_pick hpick
  have hpart := WeightedPick.sum_of_pick hpick
  refine ⟨m, list, hperm, ⟨fun x hx => hv.pos x (hperm.subset (by simp [hx])), ?_⟩, ?_⟩
  · -- `remainStake` falls by the stake of `m`
    have hle : Stake m ≤ cs.remainStake := by
      rw [UInt64.le_iff_toNat_le, hv.remain, ← hpart]
      unfold stakeOf
      omega
    show (cs.remainStake - Stake m).toNat = (list.map (stakeOf Stake)).sum
    rw [UInt64.toNat_sub_of_le _ _ hle, hv.remain, ← hpart]
    have hm : (Stake m).toNat = stakeOf Stake m := rfl
    omega
  · rw [ftsLoop]
    simp only [ModuloUint64, if_neg hne0, ← hr, hscan, hpick]

/-- A run of `k` draws from a valid selector with at least `k` candidates returns: the drawn and
the left candidates are those of the start, and the selector stays valid. -/
theorem ftsLoop_spec (k : ℕ) {cs : candidateSelector M} (result : List M)
    (hv : Valid Stake cs) (hk : k ≤ cs.list.length) :
    ∃ cs' drawn, ftsLoop Stake deri k cs result = some (.ok (cs', result ++ drawn)) ∧
      drawn.length = k ∧ (drawn ++ cs'.list).Perm cs.list ∧ Valid Stake cs' := by
  -- on the draws to go, with the selector and the drawn candidates generalised
  induction k generalizing cs result with
  | zero => exact ⟨cs, [], by simp [ftsLoop], rfl, List.Perm.refl _, hv⟩
  | succ k ih =>
    have hne : cs.list ≠ [] := by
      intro h
      simp [h] at hk
    obtain ⟨m, list, hperm, hv', hstep⟩ := @ftsLoop_succ M Stake deri k cs result hv hne
    have hk' : k ≤ list.length := by
      have := hperm.length_eq
      simp only [List.length_cons] at this
      omega
    obtain ⟨cs', drawn, hrun, hlen, hperm', hv''⟩ := ih (result ++ [m]) hv' hk'
    refine ⟨cs', m :: drawn, by rw [hstep, hrun, List.append_assoc]; rfl, by simp [hlen], ?_, hv''⟩
    exact (hperm'.cons m).trans hperm

/-- `fts` on a selector set up by `newCandidateSelector` from candidates whose stakes sum below
`2 ^ 64` returns, for any seed and any `num`: it draws `min num n` of the `n` candidates with stake,
each at most as often as it stands among them (so distinct candidates when they are), all with
stake, and leaves `remainStake` the stake of those not drawn. -/
theorem fts_sample (cands : List M) (rand : List UInt8) (num : ℕ)
    (hw : (cands.map (stakeOf Stake)).sum < 2 ^ 64) :
    ∃ cs' drawn, fts Stake deri (newCandidateSelector Stake cands rand) num = some (.ok (cs', drawn)) ∧
      drawn.length = min num (cands.filter fun c => Stake c ≠ 0).length ∧
      (drawn ++ cs'.list).Perm (cands.filter fun c => Stake c ≠ 0) ∧
      (cands.Nodup → drawn.Nodup) ∧ (∀ m ∈ drawn, Stake m ≠ 0) ∧
      cs'.remainStake.toNat = (cs'.list.map (stakeOf Stake)).sum := by
  obtain ⟨hlist, hv⟩ := @newCandidateSelector_spec M Stake cands rand hw
  set cs := newCandidateSelector Stake cands rand
  have hnum : (if num > cs.list.length then cs.list.length else num) = min num cs.list.length := by
    split_ifs with h <;> omega
  obtain ⟨cs', drawn, hrun, hlen, hperm, hv'⟩ :=
    @ftsLoop_spec M Stake deri (min num cs.list.length) cs [] hv (Nat.min_le_right _ _)
  rw [hlist] at hperm
  refine ⟨cs', drawn, ?_, by rw [hlen, hlist], hperm, ?_, ?_, hv'.remain⟩
  · simpa [fts, hnum] using hrun
  · -- the drawn and the left candidates are the candidates with stake, once each
    intro hnd
    exact (List.nodup_append.mp ((hnd.filter _).perm hperm.symm)).1
  · intro m hm
    have := hperm.subset (List.mem_append_left cs'.list hm)
    simpa using (List.mem_filter.mp this).2

theorem fts_sample_two_of_three :
    let Stake : ℕ → UInt64 := UInt64.ofNat
    (([3, 0, 5] : List ℕ).map (stakeOf Stake)).sum < 2 ^ 64 ∧
      ∃ cs' drawn, fts Stake (fun _ i => 7 * i + 4) (newCandidateSelector Stake [3, 0, 5] []) 2 =
        some (.ok (cs', drawn)) ∧ drawn.length = 2 ∧ drawn.Nodup := by
  intro Stake
  have hw : (([3, 0, 5] : List ℕ).map (stakeOf Stake)).sum < 2 ^ 64 := by decide
  obtain ⟨cs', drawn, hrun, hlen, -, hnd, -⟩ :=
    @fts_sample ℕ Stake (fun _ i => 7 * i + 4) [3, 0, 5] [] 2 hw
  exact ⟨hw, cs', drawn, hrun, by rw [hlen]; decide, hnd (by decide)⟩

end Selector

end Zvchain
