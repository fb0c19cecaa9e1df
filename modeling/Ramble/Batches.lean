import Ramble.Parallel

/-!
# The distributed `isIndependentAnySubset`, batch by batch

`mine + others` starts at zero and restarts at every reduction, so the ranks
reduce after every `syncPeriod` subsets: the first count whose `uint32_t`
value is `threshold * comm.size()`, or `2 ^ 32` when that product wraps to
zero. `batchVerdict` reads the call off the scan: the complete batches are
reduced over all ranks, and after the last of them every rank decides on its
own round-robin share of the partial batch that is left. The communicator run
of `Parallel` returns exactly these verdicts, for every number of ranks, batch
threshold and score. A rank stops testing once its `minScore` certifies
independence; `Tracks` is what its `minScore` keeps of its share's minimum.
From this one run lemma follow the ranks' agreement at every collective, the
disjunction of their verdicts, and the verdicts' monotonicity in the cap.
-/

namespace Ramble.Parallel

open Oracle Subsets Scan

/-- The number of subsets between two reductions: the first count `k ≥ 1` whose
`uint32_t` value is `threshold * comm.size()`. -/
def syncPeriod (threshold : BitVec 32) (size : ℕ) : ℕ :=
  if (threshold * BitVec.ofNat 32 size).toNat = 0 then 2 ^ 32
  else (threshold * BitVec.ofNat 32 size).toNat

/-- The subsets of the complete batches among the first `n`. -/
def batched (threshold : BitVec 32) (size n : ℕ) : ℕ :=
  n / syncPeriod threshold size * syncPeriod threshold size

/-- The verdict of rank `rank` read off the scan `full`: the least score over the
complete batches, reduced over all ranks, together with the rank's round-robin
share of the partial batch after them. -/
def batchVerdict {w : ℕ} (d : DiscreteData w) (score : List (BitVec w) → ℚ) (threshold : BitVec 32)
    (size : ℕ) (full : List (List (BitVec w))) (rank : ℕ) : Bool :=
  d.isIndependent ((roundRobin rank size (batched threshold size full.length % size)
    (full.drop (batched threshold size full.length))).foldl (minStep score)
      (minScoreOf score (full.take (batched threshold size full.length))))

section Period

variable (threshold : BitVec 32) (size : ℕ)

theorem syncPeriod_pos : 0 < syncPeriod threshold size := by
  unfold syncPeriod
  split <;> omega

/-- Within a batch, the count meets `threshold * comm.size()` only at its end. -/
theorem ofNat_eq_mul_iff {k : ℕ} (hk : 0 < k) (hkp : k ≤ syncPeriod threshold size) :
    BitVec.ofNat 32 k = threshold * BitVec.ofNat 32 size ↔ k = syncPeriod threshold size := by
  have hc := (threshold * BitVec.ofNat 32 size).isLt
  rw [BitVec.toNat_eq, BitVec.toNat_ofNat]
  unfold syncPeriod at hkp ⊢
  split_ifs at hkp ⊢ <;> omega

theorem batched_le (n : ℕ) : batched threshold size n ≤ n := Nat.div_mul_le_self _ _

theorem batched_mono {n n' : ℕ} (h : n ≤ n') : batched threshold size n ≤ batched threshold size n' :=
  Nat.mul_le_mul_right _ (Nat.div_le_div_right h)

end Period

section Shares

variable {α : Type*} (size : ℕ)

/-- A share is a sublist of the scan. -/
theorem roundRobin_sublist (rank r : ℕ) (zs : List α) : (roundRobin rank size r zs).Sublist zs := by
  induction zs generalizing r with
  | nil => exact List.Sublist.slnil
  | cons z zs ih =>
    unfold roundRobin
    split
    · exact (ih _).cons₂ z
    · exact (ih _).cons z

/-- Every subset of the scan falls to some rank, once the pointer names one. -/
theorem exists_mem_roundRobin {z : α} {zs : List α} (hz : z ∈ zs) {r : ℕ} (hr : r < size) :
    ∃ i < size, z ∈ roundRobin i size r zs := by
  induction zs generalizing r with
  | nil => cases hz
  | cons z' zs ih =>
    rcases List.mem_cons.1 hz with rfl | hz
    · exact ⟨r, hr, by simp [roundRobin]⟩
    · obtain ⟨i, hi, hmem⟩ := ih hz (Nat.mod_lt _ (by omega))
      refine ⟨i, hi, ?_⟩
      unfold roundRobin
      split
      exacts [List.mem_cons_of_mem _ hmem, hmem]

/-- Dealing two parts in turn: the second starts where the first left the pointer. -/
theorem roundRobin_append (rank : ℕ) {r : ℕ} (hr : r < size) (first second : List α) :
    roundRobin rank size r (first ++ second) =
      roundRobin rank size r first ++ roundRobin rank size ((r + first.length) % size) second := by
  induction first generalizing r with
  | nil => rw [List.nil_append, List.length_nil, Nat.add_zero, Nat.mod_eq_of_lt hr]; rfl
  | cons z first ih =>
    have hr' : ((r + 1) % size + first.length) % size = (r + (first.length + 1)) % size := by
      rw [Nat.mod_add_mod, Nat.add_right_comm, Nat.add_assoc]
    rw [List.cons_append, roundRobin, roundRobin, ih (Nat.mod_lt _ (by omega)), hr', List.length_cons]
    split <;> rfl

/-- Moving the end of the complete batches from `b` to a later `c` loses no
subset a rank sees: those dealt between the two join the complete batches. -/
theorem take_append_roundRobin_subset (rank : ℕ) (hsize : 0 < size) {b c : ℕ} (hbc : b ≤ c)
    (zs : List α) : zs.take b ++ roundRobin rank size (b % size) (zs.drop b) ⊆
      zs.take c ++ roundRobin rank size (c % size) (zs.drop c) := by
  have hsplit : zs.drop b = (zs.drop b).take (c - b) ++ zs.drop c := by
    rw [← Nat.add_sub_cancel' hbc, ← List.drop_drop, Nat.add_sub_cancel_left, List.take_append_drop]
  have hmid : (zs.drop b).take (c - b) ⊆ zs.take c := by
    rw [← List.drop_take]
    exact List.drop_subset _ _
  have htail : roundRobin rank size ((b % size + ((zs.drop b).take (c - b)).length) % size) (zs.drop c) =
      roundRobin rank size (c % size) (zs.drop c) := by
    by_cases hc : c ≤ zs.length
    · rw [List.length_take, List.length_drop, min_eq_left (by omega), Nat.mod_add_mod,
        Nat.add_sub_cancel' hbc]
    · rw [List.drop_eq_nil_of_le (show zs.length ≤ c by omega)]
      rfl
  rw [hsplit, roundRobin_append size rank (Nat.mod_lt _ hsize), htail]
  intro v hv
  simp only [List.mem_append] at hv ⊢
  rcases hv with hv | hv | hv
  · exact .inl (List.take_subset_take_left zs hbc hv)
  · exact .inl (hmid ((roundRobin_sublist size _ _ _).subset hv))
  · exact .inr hv

end Shares

section Tracks

variable {w : ℕ} (d : DiscreteData w)

/-- What a rank's `minScore` keeps of `m`, the least score of its share so far:
the verdict, and the value itself while it certifies nothing. A rank that
certifies independence skips its remaining tests, so its `minScore` may stay
above `m`. -/
structure Tracks (minScore m : ℚ) : Prop where
  /-- The same verdict. -/
  verdict : d.isIndependent minScore = d.isIndependent m
  /-- The same value while the verdict is dependence. -/
  exact : d.isIndependent m = false → minScore = m

variable {d}

theorem Tracks.refl (m : ℚ) : Tracks d m m := ⟨rfl, fun _ => rfl⟩

/-- One subset: the conducting rank's `minScore` tracks the minimum with the
subset's score taken in, every other rank's the minimum without it. -/
theorem Tracks.visit {st : RankState} {m : ℚ} (h : Tracks d st.minScore m) (rank : ℕ) (s : ℚ) :
    Tracks d (st.visit d rank s).minScore (if rank = st.r then min s m else m) := by
  rw [RankState.minScore_visit]
  by_cases hr : rank = st.r
  · rw [if_pos hr]
    cases hi : d.isIndependent st.minScore
    · rw [if_pos ⟨hr, rfl⟩, h.exact (h.verdict.symm.trans hi), min_comm]
      exact Tracks.refl _
    · have hm : d.isIndependent (min s m) = true :=
        d.isIndependent_of_le (min_le_right s m) (h.verdict.symm.trans hi)
      simp only [Bool.true_eq_false, and_false, if_false]
      exact ⟨hi.trans hm.symm, fun hf => absurd (hm.symm.trans hf) (by decide)⟩
  · rw [if_neg hr, if_neg fun h' => hr h'.1]
    exact h

/-- A reduction over ranks that track the least scores of their shares of a
batch tracks the least score of the whole batch. -/
theorem Tracks.allreduce {size r : ℕ} (hsize : 0 < size) (hr : r < size)
    (score : List (BitVec w) → ℚ) (zs : List (List (BitVec w))) {v : ℚ} (hv : v ≤ maxDouble)
    {f : ℕ → ℚ} (h : ∀ i < size, Tracks d (f i) ((roundRobin i size r zs).foldl (minStep score) v)) :
    Tracks d (allreduceMin ((List.range size).map f)) (zs.foldl (minStep score) v) := by
  have hle : ∀ i, zs.foldl (minStep score) v ≤ (roundRobin i size r zs).foldl (minStep score) v :=
    fun i => le_foldl_minStep score (foldl_minStep_le score zs v) fun c hc =>
      foldl_minStep_le_score score ((roundRobin_sublist size i r zs).subset hc) v
  obtain ⟨j, hj, hjle⟩ : ∃ j < size,
      (roundRobin j size r zs).foldl (minStep score) v ≤ zs.foldl (minStep score) v := by
    rcases foldl_minStep_cases score zs v with heq | ⟨c, hc, heq⟩
    · exact ⟨0, hsize, (foldl_minStep_le score _ v).trans_eq heq.symm⟩
    · obtain ⟨j, hj, hmem⟩ := exists_mem_roundRobin size hc hr
      exact ⟨j, hj, (foldl_minStep_le_score score hmem v).trans_eq heq.symm⟩
  have hfj : Tracks d (f j) (zs.foldl (minStep score) v) := le_antisymm hjle (hle j) ▸ h j hj
  have hmin : allreduceMin ((List.range size).map f) ≤ f j :=
    allreduceMin_le (List.mem_map.2 ⟨j, List.mem_range.2 hj, rfl⟩)
  cases hF : d.isIndependent (zs.foldl (minStep score) v)
  · have hexact : ∀ i < size, f i = (roundRobin i size r zs).foldl (minStep score) v := fun i hi =>
      (h i hi).exact (Bool.eq_false_iff.2 fun hi' => by
        rw [d.isIndependent_of_le (hle i) hi'] at hF
        cases hF)
    have heq : allreduceMin ((List.range size).map f) = zs.foldl (minStep score) v :=
      le_antisymm (hmin.trans_eq (hfj.exact hF))
        (le_allreduceMin_range (fun i hi => (hexact i hi).symm ▸ hle i)
          ((foldl_minStep_le score zs v).trans hv))
    exact heq ▸ Tracks.refl _
  · have hind : d.isIndependent (allreduceMin ((List.range size).map f)) = true :=
      d.isIndependent_of_le hmin (hfj.verdict.trans hF)
    exact ⟨hind.trans hF.symm, fun hf => absurd (hF.symm.trans hf) (by decide)⟩

end Tracks

section Batch

variable {w : ℕ} (d : DiscreteData w) (x y : BitVec w) (threshold : BitVec 32) (size : ℕ)

/-- A rank `k` subsets into a batch, its `minScore` tracking `m`, returns at the
end of the scan with the verdict of its share when the batch does not fill up,
and otherwise blocks at the batch's last subset, its `minScore` tracking the
least score of its share of the batch. -/
theorem runToSync_batch (rank : ℕ) (zs : List (List (BitVec w))) (g k : ℕ) (st : RankState) (m : ℚ)
    (hk : st.batch = BitVec.ofNat 32 k) (hkp : k < syncPeriod threshold size)
    (hm : Tracks d st.minScore m) :
    (zs.length + k < syncPeriod threshold size →
      runToSync d x y threshold size rank zs g st =
        .returned (d.isIndependent ((roundRobin rank size st.r zs).foldl (minStep (d.assocScore x y)) m))) ∧
    (syncPeriod threshold size ≤ zs.length + k → ∃ st',
      runToSync d x y threshold size rank zs g st = .allreduce (g + (syncPeriod threshold size - k - 1))
        st' (zs.drop (syncPeriod threshold size - k)) ∧
      (st'.advance size).r = (st.r + (syncPeriod threshold size - k)) % size ∧
      Tracks d st'.minScore ((roundRobin rank size st.r (zs.take (syncPeriod threshold size - k))).foldl
        (minStep (d.assocScore x y)) m)) := by
  induction zs generalizing g k st m with
  | nil => exact ⟨fun _ => by rw [runToSync, hm.verdict]; rfl, fun h => by simp at h; omega⟩
  | cons z zs ih =>
    have hb : (st.visit d rank (d.assocScore x y z)).batch = BitVec.ofNat 32 (k + 1) := by
      rw [RankState.batch_visit, hk, BitVec.ofNat_add]
      rfl
    have hsync : (st.visit d rank (d.assocScore x y z)).syncDue threshold size = true ↔
        k + 1 = syncPeriod threshold size := by
      rw [RankState.syncDue, hb, beq_iff_eq, ofNat_eq_mul_iff threshold size (Nat.succ_pos k) hkp]
    have hv := hm.visit rank (d.assocScore x y z)
    have hshare : ∀ l : List (List (BitVec w)),
        (roundRobin rank size st.r (z :: l)).foldl (minStep (d.assocScore x y)) m =
          (roundRobin rank size ((st.r + 1) % size) l).foldl (minStep (d.assocScore x y))
            (if rank = st.r then min (d.assocScore x y z) m else m) := fun l => by
      by_cases hr : rank = st.r
      · rw [roundRobin, if_pos hr, if_pos hr, List.foldl_cons]
        rfl
      · rw [roundRobin, if_neg hr, if_neg hr]
    obtain ⟨n, hn⟩ : ∃ n, syncPeriod threshold size - k = n + 1 := ⟨_, (Nat.succ_pred_eq_of_pos (by omega)).symm⟩
    by_cases hs : k + 1 = syncPeriod threshold size
    · have hn0 : n = 0 := by omega
      subst hn0
      refine ⟨fun h => by simp at h; omega, fun _ => ⟨st.visit d rank (d.assocScore x y z), ?_, ?_, ?_⟩⟩
      · rw [runToSync, if_pos (hsync.2 hs), hn]
        rfl
      · rw [hn, RankState.r_advance, RankState.r_visit]
      · rw [hn, List.take_succ_cons, List.take_zero, hshare]
        exact hv
    · have hn' : syncPeriod threshold size - (k + 1) = n := by omega
      obtain ⟨ih1, ih2⟩ := ih (g + 1) (k + 1) ((st.visit d rank (d.assocScore x y z)).advance size) _
        (by rw [RankState.batch_advance, hb]) (by omega) hv
      rw [hn'] at ih2
      simp only [RankState.r_advance, RankState.r_visit] at ih1 ih2
      have hnext : runToSync d x y threshold size rank (z :: zs) g st = runToSync d x y threshold size rank zs
          (g + 1) ((st.visit d rank (d.assocScore x y z)).advance size) := by
        rw [runToSync, if_neg (mt hsync.1 hs)]
      refine ⟨fun h => by rw [hnext, ih1 (by simp at h; omega), hshare], fun h => ?_⟩
      obtain ⟨st', h1, h2, h3⟩ := ih2 (by simp at h; omega)
      refine ⟨st', ?_, ?_, ?_⟩
      · rw [hnext, h1, hn, List.drop_succ_cons]
        congr 1
        omega
      · rw [RankState.r_advance, h2, Nat.mod_add_mod, hn]
        congr 1
        omega
      · rw [hn, List.take_succ_cons, hshare]
        exact h3

/-- From a common start at the beginning of a batch, every rank's pointer at `r`
and `minScore` at `v`, the communicator ends, with rounds enough, in the
verdicts of the batches: the least score of the complete batches taken in from
`v`, together with each rank's share of the partial batch after them. -/
theorem commRun_batches (hsize : 0 < size) (fuel : ℕ) (zs : List (List (BitVec w))) (g : ℕ) {r : ℕ}
    (hr : r < size) {v : ℚ} (hv : v ≤ maxDouble) (hfuel : zs.length / syncPeriod threshold size < fuel) :
    commRun d x y threshold size fuel (fun i => runToSync d x y threshold size i zs g ⟨0, 0, r, v⟩) =
      .returned ((List.range size).map fun i => d.isIndependent
        ((roundRobin i size ((r + batched threshold size zs.length) % size)
          (zs.drop (batched threshold size zs.length))).foldl (minStep (d.assocScore x y))
            ((zs.take (batched threshold size zs.length)).foldl (minStep (d.assocScore x y)) v))) := by
  induction fuel generalizing zs g r v with
  | zero => exact absurd hfuel (Nat.not_lt_zero _)
  | succ fuel ih =>
    have hp := syncPeriod_pos threshold size
    have hrun := fun i => runToSync_batch d x y threshold size i zs g 0 ⟨0, 0, r, v⟩ v rfl hp (Tracks.refl v)
    by_cases hlen : zs.length < syncPeriod threshold size
    · have hret := fun i => (hrun i).1 (by omega)
      rw [commRun_of_returned d x y threshold size fuel fun i _ => by rw [hret i]; rfl,
        batched, Nat.div_eq_of_lt hlen, zero_mul]
      simp only [add_zero, Nat.mod_eq_of_lt hr, List.drop_zero, List.take_zero, List.foldl_nil]
      exact congrArg _ (List.map_congr_left fun i _ => by rw [hret i]; rfl)
    · have hle : syncPeriod threshold size ≤ zs.length := not_lt.1 hlen
      choose sts hsts using fun i => (hrun i).2 (by omega)
      simp only [Nat.sub_zero, zero_add] at hsts
      have hshape : ∀ i < size, (runToSync d x y threshold size i zs g ⟨0, 0, r, v⟩).shape =
          some (g + (syncPeriod threshold size - 1), zs.drop (syncPeriod threshold size)) :=
        fun i _ => by rw [(hsts i).1]; rfl
      have hcontrib : (List.range size).map (fun i => (runToSync d x y threshold size i zs g ⟨0, 0, r, v⟩).contribution) =
          (List.range size).map fun i => (sts i).minScore :=
        List.map_congr_left fun i _ => by rw [(hsts i).1]; rfl
      have hu := Tracks.allreduce hsize hr (d.assocScore x y) _ hv fun i _ => (hsts i).2.2
      rw [commRun_of_allreduce d x y threshold size fuel hsize hshape, hcontrib]
      generalize allreduceMin ((List.range size).map fun i => (sts i).minScore) = u at hu ⊢
      have hbat : batched threshold size zs.length =
          syncPeriod threshold size + batched threshold size (zs.drop (syncPeriod threshold size)).length := by
        rw [batched, batched, List.length_drop, Nat.div_eq_sub_div hp hle, Nat.succ_mul, add_comm]
      have hfuel' : (zs.length - syncPeriod threshold size) / syncPeriod threshold size < fuel := by
        rw [Nat.div_eq_sub_div hp hle] at hfuel
        exact Nat.lt_of_succ_lt_succ hfuel
      cases hind : d.isIndependent u
      · have hexact := hu.exact (hu.verdict.symm.trans hind)
        have hstate : ∀ i, resume d x y threshold size i u (runToSync d x y threshold size i zs g ⟨0, 0, r, v⟩) =
            runToSync d x y threshold size i (zs.drop (syncPeriod threshold size))
              (g + (syncPeriod threshold size - 1) + 1) ⟨0, 0, (r + syncPeriod threshold size) % size, u⟩ :=
          fun i => by
            rw [(hsts i).1, resume, if_neg (by rw [hind]; exact Bool.false_ne_true), ← (hsts i).2.1]
            rfl
        simp only [hstate]
        rw [ih _ _ (Nat.mod_lt _ hsize) (hexact ▸ (foldl_minStep_le _ _ _).trans hv)
          (by rwa [List.length_drop])]
        refine congrArg _ (List.map_congr_left fun i _ => ?_)
        rw [hbat, Nat.mod_add_mod, add_assoc, List.drop_drop, List.take_add, List.foldl_append, hexact]
      · obtain ⟨fuel, rfl⟩ := Nat.exists_eq_succ_of_ne_zero ((Nat.zero_le _).trans_lt hfuel').ne'
        have hret : ∀ i, resume d x y threshold size i u (runToSync d x y threshold size i zs g ⟨0, 0, r, v⟩) =
            .returned true := fun i => by rw [(hsts i).1, resume, if_pos hind]
        rw [commRun_of_returned d x y threshold size fuel fun i _ => by rw [hret i]; rfl]
        have hpre : (zs.take (batched threshold size zs.length)).foldl (minStep (d.assocScore x y)) v ≤
            (zs.take (syncPeriod threshold size)).foldl (minStep (d.assocScore x y)) v := by
          obtain ⟨t, ht⟩ := List.take_prefix_take_left zs (hbat ▸ Nat.le_add_right _ _)
          rw [← ht, List.foldl_append]
          exact foldl_minStep_le _ _ _
        have hcert := isIndependent_foldl_minStep d (d.assocScore x y)
        refine congrArg _ (List.map_congr_left fun i _ => ?_)
        rw [hret i, hcert _ (d.isIndependent_of_le hpre (hu.verdict.symm.trans hind))]
        rfl

end Batch

section Verdicts

variable {w : ℕ} (d : DiscreteData w) (x y : BitVec w) (threshold : BitVec 32) (size : ℕ)
  (given : List (BitVec w)) (maxSize : BitVec w)

/-- The communicator run of any scan, from the ranks' first calls. -/
theorem commRun_init (hsize : 0 < size) (zs : List (List (BitVec w))) :
    commRun d x y threshold size (zs.length + 1) (fun rank => runToSync d x y threshold size rank zs 0 RankState.init) =
      .returned ((List.range size).map (batchVerdict d (d.assocScore x y) threshold size zs)) := by
  rw [show RankState.init = ⟨0, 0, 0, maxDouble⟩ from rfl,
    commRun_batches d x y threshold size hsize _ _ 0 hsize le_rfl (Nat.lt_succ_of_le (Nat.div_le_self _ _))]
  simp only [zero_add]
  rfl

/-- Some rank's verdict certifies independence exactly when the least score of
the whole scan does: every subset lies in the complete batches or in some
rank's share, and a rank sees only subsets of the scan. -/
theorem any_batchVerdict (hsize : 0 < size) (score : List (BitVec w) → ℚ)
    (full : List (List (BitVec w))) :
    ((List.range size).map (batchVerdict d score threshold size full)).any id =
      d.isIndependent (minScoreOf score full) := by
  have hseen : ∀ i, batchVerdict d score threshold size full i = d.isIndependent (minScoreOf score
      (full.take (batched threshold size full.length) ++ roundRobin i size
        (batched threshold size full.length % size) (full.drop (batched threshold size full.length)))) :=
    fun i => by rw [batchVerdict, minScoreOf, minScoreOf, List.foldl_append]
  rw [Bool.eq_iff_iff, any_map_range]
  constructor
  · rintro ⟨i, -, h⟩
    rw [hseen] at h
    exact d.isIndependent_of_le (foldl_minStep_le_of_subset _ (List.append_subset.2 ⟨List.take_subset _ _,
      (roundRobin_sublist size _ _ _).subset.trans (List.drop_subset _ _)⟩) _) h
  · intro h
    rcases foldl_minStep_cases score full maxDouble with hm | ⟨c, hc, hm⟩ <;> rw [minScoreOf, hm] at h
    · exact ⟨0, hsize, by rw [hseen]; exact d.isIndependent_of_le (foldl_minStep_le _ _ _) h⟩
    · obtain ⟨i, hi, hci⟩ : ∃ i < size, c ∈ full.take (batched threshold size full.length) ++
          roundRobin i size (batched threshold size full.length % size)
            (full.drop (batched threshold size full.length)) := by
        rw [← List.take_append_drop (batched threshold size full.length) full] at hc
        rcases List.mem_append.1 hc with hc | hc
        · exact ⟨0, hsize, List.mem_append_left _ hc⟩
        · obtain ⟨i, hi, hci⟩ := exists_mem_roundRobin size hc (Nat.mod_lt _ hsize)
          exact ⟨i, hi, List.mem_append_right _ hci⟩
      exact ⟨i, hi, by rw [hseen]; exact d.isIndependent_of_le (foldl_minStep_le_score _ hci _) h⟩

/-- Every rank returns, and some rank returns `true` exactly when the least score
over the whole scan certifies independence. -/
theorem isIndependentAnySubsetComm_verdict (hsize : 0 < size) :
    ∃ results, isIndependentAnySubsetComm d x y threshold size given maxSize = .returned results ∧
      results.length = size ∧
      results.any id =
        d.isIndependent (minScoreOf (d.assocScore x y) (scanOrder given (subsetSize given maxSize))) :=
  ⟨_, commRun_init d x y threshold size hsize _, by rw [List.length_map, List.length_range],
    any_batchVerdict d threshold size hsize _ _⟩

/-- On every communicator, for every batch threshold (the `uint32_t` product
`threshold * comm.size()` wrapping or not), pair, conditioning set, cap and
score, every rank returns; at every collective the communicator reaches, all
ranks wait in `mxx::allreduce` at the same subset index with the same subsets
left; and with the reduced minimum `v` they all return `true` when `v`
certifies independence, and otherwise all run on from the next subset in one
state: `minScore = v`, `mine = others = 0`, and the same rank to conduct. -/
theorem isIndependentAnySubsetComm_collectives_match (hsize : 0 < size) :
    (∃ results, isIndependentAnySubsetComm d x y threshold size given maxSize = .returned results ∧
      results.length = size) ∧
    ∀ ranks, Reachable d x y threshold size (scanOrder given (subsetSize given maxSize)) ranks →
      ∀ g rest, (∃ i < size, (ranks i).shape = some (g, rest)) →
        (∀ j < size, (ranks j).shape = some (g, rest)) ∧
        ∀ v, v = allreduceMin ((List.range size).map fun j => (ranks j).contribution) →
          (d.isIndependent v = true →
            ∀ j < size, resume d x y threshold size j v (ranks j) = .returned true) ∧
          (d.isIndependent v = false → ∃ r, ∀ j < size,
            resume d x y threshold size j v (ranks j) = runToSync d x y threshold size j rest (g + 1) ⟨0, 0, r, v⟩) := by
  refine ⟨⟨_, commRun_init d x y threshold size hsize _, by rw [List.length_map, List.length_range]⟩,
    fun ranks hreach g rest ⟨i, hi, hg⟩ => ?_⟩
  rcases roundInv_of_reachable d x y threshold size hsize hreach with hr | ⟨g', rest', sts, hl, hr⟩
  · have hs := hr i hi
    rw [hg] at hs
    cases hs
  · rw [hr i hi] at hg
    obtain ⟨rfl, rfl⟩ : g' = g ∧ rest' = rest := Prod.mk.inj (Option.some.inj hg)
    refine ⟨fun j hj => by rw [hr j hj]; rfl,
      fun v _ => ⟨fun hind j hj => ?_, fun hind => ⟨((sts 0).r + 1) % size, fun j hj => ?_⟩⟩⟩
    · rw [hr j hj, resume, if_pos hind]
    · rw [hr j hj, resume, if_neg (by rw [hind]; exact Bool.false_ne_true), ← hl.r_eq j hj]
      rfl

theorem isIndependentAnySubsetComm_collectives_match_typical :
    0 < 2 ∧ runToSync typicalData 0 1 1 2 0 (scanOrder [2] (subsetSize ([2] : List (BitVec 8)) 1)) 0
        RankState.init = .allreduce 1 ⟨1, 1, 1, 99 / 100⟩ [] ∧
      ((∃ results, isIndependentAnySubsetComm typicalData 0 1 1 2 [2] 1 = .returned results ∧
        results.length = 2) ∧
      ∀ ranks, Reachable typicalData 0 1 1 2 (scanOrder [2] (subsetSize ([2] : List (BitVec 8)) 1)) ranks →
        ∀ g rest, (∃ i < 2, (ranks i).shape = some (g, rest)) →
          (∀ j < 2, (ranks j).shape = some (g, rest)) ∧
          ∀ v, v = allreduceMin ((List.range 2).map fun j => (ranks j).contribution) →
            (typicalData.isIndependent v = true →
              ∀ j < 2, resume typicalData 0 1 1 2 j v (ranks j) = .returned true) ∧
            (typicalData.isIndependent v = false → ∃ r, ∀ j < 2,
              resume typicalData 0 1 1 2 j v (ranks j) = runToSync typicalData 0 1 1 2 j rest (g + 1) ⟨0, 0, r, v⟩)) := by
  have h0 : runToSync typicalData 0 1 1 2 0 (scanOrder [2] (subsetSize ([2] : List (BitVec 8)) 1)) 0
      RankState.init = .allreduce 1 ⟨1, 1, 1, 99 / 100⟩ [] := by
    with_unfolding_all decide
  exact ⟨two_pos, h0, isIndependentAnySubsetComm_collectives_match typicalData 0 1 1 2 [2] 1 two_pos⟩

/-- For every number of ranks, every batch threshold (the product
`threshold * comm.size()` wrapping or not), pair, conditioning set, cap and
score, the distributed `isIndependentAnySubset` returns on each rank the
verdict of the batches: the least score over the complete batches of the
scan, reduced over all ranks, together with the rank's own round-robin share
of the partial batch after them. -/
theorem isIndependentAnySubsetComm_eq_batchVerdict (hsize : 0 < size) :
    isIndependentAnySubsetComm d x y threshold size given maxSize =
      .returned ((List.range size).map (batchVerdict d (d.assocScore x y) threshold size
        (scanOrder given (subsetSize given maxSize)))) :=
  commRun_init d x y threshold size hsize _

theorem isIndependentAnySubsetComm_eq_batchVerdict_typical :
    0 < 2 ∧ isIndependentAnySubsetComm typicalData 0 1 1 2 [2] 1 =
      .returned ((List.range 2).map (batchVerdict typicalData (typicalData.assocScore 0 1) 1 2
        (scanOrder [2] (subsetSize ([2] : List (BitVec 8)) 1)))) :=
  ⟨two_pos, isIndependentAnySubsetComm_eq_batchVerdict typicalData 0 1 1 2 [2] 1 two_pos⟩

/-- When the last subset of the scan closes a batch, no partial batch is left
to a rank alone: every rank returns the verdict of the least score over the
whole scan, as a single rank does. -/
theorem isIndependentAnySubsetComm_closed_batches (hsize : 0 < size)
    (hdvd : syncPeriod threshold size ∣ (scanOrder given (subsetSize given maxSize)).length) :
    isIndependentAnySubsetComm d x y threshold size given maxSize =
      .returned (List.replicate size
        (d.isIndependent (minScoreOf (d.assocScore x y) (scanOrder given (subsetSize given maxSize))))) := by
  have hb : batched threshold size (scanOrder given (subsetSize given maxSize)).length =
      (scanOrder given (subsetSize given maxSize)).length := Nat.div_mul_cancel hdvd
  rw [isIndependentAnySubsetComm, commRun_init d x y threshold size hsize]
  unfold batchVerdict
  simp only [hb, List.drop_length, List.take_length, roundRobin, List.foldl_nil,
    List.map_const', List.length_range, minScoreOf]

theorem isIndependentAnySubsetComm_closed_batches_typical :
    0 < 2 ∧ syncPeriod 1 2 ∣ (scanOrder [2] (subsetSize ([2] : List (BitVec 8)) 1)).length ∧
      isIndependentAnySubsetComm typicalData 0 1 1 2 [2] 1 = .returned [true, true] := by
  have hdvd : syncPeriod 1 2 ∣ (scanOrder [2] (subsetSize ([2] : List (BitVec 8)) 1)).length := by
    decide
  refine ⟨two_pos, hdvd,
    (isIndependentAnySubsetComm_closed_batches typicalData 0 1 1 2 [2] 1 two_pos hdvd).trans ?_⟩
  with_unfolding_all decide

/-- The scan of a cap of `0`, or of an empty conditioning set, is the empty set alone. -/
theorem scanOrder_single (hgiven : given = [] ∨ maxSize = 0) :
    scanOrder given (subsetSize given maxSize) = [[]] := by
  have h0 : subsetSize given maxSize = 0 := by
    rcases hgiven with rfl | rfl <;> simp [subsetSize]
  rw [h0, scanOrder, levels_eq_cons]
  rfl

/-- A scan of the empty set alone (a cap of `0`, or no conditioning variable) on
two or more ranks, unless `threshold * comm.size()` is `1` in `uint32_t`: no
reduction runs, rank `0` returns the verdict of the empty set, and every other
rank, having tested nothing, returns the verdict of `DBL_MAX`, dependence for
every threshold `α ≥ 0`. -/
theorem isIndependentAnySubsetComm_single_subset (h0 : 0 ≤ d.threshold) (hsize : 2 ≤ size)
    (hT : threshold * BitVec.ofNat 32 size ≠ 1) (hgiven : given = [] ∨ maxSize = 0) :
    isIndependentAnySubsetComm d x y threshold size given maxSize =
      .returned (d.isIndependent (d.assocScore x y []) :: List.replicate (size - 1) false) := by
  have hp : 1 < syncPeriod threshold size := by
    have hT' : (threshold * BitVec.ofNat 32 size).toNat ≠ 1 := fun h => hT (BitVec.eq_of_toNat_eq h)
    unfold syncPeriod
    split <;> omega
  have hb : batched threshold size [([] : List (BitVec w))].length = 0 := by
    rw [batched, List.length_singleton, Nat.div_eq_of_lt hp, zero_mul]
  have hmax : d.isIndependent maxDouble = false := Bool.eq_false_iff.2 fun h => by
    rw [DiscreteData.isIndependent_iff] at h
    have : (1 : ℚ) < maxDouble := by norm_num [maxDouble]
    linarith
  obtain ⟨n, rfl⟩ : ∃ n, size = n + 1 := ⟨size - 1, by omega⟩
  rw [isIndependentAnySubsetComm, commRun_init d x y threshold (n + 1) (Nat.succ_pos n),
    scanOrder_single given maxSize hgiven, List.range_succ_eq_map, List.map_cons, List.map_map,
    Nat.add_sub_cancel]
  unfold batchVerdict
  simp only [hb, Nat.zero_mod, List.drop_zero, List.take_zero, List.foldl_nil, minScoreOf,
    roundRobin, if_true, List.foldl_cons, minStep, min_eq_left (d.assocScore_lt_maxDouble x y []).le]
  refine congrArg _ (congrArg _ ((List.map_congr_left fun i _ => ?_).trans
    ((List.map_const' _ false).trans (by rw [List.length_range]))))
  simp [hmax]

/-- Every test certifies independence at `1/20`: every p-value is `1/2`. -/
def quietData : DiscreteData 8 where
  n := 3
  varNames := ["x", "y", "z"]
  threshold := 1 / 20
  pValue _ _ _ := 1 / 2
  pValue_nonneg _ _ _ := by norm_num
  pValue_le_one _ _ _ := by norm_num

theorem isIndependentAnySubsetComm_single_subset_quiet :
    0 ≤ quietData.threshold ∧ 2 ≤ 2 ∧ (1 : BitVec 32) * BitVec.ofNat 32 2 ≠ 1 ∧
      (([2] : List (BitVec 8)) = [] ∨ (0 : BitVec 8) = 0) ∧
      isIndependentAnySubsetComm quietData 0 1 1 2 [2] 0 = .returned [true, false] := by
  have h0 : 0 ≤ quietData.threshold := by with_unfolding_all decide
  have hT : (1 : BitVec 32) * BitVec.ofNat 32 2 ≠ 1 := by decide
  have hg : ([2] : List (BitVec 8)) = [] ∨ (0 : BitVec 8) = 0 := .inr rfl
  refine ⟨h0, le_rfl, hT, hg,
    (isIndependentAnySubsetComm_single_subset quietData 0 1 1 2 [2] 0 h0 le_rfl hT hg).trans ?_⟩
  with_unfolding_all decide

/-- A rank that finds independence on a scan finds it on any longer scan: what
it saw of the shorter one it sees again, in its own share or in the complete
batches, which the reduction shares with it. -/
theorem batchVerdict_append (hsize : 0 < size) (score : List (BitVec w) → ℚ)
    (full more : List (List (BitVec w))) {rank : ℕ} (h : batchVerdict d score threshold size full rank = true) :
    batchVerdict d score threshold size (full ++ more) rank = true := by
  have hb := batched_le threshold size full.length
  have hb' := batched_mono threshold size (List.sublist_append_left full more).length_le
  have hmore : full.take (batched threshold size full.length) ++ roundRobin rank size
      (batched threshold size full.length % size) (full.drop (batched threshold size full.length)) ⊆
      (full ++ more).take (batched threshold size full.length) ++ roundRobin rank size
      (batched threshold size full.length % size) ((full ++ more).drop (batched threshold size full.length)) := by
    rw [List.take_append_of_le_length hb, List.drop_append_of_le_length hb,
      roundRobin_append size rank (Nat.mod_lt _ hsize)]
    exact List.append_subset.2 ⟨List.subset_append_left _ _,
      fun v hv => List.mem_append_right _ (List.mem_append_left _ hv)⟩
  unfold batchVerdict minScoreOf at h ⊢
  rw [← List.foldl_append] at h ⊢
  exact d.isIndependent_of_le (foldl_minStep_le_of_subset _
    (hmore.trans (take_append_roundRobin_subset size rank hsize hb' _)) _) h

/-- A higher cap never turns a rank's verdict of independence into dependence,
whatever the batch threshold: the larger scan runs the smaller one first, and
as batches complete, the subsets a rank saw alone move into the reduction. -/
theorem isIndependentAnySubsetComm_cap_mono (hsize : 0 < size) {maxSize' : BitVec w}
    (h : maxSize.toNat ≤ maxSize'.toNat) :
    ∃ verdicts verdicts', isIndependentAnySubsetComm d x y threshold size given maxSize = .returned verdicts ∧
      isIndependentAnySubsetComm d x y threshold size given maxSize' = .returned verdicts' ∧
      List.Forall₂ (fun b b' => b = true → b' = true) verdicts verdicts' := by
  have hle : subsetSize given maxSize ≤ subsetSize given maxSize' := min_le_min_left _ h
  obtain ⟨more, hmore⟩ := levels_append given hle
  refine ⟨_, _, commRun_init d x y threshold size hsize _, commRun_init d x y threshold size hsize _, ?_⟩
  rw [List.forall₂_map_left_iff, List.forall₂_map_right_iff, List.forall₂_same]
  intro i _
  unfold scanOrder
  rw [hmore, List.flatten_append]
  exact batchVerdict_append d threshold size hsize _ _ _

theorem isIndependentAnySubsetComm_cap_mono_typical :
    0 < 2 ∧ (0 : BitVec 8).toNat ≤ (1 : BitVec 8).toNat ∧
      ∃ verdicts verdicts', isIndependentAnySubsetComm typicalData 0 1 1 2 [2] 0 = .returned verdicts ∧
        isIndependentAnySubsetComm typicalData 0 1 1 2 [2] 1 = .returned verdicts' ∧
        List.Forall₂ (fun b b' => b = true → b' = true) verdicts verdicts' := by
  have h : (0 : BitVec 8).toNat ≤ (1 : BitVec 8).toNat := by decide
  exact ⟨two_pos, h, isIndependentAnySubsetComm_cap_mono typicalData 0 1 1 2 [2] 0 two_pos h⟩

/-- On every communicator, for every batch threshold, some rank returns `true`
from the distributed `isIndependentAnySubset` exactly when the least score over
all subsets within the size cap certifies independence. -/
theorem isIndependentAnySubsetComm_some_rank (hsize : 0 < size) :
    ∃ results, isIndependentAnySubsetComm d x y threshold size given maxSize = .returned results ∧
      results.any id =
        d.isIndependent (minScoreOf (d.assocScore x y) (scanOrder given (subsetSize given maxSize))) :=
  let ⟨results, hrun, _, hany⟩ := isIndependentAnySubsetComm_verdict d x y threshold size given maxSize hsize
  ⟨results, hrun, hany⟩

theorem isIndependentAnySubsetComm_some_rank_typical :
    0 < 2 ∧ ∃ results, isIndependentAnySubsetComm typicalData 0 1 1 2 [2] 1 = .returned results ∧
      results.any id = typicalData.isIndependent
        (minScoreOf (typicalData.assocScore 0 1) (scanOrder [2] (subsetSize ([2] : List (BitVec 8)) 1))) :=
  ⟨two_pos, isIndependentAnySubsetComm_some_rank typicalData 0 1 1 2 [2] 1 two_pos⟩

/-- For every threshold below one half, where the size-level exit of the
sequential scan is sound, some rank of the distributed call returns `true`
exactly when the sequential `isIndependentAnySubset` does. -/
theorem isIndependentAnySubsetComm_any_sequential (h : d.threshold < 1 / 2) (hsize : 0 < size) :
    ∃ results, isIndependentAnySubsetComm d x y threshold size given maxSize = .returned results ∧
      results.any id = isIndependentAnySubset d x y given maxSize :=
  let ⟨results, hrun, _, hany⟩ :=
    isIndependentAnySubsetComm_verdict d x y threshold size given maxSize hsize
  ⟨results, hrun, hany.trans (isIndependent_scanMin d h _ _).symm⟩

theorem isIndependentAnySubsetComm_any_sequential_typical :
    typicalData.threshold < 1 / 2 ∧ 0 < 2 ∧
      ∃ results, isIndependentAnySubsetComm typicalData 0 1 1 2 [2] 1 = .returned results ∧
        results.any id = isIndependentAnySubset typicalData 0 1 [2] 1 := by
  have h : typicalData.threshold < 1 / 2 := by with_unfolding_all decide
  exact ⟨h, two_pos, isIndependentAnySubsetComm_any_sequential typicalData 0 1 1 2 [2] 1 h two_pos⟩

/-- For every threshold, number of ranks and batch threshold, some rank of the
distributed call finds independence exactly when the score test passes for
some subset of `given` within the size cap. -/
theorem isIndependentAnySubsetComm_refines (hsize : 0 < size) :
    ∃ results, isIndependentAnySubsetComm d x y threshold size given maxSize = .returned results ∧
      (results.any id = true ↔ IndependentGivenSome d x y given [] maxSize) :=
  let ⟨results, hrun, _, hany⟩ := isIndependentAnySubsetComm_verdict d x y threshold size given maxSize hsize
  ⟨results, hrun, by
    rw [hany, ← assocScore_setUnion_nil d x y]
    exact isIndependent_minScoreOf_scanOrder d x y given [] maxSize⟩

theorem isIndependentAnySubsetComm_refines_typical :
    0 < 2 ∧ ∃ results, isIndependentAnySubsetComm typicalData 0 1 1 2 [2] 1 = .returned results ∧
      (results.any id = true ↔ IndependentGivenSome typicalData 0 1 [2] [] 1) :=
  ⟨two_pos, isIndependentAnySubsetComm_refines typicalData 0 1 1 2 [2] 1 two_pos⟩

/-- On a single rank the distributed call returns, for every batch threshold,
the verdict of the least score over the whole scan. -/
theorem isIndependentAnySubsetComm_one_rank :
    isIndependentAnySubsetComm d x y threshold 1 given maxSize =
      .returned [d.isIndependent (minScoreOf (d.assocScore x y) (scanOrder given (subsetSize given maxSize)))] := by
  obtain ⟨results, hrun, hlen, hany⟩ :=
    isIndependentAnySubsetComm_verdict d x y threshold 1 given maxSize one_pos
  obtain ⟨b, rfl⟩ := List.length_eq_one.1 hlen
  simp only [List.any_cons, List.any_nil, id, Bool.or_false] at hany
  rw [hrun, hany]

end Verdicts

end Ramble.Parallel
