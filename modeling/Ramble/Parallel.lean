import Mathlib.Algebra.BigOperators.Group.Finset
import Ramble.Scan

/-!
# The distributed `isIndependentAnySubset`

Every rank of the communicator walks the same scan of subsets. The shared
counter `r` names the rank that conducts the current subset; the others only
count it. When `mine + others` reaches `threshold * comm.size()` in
`uint32_t`, every rank calls `mxx::allreduce` on its `minScore`, then resets
its counters or returns `true`. After the last subset a rank returns the
verdict of its own `minScore`. A rank is a coroutine here: it runs on its own
until it blocks in the collective or returns, and the communicator matches the
collectives of all ranks. `Reachable` collects the statuses the communicator
passes through; the ranks stay in step on all of them (`Lockstep`,
`RoundInv`). When no reduction runs, each rank decides on its round-robin
share of the scan alone (`roundRobin`).
-/

namespace Ramble.Parallel

open Oracle Subsets Scan

/-- The locals of one rank in the loop of `isIndependentAnySubset`. -/
structure RankState where
  /-- `mine`: tests of the current batch conducted by this rank. -/
  mine : BitVec 32
  /-- `others`: tests of the current batch left to the other ranks. -/
  others : BitVec 32
  /-- `r`: the rank that conducts the current subset. -/
  r : ℕ
  /-- `minScore`: the least score seen here since the last reduction, or the reduced one. -/
  minScore : ℚ
  deriving DecidableEq

namespace RankState

/-- The locals at entry: empty batch, rank `0` first, `minScore` at `maxDouble`. -/
def init : RankState := ⟨0, 0, 0, maxDouble⟩

/-- `mine + others`, the tests of the current batch, in `uint32_t`. -/
def batch (st : RankState) : BitVec 32 := st.mine + st.others

variable {w : ℕ}

/-- The loop body up to the sync test: a test of another rank is counted; this
rank's test is conducted unless `minScore` already certifies independence. -/
def visit (d : DiscreteData w) (rank : ℕ) (thisScore : ℚ) (st : RankState) : RankState :=
  if rank ≠ st.r then { st with others := st.others + 1 }
  else
    { st with
      mine := st.mine + 1
      minScore := if d.isIndependent st.minScore then st.minScore else min st.minScore thisScore }

/-- `(mine + others) == (threshold * comm.size())`, in `uint32_t`. -/
def syncDue (threshold : BitVec 32) (size : ℕ) (st : RankState) : Bool :=
  st.batch == threshold * BitVec.ofNat 32 size

/-- `r = (r + 1) % comm.size()`. -/
def advance (size : ℕ) (st : RankState) : RankState := { st with r := (st.r + 1) % size }

/-- After a reduction to the dependent value `v`: `minScore` is `v`, the counters restart. -/
def reset (v : ℚ) (st : RankState) : RankState := { st with mine := 0, others := 0, minScore := v }

/-- Every subset adds one test to the batch, whoever conducts it. -/
@[simp] theorem batch_visit (d : DiscreteData w) (rank : ℕ) (thisScore : ℚ) (st : RankState) :
    (st.visit d rank thisScore).batch = st.batch + 1 := by
  unfold visit batch
  split
  exacts [(add_assoc _ _ _).symm, add_right_comm _ _ _]

@[simp] theorem batch_advance (size : ℕ) (st : RankState) : (st.advance size).batch = st.batch := rfl

@[simp] theorem r_advance (size : ℕ) (st : RankState) : (st.advance size).r = (st.r + 1) % size := rfl

@[simp] theorem minScore_advance (size : ℕ) (st : RankState) :
    (st.advance size).minScore = st.minScore := rfl

/-- Only the conducting rank counts the test as its own. -/
theorem mine_visit (d : DiscreteData w) (rank : ℕ) (thisScore : ℚ) (st : RankState) :
    (st.visit d rank thisScore).mine = if rank = st.r then st.mine + 1 else st.mine := by
  unfold visit
  by_cases h : rank = st.r <;> simp [h]

@[simp] theorem r_visit (d : DiscreteData w) (rank : ℕ) (thisScore : ℚ) (st : RankState) :
    (st.visit d rank thisScore).r = st.r := by
  unfold visit
  split <;> rfl

/-- Only the conducting rank, and only while it certifies nothing, lowers `minScore`. -/
theorem minScore_visit (d : DiscreteData w) (rank : ℕ) (thisScore : ℚ) (st : RankState) :
    (st.visit d rank thisScore).minScore =
      if rank = st.r ∧ d.isIndependent st.minScore = false then min st.minScore thisScore
      else st.minScore := by
  unfold visit
  by_cases hr : rank = st.r <;> cases hi : d.isIndependent st.minScore <;> simp [hr, hi]

/-- A rank certifying independence keeps certifying it. -/
theorem isIndependent_visit (d : DiscreteData w) (rank : ℕ) (thisScore : ℚ) {st : RankState}
    (h : d.isIndependent st.minScore = true) :
    d.isIndependent (st.visit d rank thisScore).minScore = true := by
  simp [minScore_visit, h]

/-- The conducting rank certifies independence once it has tested a certifying subset. -/
theorem isIndependent_visit_self (d : DiscreteData w) {thisScore : ℚ} (st : RankState)
    (h : d.isIndependent thisScore = true) :
    d.isIndependent (st.visit d st.r thisScore).minScore = true := by
  rw [minScore_visit]
  split
  · exact d.isIndependent_of_le (min_le_right _ _) h
  · next hn => simpa using hn

theorem le_minScore_visit (d : DiscreteData w) (rank : ℕ) {m thisScore : ℚ} {st : RankState}
    (hst : m ≤ st.minScore) (hs : m ≤ thisScore) : m ≤ (st.visit d rank thisScore).minScore := by
  rw [minScore_visit]
  split
  exacts [le_min hst hs, hst]

@[simp] theorem batch_reset (v : ℚ) (st : RankState) : (st.reset v).batch = 0 := rfl

end RankState

/-- A rank between two collectives. -/
inductive RankStatus (w : ℕ) where
  /-- Blocked in `mxx::allreduce` at global subset index `g`, with the subsets after `g` to go. -/
  | allreduce (g : ℕ) (st : RankState) (rest : List (List (BitVec w)))
  /-- Returned `b` from `isIndependentAnySubset`. -/
  | returned (b : Bool)
  deriving DecidableEq

namespace RankStatus

variable {w : ℕ}

/-- Where a rank waits: its collective's index and the subsets after it. -/
def shape : RankStatus w → Option (ℕ × List (List (BitVec w)))
  | allreduce g _ rest => some (g, rest)
  | returned _ => none

/-- The value a returned rank gave back. -/
def result : RankStatus w → Bool
  | allreduce .. => false
  | returned b => b

/-- The `mine` count of a blocked rank. -/
def mine : RankStatus w → BitVec 32
  | allreduce _ st _ => st.mine
  | returned _ => 0

/-- The `minScore` a blocked rank hands to the collective. -/
def contribution : RankStatus w → ℚ
  | allreduce _ st _ => st.minScore
  | returned _ => maxDouble

end RankStatus

/-- `findMin`: `std::islessequal(x, y) ? x : y`. -/
def findMin (a b : ℚ) : ℚ := if a ≤ b then a else b

/-- `mxx::allreduce(minScore, findMin, comm)`: the contributions combined in rank order. -/
def allreduceMin : List ℚ → ℚ
  | [] => maxDouble
  | c :: cs => cs.foldl findMin c

theorem findMin_eq_min (a b : ℚ) : findMin a b = min a b := (min_def a b).symm

theorem foldl_findMin_le (cs : List ℚ) (c : ℚ) : cs.foldl findMin c ≤ c ∧ ∀ c' ∈ cs, cs.foldl findMin c ≤ c' := by
  induction cs generalizing c with
  | nil => simp
  | cons c' cs ih =>
    simp only [List.foldl_cons, findMin_eq_min, List.mem_cons, forall_eq_or_imp] at ih ⊢
    obtain ⟨h1, h2⟩ := ih (min c c')
    exact ⟨h1.trans (min_le_left _ _), h1.trans (min_le_right _ _), h2⟩

theorem le_foldl_findMin {m : ℚ} (cs : List ℚ) {c : ℚ} (hc : m ≤ c) (h : ∀ c' ∈ cs, m ≤ c') :
    m ≤ cs.foldl findMin c := by
  induction cs generalizing c with
  | nil => exact hc
  | cons c' cs ih =>
    simp only [List.foldl_cons, findMin_eq_min, List.mem_cons, forall_eq_or_imp] at h ⊢
    exact ih (le_min hc h.1) h.2

/-- The reduction lies at or below every contribution. -/
theorem allreduceMin_le {cs : List ℚ} {c : ℚ} (hc : c ∈ cs) : allreduceMin cs ≤ c := by
  cases cs with
  | nil => cases hc
  | cons c' cs =>
    rcases List.mem_cons.1 hc with rfl | hc
    exacts [(foldl_findMin_le cs _).1, (foldl_findMin_le cs _).2 c hc]

/-- A bound below every contribution and below `maxDouble` bounds the reduction. -/
theorem le_allreduceMin {cs : List ℚ} {m : ℚ} (h : ∀ c ∈ cs, m ≤ c) (hm : m ≤ maxDouble) :
    m ≤ allreduceMin cs := by
  cases cs with
  | nil => exact hm
  | cons c cs =>
    exact le_foldl_findMin cs (h c (List.mem_cons_self _ _)) fun c' hc' =>
      h c' (List.mem_cons_of_mem _ hc')

/-- A bound below the contribution of every rank bounds the reduction. -/
theorem le_allreduceMin_range {m : ℚ} {size : ℕ} {f : ℕ → ℚ} (h : ∀ i < size, m ≤ f i)
    (hm : m ≤ maxDouble) : m ≤ allreduceMin ((List.range size).map f) :=
  le_allreduceMin (fun _ hc => by
    obtain ⟨i, hi, rfl⟩ := List.mem_map.1 hc
    exact h i (List.mem_range.1 hi)) hm

/-- What the communicator sees of one call. -/
inductive CommOutcome where
  /-- Every rank returned; the booleans in rank order. -/
  | returned (results : List Bool)
  /-- A rank waits in `mxx::allreduce` while another has returned or waits at another subset. -/
  | mismatch
  /-- The driver ran out of rounds. -/
  | outOfFuel
  deriving DecidableEq

section Run

variable {w : ℕ} (d : DiscreteData w) (x y : BitVec w) (threshold : BitVec 32) (size : ℕ)

/-- Rank `rank` runs on its own from global subset index `g` until it blocks in
the collective or returns after the last subset. -/
def runToSync (rank : ℕ) : List (List (BitVec w)) → ℕ → RankState → RankStatus w
  | [], _, st => .returned (d.isIndependent st.minScore)
  | z :: rest, g, st =>
    let st' := st.visit d rank (d.assocScore x y z)
    if st'.syncDue threshold size then .allreduce g st' rest
    else runToSync rank rest (g + 1) (st'.advance size)

/-- A blocked rank once `mxx::allreduce` has returned `v`: it returns `true` if
`v` certifies independence, else it resets and runs on from the next subset. -/
def resume (rank : ℕ) (v : ℚ) : RankStatus w → RankStatus w
  | .allreduce g st rest =>
    if d.isIndependent v then .returned true
    else runToSync d x y threshold size rank rest (g + 1) ((st.reset v).advance size)
  | .returned b => .returned b

/-- The communicator over ranks `0, ..., size - 1`, one round per collective: it
ends once all ranks have returned, and hands the reduced minimum to every rank
when all wait in `mxx::allreduce` at one subset index. -/
def commRun : ℕ → (ℕ → RankStatus w) → CommOutcome
  | 0, _ => .outOfFuel
  | fuel + 1, ranks =>
    if (List.range size).all fun i => (ranks i).shape = none then
      .returned ((List.range size).map fun i => (ranks i).result)
    else if (List.range size).all fun i => (ranks i).shape.isSome ∧ (ranks i).shape = (ranks 0).shape then
      commRun fuel fun i =>
        resume d x y threshold size i
          (allreduceMin ((List.range size).map fun i => (ranks i).contribution)) (ranks i)
    else .mismatch

/-- `isIndependentAnySubset(x, y, given, maxSize, comm)` on `size` ranks, where
`threshold` is the `testThreshold()` read from `CSL_TESTS_THRESHOLD`. -/
def isIndependentAnySubsetComm (given : List (BitVec w)) (maxSize : BitVec w) : CommOutcome :=
  commRun d x y threshold size ((scanOrder given (subsetSize given maxSize)).length + 1)
    fun rank => runToSync d x y threshold size rank (scanOrder given (subsetSize given maxSize)) 0
      RankState.init

/-- Once every rank has returned, the communicator reports their results. -/
theorem commRun_of_returned (fuel : ℕ) {ranks : ℕ → RankStatus w}
    (h : ∀ i < size, (ranks i).shape = none) :
    commRun d x y threshold size (fuel + 1) ranks =
      .returned ((List.range size).map fun i => (ranks i).result) := by
  rw [commRun, if_pos (by simpa using h)]

/-- When all ranks wait at one place, every rank gets the reduced minimum. -/
theorem commRun_of_allreduce (fuel : ℕ) {ranks : ℕ → RankStatus w} (hsize : 0 < size)
    {p : ℕ × List (List (BitVec w))} (h : ∀ i < size, (ranks i).shape = some p) :
    commRun d x y threshold size (fuel + 1) ranks = commRun d x y threshold size fuel fun i =>
      resume d x y threshold size i
        (allreduceMin ((List.range size).map fun i => (ranks i).contribution)) (ranks i) := by
  have hnone : ((List.range size).all fun i => (ranks i).shape = none) = false := by
    simp only [List.all_eq_false, List.mem_range, decide_eq_true_eq]
    exact ⟨0, hsize, by simp [h 0 hsize]⟩
  have hsync : ((List.range size).all fun i =>
      (ranks i).shape.isSome ∧ (ranks i).shape = (ranks 0).shape) = true := by
    simp only [List.all_eq_true, List.mem_range, decide_eq_true_eq]
    intro i hi
    simp [h i hi, h 0 hsize]
  rw [commRun, hnone, if_pos hsync, if_neg Bool.false_ne_true]

/-- A rank blocks only where its batch count meets `threshold * comm.size()`. -/
theorem batch_of_runToSync {rank : ℕ} {zs : List (List (BitVec w))} {g g' : ℕ} {st st' : RankState}
    {rest : List (List (BitVec w))} (h : runToSync d x y threshold size rank zs g st = .allreduce g' st' rest) :
    st'.batch = threshold * BitVec.ofNat 32 size := by
  induction zs generalizing g st with
  | nil => cases h
  | cons z zs ih =>
    simp only [runToSync] at h
    split at h
    · rename_i hs
      cases h
      simpa [RankState.syncDue] using hs
    · exact ih h

theorem batch_of_resume {rank : ℕ} {v : ℚ} {s : RankStatus w} {g' : ℕ} {st' : RankState}
    {rest : List (List (BitVec w))} (h : resume d x y threshold size rank v s = .allreduce g' st' rest) :
    st'.batch = threshold * BitVec.ofNat 32 size := by
  cases s with
  | returned b => cases h
  | allreduce g st rest =>
    simp only [resume] at h
    split at h
    · cases h
    · exact batch_of_runToSync d x y threshold size h

end Run

section Agreement

variable {w : ℕ} (d : DiscreteData w) (x y : BitVec w) (threshold : BitVec 32) (size : ℕ)

/-- What ranks `0, ..., size - 1` keep in step between two collectives. -/
structure Lockstep (sts : ℕ → RankState) : Prop where
  /-- All ranks agree on the rank that conducts the next subset... -/
  r_eq : ∀ i < size, (sts i).r = (sts 0).r
  /-- ...which is one of them. -/
  r_lt : (sts 0).r < size
  /-- All ranks count the same batch. -/
  batch_eq : ∀ i < size, (sts i).batch = (sts 0).batch
  /-- Every test of the batch is some rank's own, and no other's. -/
  tally : ∑ i in Finset.range size, (sts i).mine = (sts 0).batch

variable {size}

theorem Lockstep.init (hsize : 0 < size) : Lockstep size fun _ => RankState.init :=
  ⟨fun _ _ => rfl, hsize, fun _ _ => rfl, by simp [RankState.init, RankState.batch]⟩

/-- One subset: the conducting rank tests it, the others count it. -/
theorem Lockstep.visit {sts : ℕ → RankState} (h : Lockstep size sts) (s : ℚ) :
    Lockstep size fun i => (sts i).visit d i s where
  r_eq i hi := by simp [h.r_eq i hi]
  r_lt := by simpa using h.r_lt
  batch_eq i hi := by simp [h.batch_eq i hi]
  tally := by
    have hmine : ∀ i ∈ Finset.range size, ((sts i).visit d i s).mine =
        (sts i).mine + if i = (sts 0).r then 1 else 0 := fun i hi => by
      rw [RankState.mine_visit, h.r_eq i (Finset.mem_range.1 hi)]
      split_ifs <;> simp
    rw [Finset.sum_congr rfl hmine, Finset.sum_add_distrib, Finset.sum_ite_eq',
      if_pos (Finset.mem_range.2 h.r_lt), h.tally, RankState.batch_visit]

theorem Lockstep.advance (hsize : 0 < size) {sts : ℕ → RankState} (h : Lockstep size sts) :
    Lockstep size fun i => (sts i).advance size where
  r_eq i hi := by simp [RankState.advance, h.r_eq i hi]
  r_lt := Nat.mod_lt _ hsize
  batch_eq := h.batch_eq
  tally := h.tally

/-- A reduction that certifies nothing restarts the ranks in step. -/
theorem Lockstep.reset (hsize : 0 < size) {sts : ℕ → RankState} (h : Lockstep size sts) (v : ℚ) :
    Lockstep size fun i => ((sts i).reset v).advance size where
  r_eq i hi := by simp [RankState.advance, RankState.reset, h.r_eq i hi]
  r_lt := Nat.mod_lt _ hsize
  batch_eq _ _ := rfl
  tally := by simp [RankState.advance, RankState.reset, RankState.batch]

variable (size)

/-- Ranks in step stay in step through their runs: all return at the end of the
scan, or all block at the same subset with the same subsets left. -/
theorem runToSync_lockstep (hsize : 0 < size) (zs : List (List (BitVec w))) (g : ℕ) {sts : ℕ → RankState}
    (h : Lockstep size sts) :
    (∀ i < size, (runToSync d x y threshold size i zs g (sts i)).shape = none) ∨
    (∃ g' rest sts', Lockstep size sts' ∧ ∀ i < size,
      runToSync d x y threshold size i zs g (sts i) = .allreduce g' (sts' i) rest) := by
  induction zs generalizing g sts with
  | nil => exact .inl fun _ _ => rfl
  | cons z rest ih =>
    have h1 := h.visit d (d.assocScore x y z)
    have hsync : ∀ i < size, ((sts i).visit d i (d.assocScore x y z)).syncDue threshold size =
        ((sts 0).visit d 0 (d.assocScore x y z)).syncDue threshold size := fun i hi => by
      simp only [RankState.syncDue, h1.batch_eq i hi]
    by_cases hs : ((sts 0).visit d 0 (d.assocScore x y z)).syncDue threshold size = true
    · exact .inr ⟨g, rest, _, h1, fun i hi => by simp only [runToSync, hsync i hi, hs, if_true]⟩
    · rcases ih (g + 1) (h1.advance hsize) with hr | ⟨g', rest', sts', h', hr⟩
      · refine .inl fun i hi => ?_
        simp only [runToSync, hsync i hi, hs]
        exact hr i hi
      · refine .inr ⟨g', rest', sts', h', fun i hi => ?_⟩
        simp only [runToSync, hsync i hi, hs]
        exact hr i hi

theorem any_map_range (b : ℕ → Bool) :
    ((List.range size).map b).any id = true ↔ ∃ i < size, b i = true := by
  simp [List.any_eq_true]

/-- The communicator between rounds: all ranks have returned, or all wait in
`mxx::allreduce` at one subset with the same subsets left, in step. -/
def RoundInv (ranks : ℕ → RankStatus w) : Prop :=
  (∀ i < size, (ranks i).shape = none) ∨
    ∃ g rest sts, Lockstep size sts ∧ ∀ i < size, ranks i = .allreduce g (sts i) rest

/-- The ranks' first runs leave the communicator in its round invariant. -/
theorem roundInv_init (hsize : 0 < size) (full : List (List (BitVec w))) :
    RoundInv size fun i => runToSync d x y threshold size i full 0 RankState.init :=
  runToSync_lockstep d x y threshold size hsize full 0 (Lockstep.init hsize)

/-- One collective keeps the round invariant: on a certifying value every rank
returns `true`, and otherwise every rank resets and runs on in step. -/
theorem roundInv_resume (hsize : 0 < size) {g : ℕ} {rest : List (List (BitVec w))}
    {sts : ℕ → RankState} (hl : Lockstep size sts) {ranks : ℕ → RankStatus w}
    (hr : ∀ i < size, ranks i = .allreduce g (sts i) rest) (v : ℚ) :
    RoundInv size fun i => resume d x y threshold size i v (ranks i) := by
  by_cases hv : d.isIndependent v = true
  · exact .inl fun i hi => by dsimp only; rw [hr i hi, resume, if_pos hv]; rfl
  · rcases runToSync_lockstep d x y threshold size hsize rest (g + 1) (hl.reset hsize v) with
      hr' | ⟨g', rest', sts', hl', hr'⟩
    · exact .inl fun i hi => by dsimp only; rw [hr i hi, resume, if_neg hv]; exact hr' i hi
    · exact .inr ⟨g', rest', sts', hl', fun i hi => by dsimp only; rw [hr i hi, resume, if_neg hv]; exact hr' i hi⟩

/-- The rank statuses the communicator passes through on the scan `full`: the
ranks' first runs, then, while all of them wait at one subset, their runs
resumed with the reduced minimum, as in the recursive call of `commRun`. -/
inductive Reachable (full : List (List (BitVec w))) : (ℕ → RankStatus w) → Prop
  | init : Reachable full fun rank => runToSync d x y threshold size rank full 0 RankState.init
  | round {ranks : ℕ → RankStatus w} {p : ℕ × List (List (BitVec w))} :
      Reachable full ranks → (∀ i < size, (ranks i).shape = some p) →
      Reachable full fun i => resume d x y threshold size i
        (allreduceMin ((List.range size).map fun i => (ranks i).contribution)) (ranks i)

/-- Every status the communicator reaches keeps the round invariant. -/
theorem roundInv_of_reachable (hsize : 0 < size) {full : List (List (BitVec w))} {ranks : ℕ → RankStatus w}
    (h : Reachable d x y threshold size full ranks) : RoundInv size ranks := by
  induction h with
  | init => exact roundInv_init d x y threshold size hsize _
  | round _ hp ih =>
    rcases ih with hr | ⟨g, rest, sts, hl, hr⟩
    · have h0 := hp 0 hsize
      rw [hr 0 hsize] at h0
      cases h0
    · exact roundInv_resume d x y threshold size hsize hl hr _

theorem batch_of_reachable {full : List (List (BitVec w))} {ranks : ℕ → RankStatus w}
    (h : Reachable d x y threshold size full ranks) {i g : ℕ} {st : RankState}
    {rest : List (List (BitVec w))} (hi : ranks i = .allreduce g st rest) :
    st.batch = threshold * BitVec.ofNat 32 size := by
  cases h with
  | init => exact batch_of_runToSync d x y threshold size hi
  | round => exact batch_of_resume d x y threshold size hi

/-- At every collective the communicator reaches, all ranks wait at the same
subset, each has counted `threshold * comm.size()` tests in `uint32_t`, and
their `mine` counts add up to that number: every test of the batch was
assigned to exactly one rank. -/
theorem reachable_allreduce_tally (hsize : 0 < size) {full : List (List (BitVec w))}
    {ranks : ℕ → RankStatus w} (h : Reachable d x y threshold size full ranks) {g : ℕ} {st : RankState}
    {rest : List (List (BitVec w))} (h0 : ranks 0 = .allreduce g st rest) :
    (∀ i < size, (ranks i).shape = some (g, rest)) ∧ st.batch = threshold * BitVec.ofNat 32 size ∧
      ∑ i in Finset.range size, (ranks i).mine = st.batch := by
  rcases roundInv_of_reachable d x y threshold size hsize h with hr | ⟨g', rest', sts, hl, hr⟩
  · have hs := hr 0 hsize
    rw [h0] at hs
    cases hs
  · have hst := hr 0 hsize
    rw [h0] at hst
    cases hst
    refine ⟨fun i hi => by rw [hr i hi]; rfl, batch_of_reachable d x y threshold size h h0, ?_⟩
    rw [Finset.sum_congr rfl fun i hi => by rw [hr i (Finset.mem_range.1 hi)]]
    exact hl.tally

end Agreement

theorem reachable_allreduce_tally_typical :
    0 < 2 ∧ Reachable typicalData 0 1 1 2 [[], [2]]
        (fun rank => runToSync typicalData 0 1 1 2 rank [[], [2]] 0 RankState.init) ∧
      runToSync typicalData 0 1 1 2 0 [[], [2]] 0 RankState.init = .allreduce 1 ⟨1, 1, 1, 99 / 100⟩ [] ∧
      (∀ i < 2, (runToSync typicalData 0 1 1 2 i [[], [2]] 0 RankState.init).shape = some (1, [])) ∧
      (⟨1, 1, 1, 99 / 100⟩ : RankState).batch = 1 * BitVec.ofNat 32 2 ∧
      ∑ i in Finset.range 2, (runToSync typicalData 0 1 1 2 i [[], [2]] 0 RankState.init).mine =
        (⟨1, 1, 1, 99 / 100⟩ : RankState).batch := by
  have h0 : runToSync typicalData 0 1 1 2 0 [[], [2]] 0 RankState.init =
      .allreduce 1 ⟨1, 1, 1, 99 / 100⟩ [] := by
    with_unfolding_all decide
  exact ⟨two_pos, .init, h0, reachable_allreduce_tally typicalData 0 1 1 2 two_pos .init h0⟩

/-- With two ranks and `CSL_TESTS_THRESHOLD=2` no reduction happens before the
end of a two-subset scan: rank `0` tested only the dependent empty set and
returns `false`, rank `1` tested the certifying `{2}` and returns `true`, while
the least score over the scan certifies independence. -/
theorem isIndependentAnySubsetComm_ranks_disagree :
    isIndependentAnySubsetComm typicalData 0 1 2 2 [2] 1 = .returned [false, true] ∧
    typicalData.isIndependent
      (minScoreOf (typicalData.assocScore 0 1) (scanOrder [2] (subsetSize ([2] : List (BitVec 8)) 1))) = true := by
  with_unfolding_all decide

/-- The subsets rank `rank` conducts when no reduction intervenes: the scan
dealt round-robin over `size` ranks, the pointer `r` starting at `r`. -/
def roundRobin {α : Type*} (rank size : ℕ) : ℕ → List α → List α
  | _, [] => []
  | r, z :: zs =>
    if rank = r then z :: roundRobin rank size ((r + 1) % size) zs
    else roundRobin rank size ((r + 1) % size) zs

section Shares

variable {w : ℕ} (d : DiscreteData w) (x y : BitVec w) (threshold : BitVec 32) (size : ℕ)

theorem isIndependent_foldl_minStep (score : List (BitVec w) → ℚ) (conditions : List (List (BitVec w)))
    {m : ℚ} (h : d.isIndependent m = true) :
    d.isIndependent (conditions.foldl (minStep score) m) = true :=
  d.isIndependent_of_le (foldl_minStep_le score conditions m) h

/-- A run that meets no sync returns the verdict of the running minimum over
the rank's own share: a rank that skips its tests once it certifies
independence changes its `minScore`, never its verdict. -/
theorem runToSync_no_sync (rank : ℕ) (zs : List (List (BitVec w))) (g : ℕ) (st : RankState)
    (hns : ∀ k < zs.length, st.batch + BitVec.ofNat 32 (k + 1) ≠ threshold * BitVec.ofNat 32 size) :
    runToSync d x y threshold size rank zs g st = .returned (d.isIndependent
      ((roundRobin rank size st.r zs).foldl (minStep (d.assocScore x y)) st.minScore)) := by
  induction zs generalizing g st with
  | nil => rfl
  | cons z rest ih =>
    have hsync : (st.visit d rank (d.assocScore x y z)).syncDue threshold size ≠ true := by
      rw [RankState.syncDue, RankState.batch_visit, Ne, beq_iff_eq]
      exact hns 0 (Nat.succ_pos _)
    rw [runToSync, if_neg hsync, ih]
    · rw [RankState.r_advance, RankState.r_visit, RankState.minScore_advance]
      by_cases hr : rank = st.r
      · rw [roundRobin, if_pos hr, List.foldl_cons, RankState.minScore_visit]
        cases hi : d.isIndependent st.minScore
        · rw [if_pos ⟨hr, rfl⟩, minStep, min_comm]
        · have hz : d.isIndependent (minStep (d.assocScore x y) st.minScore z) = true :=
            d.isIndependent_of_le (min_le_right _ _) hi
          rw [if_neg (by simp [hi]), isIndependent_foldl_minStep d _ _ hi,
            isIndependent_foldl_minStep d _ _ hz]
      · rw [roundRobin, if_neg hr, RankState.minScore_visit, if_neg fun h => hr h.1]
    · intro k hk
      have e : st.batch + 1 + BitVec.ofNat 32 (k + 1) = st.batch + BitVec.ofNat 32 (k + 1 + 1) := by
        rw [BitVec.ofNat_add (k + 1) 1, add_right_comm, add_assoc]
        congr
      rw [RankState.batch_advance, RankState.batch_visit, e]
      exact hns (k + 1) (Nat.succ_lt_succ hk)

/-- When `mine + others` meets `threshold * comm.size()` at no subset of the
scan, no `mxx::allreduce` runs, and every rank returns the verdict of the
least score over its own round-robin share of the scan. -/
theorem isIndependentAnySubsetComm_no_reduction (given : List (BitVec w)) (maxSize : BitVec w)
    (hns : ∀ k < (scanOrder given (subsetSize given maxSize)).length,
      BitVec.ofNat 32 (k + 1) ≠ threshold * BitVec.ofNat 32 size) :
    isIndependentAnySubsetComm d x y threshold size given maxSize =
      .returned ((List.range size).map fun rank => d.isIndependent (minScoreOf (d.assocScore x y)
        (roundRobin rank size 0 (scanOrder given (subsetSize given maxSize))))) := by
  have hrank : ∀ rank, runToSync d x y threshold size rank (scanOrder given (subsetSize given maxSize))
      0 RankState.init = .returned (d.isIndependent (minScoreOf (d.assocScore x y)
        (roundRobin rank size 0 (scanOrder given (subsetSize given maxSize))))) := fun rank =>
    runToSync_no_sync d x y threshold size rank _ 0 _ fun k hk => by
      simpa [RankState.batch, RankState.init] using hns k hk
  rw [isIndependentAnySubsetComm, commRun_of_returned d x y threshold size _ fun i _ => by
    rw [hrank i]; rfl]
  exact congrArg _ (List.map_congr_left fun i _ => by rw [hrank i]; rfl)

theorem isIndependentAnySubsetComm_no_reduction_typical :
    (∀ k < (scanOrder [2] (subsetSize ([2] : List (BitVec 8)) 1)).length,
      BitVec.ofNat 32 (k + 1) ≠ 2 * BitVec.ofNat 32 2) ∧
    isIndependentAnySubsetComm typicalData 0 1 2 2 [2] 1 =
      .returned ((List.range 2).map fun rank => typicalData.isIndependent
        (minScoreOf (typicalData.assocScore 0 1)
          (roundRobin rank 2 0 (scanOrder [2] (subsetSize ([2] : List (BitVec 8)) 1))))) := by
  have hns : ∀ k < (scanOrder [2] (subsetSize ([2] : List (BitVec 8)) 1)).length,
      BitVec.ofNat 32 (k + 1) ≠ 2 * BitVec.ofNat 32 2 := by decide
  exact ⟨hns, isIndependentAnySubsetComm_no_reduction typicalData 0 1 2 2 [2] 1 hns⟩

end Shares

end Ramble.Parallel
