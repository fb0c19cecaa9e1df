import Ramble.Subsets

/-!
# The sequential scans of `DiscreteData`

`minAssocScore` (with and without a seed set) and `minAssocScoreSubset` walk
the subsets of the conditioning set by ascending size. The inner loop visits
a whole level; the outer loop enters the next level only while
`std::isgreater(minScore, m_threshold)`. The two `minAssocScore` overloads
share one loop, parametrised by the score of a visited condition;
`minAssocScoreSubset` keeps its own loop, whose strict `std::isless` update
also records the witnessing subset. `IndependentGivenSome` says what the
any-subset tests are for: the score test passes for some subset within the
size cap. Below a threshold of one half both sequential tests meet it exactly.
-/

namespace Ramble.Scan

open Oracle Subsets

variable {V : Type*}

/-- `minScore = std::min(thisScore, minScore)` for one visited condition. -/
def minStep (score : List V → ℚ) (minScore : ℚ) (condition : List V) : ℚ :=
  min (score condition) minScore

/-- The size loop of both `minAssocScore` overloads: a level is entered only
while `std::isgreater(minScore, m_threshold)`. -/
def scanMin (threshold : ℚ) (score : List V → ℚ) : List (List (List V)) → ℚ → ℚ
  | [], minScore => minScore
  | level :: rest, minScore =>
    if threshold < minScore then scanMin threshold score rest (level.foldl (minStep score) minScore)
    else minScore

/-- The update of `minAssocScoreSubset`: only a strictly smaller score replaces
the minimum and its subset. -/
def subsetStep (score : List V → ℚ) (acc : ℚ × List V) (condition : List V) : ℚ × List V :=
  if score condition < acc.1 then (score condition, condition) else acc

/-- The size loop of `minAssocScoreSubset`, with the guard of `scanMin`. -/
def scanMinSubset (threshold : ℚ) (score : List V → ℚ) :
    List (List (List V)) → ℚ × List V → ℚ × List V
  | [], acc => acc
  | level :: rest, acc =>
    if threshold < acc.1 then scanMinSubset threshold score rest (level.foldl (subsetStep score) acc)
    else acc

/-- The conditions a size loop visits before its guard stops it. -/
def visited (threshold : ℚ) (score : List V → ℚ) : List (List (List V)) → ℚ → List (List V)
  | [], _ => []
  | level :: rest, minScore =>
    if threshold < minScore then
      level ++ visited threshold score rest (level.foldl (minStep score) minScore)
    else []

/-- The least score over a list of conditions, starting from `maxDouble`. -/
def minScoreOf (score : List V → ℚ) (conditions : List (List V)) : ℚ :=
  conditions.foldl (minStep score) maxDouble

section Loops

variable (threshold : ℚ) (score : List V → ℚ)

/-- A running minimum never rises. -/
theorem foldl_minStep_le (conditions : List (List V)) (m : ℚ) :
    conditions.foldl (minStep score) m ≤ m := by
  induction conditions generalizing m with
  | nil => exact le_rfl
  | cons c conditions ih => exact (ih _).trans (min_le_right _ _)

/-- A running minimum ends at or below the score of every condition it passes. -/
theorem foldl_minStep_le_score {conditions : List (List V)} {c : List V} (hc : c ∈ conditions)
    (m : ℚ) : conditions.foldl (minStep score) m ≤ score c := by
  induction conditions generalizing m with
  | nil => cases hc
  | cons c' conditions ih =>
    rcases List.mem_cons.1 hc with rfl | hc
    · exact (foldl_minStep_le score conditions _).trans (min_le_left _ _)
    · exact ih hc _

/-- A bound below the start and below every score bounds the running minimum. -/
theorem le_foldl_minStep {conditions : List (List V)} {m v : ℚ} (hv : m ≤ v)
    (h : ∀ c ∈ conditions, m ≤ score c) : m ≤ conditions.foldl (minStep score) v := by
  induction conditions generalizing v with
  | nil => exact hv
  | cons c conditions ih =>
    exact ih (le_min (h c (List.mem_cons_self _ _)) hv) fun c' hc' => h c' (List.mem_cons_of_mem _ hc')

/-- A running minimum ends at its start or at the score of a condition it passed. -/
theorem foldl_minStep_cases (conditions : List (List V)) (m : ℚ) :
    conditions.foldl (minStep score) m = m ∨
      ∃ c ∈ conditions, conditions.foldl (minStep score) m = score c := by
  induction conditions generalizing m with
  | nil => exact .inl rfl
  | cons c conditions ih =>
    rcases ih (minStep score m c) with h | ⟨c', hc', h⟩
    · rw [List.foldl_cons, h, minStep]
      rcases min_choice (score c) m with hm | hm
      · exact .inr ⟨c, List.mem_cons_self _ _, hm⟩
      · exact .inl hm
    · exact .inr ⟨c', List.mem_cons_of_mem _ hc', h⟩

/-- A running minimum over more conditions ends no higher. -/
theorem foldl_minStep_le_of_subset {first second : List (List V)} (h : first ⊆ second) (m : ℚ) :
    second.foldl (minStep score) m ≤ first.foldl (minStep score) m := by
  rcases foldl_minStep_cases score first m with hm | ⟨c, hc, hm⟩
  · rw [hm]
    exact foldl_minStep_le score _ m
  · rw [hm]
    exact foldl_minStep_le_score score (h hc) m

/-- Below `maxDouble`, the least score of a nonempty list is attained. -/
theorem exists_minScoreOf {conditions : List (List V)} (hne : conditions ≠ [])
    (hlt : ∀ c ∈ conditions, score c < maxDouble) :
    ∃ c ∈ conditions, score c = minScoreOf score conditions := by
  rcases foldl_minStep_cases score conditions maxDouble with h | ⟨c, hc, h⟩
  · obtain ⟨c, hc⟩ := List.exists_mem_of_ne_nil _ hne
    have := foldl_minStep_le_score score hc maxDouble
    rw [h] at this
    exact absurd (hlt c hc) (not_lt.2 this)
  · exact ⟨c, hc, h.symm⟩

/-- The size loop is the running minimum over the conditions it visits. -/
theorem scanMin_eq_foldl (levels : List (List (List V))) (m : ℚ) :
    scanMin threshold score levels m = (visited threshold score levels m).foldl (minStep score) m := by
  induction levels generalizing m with
  | nil => rfl
  | cons level rest ih =>
    by_cases h : threshold < m <;> simp [scanMin, visited, h, ih]

/-- A size loop visits a prefix of the full scan. -/
theorem visited_prefix (levels : List (List (List V))) (m : ℚ) :
    visited threshold score levels m <+: levels.flatten := by
  induction levels generalizing m with
  | nil => exact List.nil_prefix
  | cons level rest ih =>
    by_cases h : threshold < m
    · simpa [visited, h] using ih _
    · simp [visited, h]

/-- Either the guard never stopped the loop, or it stopped at or below the
threshold, above the minimum of the full scan. -/
theorem scanMin_cases (levels : List (List (List V))) (m : ℚ) :
    scanMin threshold score levels m = levels.flatten.foldl (minStep score) m ∨
      (scanMin threshold score levels m ≤ threshold ∧
        levels.flatten.foldl (minStep score) m ≤ scanMin threshold score levels m) := by
  induction levels generalizing m with
  | nil => exact .inl rfl
  | cons level rest ih =>
    by_cases h : threshold < m
    · simpa [scanMin, h] using ih (level.foldl (minStep score) m)
    · rw [scanMin, if_neg h]
      exact .inr ⟨not_lt.1 h, foldl_minStep_le score _ m⟩

/-- Whatever the guard does, the result is at most the threshold or at most
the score of every condition of the full scan. -/
theorem scanMin_le_max (levels : List (List (List V))) (m : ℚ) {c : List V}
    (hc : c ∈ levels.flatten) : scanMin threshold score levels m ≤ max threshold (score c) := by
  rcases scanMin_cases threshold score levels m with heq | ⟨hle, -⟩
  · exact heq ▸ (foldl_minStep_le_score score hc m).trans (le_max_right _ _)
  · exact hle.trans (le_max_left _ _)

/-- The size loop never raises its start value. -/
theorem scanMin_le (levels : List (List (List V))) (m : ℚ) : scanMin threshold score levels m ≤ m := by
  rw [scanMin_eq_foldl]
  exact foldl_minStep_le score _ m

/-- Once the guard stops the size loop it stays stopped: the loop over two runs
of levels is the loop over the second from where the first ended. -/
theorem scanMin_append (first second : List (List (List V))) (m : ℚ) :
    scanMin threshold score (first ++ second) m =
      scanMin threshold score second (scanMin threshold score first m) := by
  induction first generalizing m with
  | nil => rfl
  | cons level rest ih =>
    by_cases h : threshold < m
    · rw [List.cons_append, scanMin, if_pos h, ih, scanMin, if_pos h]
    · cases second <;> simp [scanMin, h]

theorem subsetStep_fst (acc : ℚ × List V) (c : List V) :
    (subsetStep score acc c).1 = minStep score acc.1 c := by
  unfold subsetStep minStep
  split
  · exact (min_eq_left (le_of_lt ‹_›)).symm
  · exact (min_eq_right (not_lt.1 ‹_›)).symm

theorem foldl_subsetStep_fst (conditions : List (List V)) (acc : ℚ × List V) :
    (conditions.foldl (subsetStep score) acc).1 = conditions.foldl (minStep score) acc.1 := by
  induction conditions generalizing acc with
  | nil => rfl
  | cons c conditions ih => simp [ih, subsetStep_fst]

/-- The witness loop is the strict-update fold over the conditions the guard lets through. -/
theorem scanMinSubset_eq_foldl (levels : List (List (List V))) (acc : ℚ × List V) :
    scanMinSubset threshold score levels acc =
      (visited threshold score levels acc.1).foldl (subsetStep score) acc := by
  induction levels generalizing acc with
  | nil => rfl
  | cons level rest ih =>
    by_cases h : threshold < acc.1 <;> simp [scanMinSubset, visited, h, ih, foldl_subsetStep_fst]

/-- Both loops keep the same minimum: `std::min` and the strict `std::isless` update agree. -/
theorem scanMinSubset_fst (levels : List (List (List V))) (acc : ℚ × List V) :
    (scanMinSubset threshold score levels acc).1 = scanMin threshold score levels acc.1 := by
  rw [scanMinSubset_eq_foldl, foldl_subsetStep_fst, scanMin_eq_foldl]

/-- `z` is the first condition of `seen` with the least score `s`. -/
structure FirstMinimum (seen : List (List V)) (s : ℚ) (z : List V) : Prop where
  /-- Every condition before `z` scores strictly more. -/
  split : ∃ pre post, seen = pre ++ z :: post ∧ ∀ c ∈ pre, s < score c
  /-- `z` attains `s`. -/
  score_eq : score z = s
  /-- No condition of `seen` scores less. -/
  minimal : ∀ c ∈ seen, s ≤ score c

theorem FirstMinimum.single (z : List V) : FirstMinimum score [z] (score z) z :=
  ⟨⟨[], [], rfl, by simp⟩, rfl, by simp⟩

/-- One strict update keeps the first minimum. -/
theorem FirstMinimum.step {seen : List (List V)} {acc : ℚ × List V} (c : List V)
    (h : FirstMinimum score seen acc.1 acc.2) :
    FirstMinimum score (seen ++ [c]) (subsetStep score acc c).1 (subsetStep score acc c).2 := by
  unfold subsetStep
  split
  · have hlt : ∀ c' ∈ seen, score c < score c' := fun c' hc' => lt_of_lt_of_le ‹_› (h.minimal c' hc')
    refine ⟨⟨seen, [], rfl, hlt⟩, rfl, ?_⟩
    simp only [List.mem_append, List.mem_singleton]
    rintro c' (hc' | rfl)
    exacts [(hlt c' hc').le, le_rfl]
  · obtain ⟨pre, post, hs, hpre⟩ := h.split
    refine ⟨⟨pre, post ++ [c], by simp [hs], hpre⟩, h.score_eq, ?_⟩
    simp only [List.mem_append, List.mem_singleton]
    rintro c' (hc' | rfl)
    exacts [h.minimal c' hc', not_lt.1 ‹_›]

theorem FirstMinimum.foldl {seen : List (List V)} {acc : ℚ × List V} (conditions : List (List V))
    (h : FirstMinimum score seen acc.1 acc.2) :
    FirstMinimum score (seen ++ conditions) (conditions.foldl (subsetStep score) acc).1
      (conditions.foldl (subsetStep score) acc).2 := by
  induction conditions generalizing seen acc with
  | nil => simpa using h
  | cons c conditions ih => simpa using ih (h.step score c)

/-- A witness loop that opens with the empty condition, entered from a start
value above both the threshold and the empty condition's score, ends at the
first minimum of the conditions it visits. -/
theorem FirstMinimum.scanMinSubset {m : ℚ} (later : List (List (List V))) (hm : threshold < m)
    (h0 : score [] < m) :
    FirstMinimum score (visited threshold score ([[]] :: later) m)
      (scanMinSubset threshold score ([[]] :: later) (m, [])).1
      (scanMinSubset threshold score ([[]] :: later) (m, [])).2 := by
  have hstep : subsetStep score (m, []) [] = (score [], []) := if_pos h0
  have h1 : FirstMinimum score [[]] (score [], ([] : List V)).1 (score [], ([] : List V)).2 :=
    FirstMinimum.single score []
  rw [scanMinSubset_eq_foldl, visited, if_pos hm, List.foldl_append]
  simp only [List.foldl_cons, List.foldl_nil, hstep]
  exact h1.foldl score _

end Loops

section Source

variable {w : ℕ} (d : DiscreteData w) (x y : BitVec w) (given seed : List (BitVec w))
  (maxSize : BitVec w)

/-- `std::min(static_cast<Var>(given.size()), maxSize)`: the largest size scanned. -/
def subsetSize : ℕ := min (BitVec.ofNat w given.length).toNat maxSize.toNat

/-- `minAssocScore(x, y, given, maxSize)`. -/
def minAssocScore : ℚ :=
  scanMin d.threshold (d.assocScore x y) (levels given (subsetSize given maxSize)) maxDouble

/-- `minAssocScore(x, y, given, seed, maxSize)`: every condition is joined with
`seed` by `set_union` before it is scored. -/
def minAssocScoreWithSeed : ℚ :=
  scanMin d.threshold (fun condition => d.assocScore x y (setUnion condition seed))
    (levels given (subsetSize given maxSize)) maxDouble

/-- `minAssocScoreSubset(x, y, given, maxSize)`; `z` starts as the empty set of
`set_init(SetType(), numVars())`. -/
def minAssocScoreSubset : ℚ × List (BitVec w) :=
  scanMinSubset d.threshold (d.assocScore x y) (levels given (subsetSize given maxSize))
    (maxDouble, [])

/-- `isIndependentAnySubset(x, y, given, maxSize)`. -/
def isIndependentAnySubset : Bool := d.isIndependent (minAssocScore d x y given maxSize)

/-- `isIndependentAnySubset(x, y, given, seed, maxSize)`. -/
def isIndependentAnySubsetWithSeed : Bool :=
  d.isIndependent (minAssocScoreWithSeed d x y given seed maxSize)

/-- What the any-subset tests are for: for some subset of `given` of at most
`subsetSize` variables, joined with `seed`, the score test
`isIndependent(assocScore(x, y, subset))` finds `x` and `y` independent. -/
def IndependentGivenSome : Prop :=
  ∃ z, z.Sublist given ∧ z.length ≤ subsetSize given maxSize ∧
    d.isIndependent (d.assocScore x y (setUnion z seed)) = true

/-- The scan visits exactly those subsets, so the specification can be evaluated. -/
theorem independentGivenSome_iff_scanOrder : IndependentGivenSome d x y given seed maxSize ↔
    ∃ z ∈ scanOrder given (subsetSize given maxSize),
      d.isIndependent (d.assocScore x y (setUnion z seed)) = true := by
  simp only [IndependentGivenSome, mem_scanOrder, and_assoc]

instance : Decidable (IndependentGivenSome d x y given seed maxSize) :=
  decidable_of_iff _ (independentGivenSome_iff_scanOrder d x y given seed maxSize).symm

/-- The cast of `given.size()` to `Var` only lowers the largest size scanned. -/
theorem subsetSize_le : subsetSize given maxSize ≤ min given.length maxSize.toNat := by
  rw [subsetSize, BitVec.toNat_ofNat]
  exact min_le_min_right _ (Nat.mod_le _ _)

/-- Joining with the empty seed scores every condition as it is. -/
theorem assocScore_setUnion_nil : (fun condition => d.assocScore x y (setUnion condition [])) = d.assocScore x y :=
  funext fun condition => by rw [setUnion_nil_right]

/-- With an empty seed the seeded overloads are the plain ones. -/
theorem minAssocScoreWithSeed_nil :
    minAssocScoreWithSeed d x y given [] maxSize = minAssocScore d x y given maxSize ∧
      isIndependentAnySubsetWithSeed d x y given [] maxSize = isIndependentAnySubset d x y given maxSize := by
  rw [isIndependentAnySubsetWithSeed, isIndependentAnySubset, minAssocScoreWithSeed, minAssocScore,
    assocScore_setUnion_nil]
  exact ⟨rfl, rfl⟩

/-- Below one half, stopping the size loop keeps the verdict of the full scan:
it stops only at or below the threshold, where the score already certifies
independence, and the full minimum lies lower still. -/
theorem isIndependent_scanMin (h : d.threshold < 1 / 2) (score : List (BitVec w) → ℚ)
    (levels : List (List (List (BitVec w)))) :
    d.isIndependent (scanMin d.threshold score levels maxDouble) =
      d.isIndependent (levels.flatten.foldl (minStep score) maxDouble) := by
  rcases scanMin_cases d.threshold score levels maxDouble with heq | ⟨hle, hmin⟩
  · rw [heq]
  · have hind : d.isIndependent (scanMin d.threshold score levels maxDouble) = true := by
      rw [DiscreteData.isIndependent_iff]
      linarith
    rw [hind, d.isIndependent_of_le hmin hind]

/-- Below one half, the size loop of a dependent pair runs to the end. -/
theorem scanMin_of_dependent (h : d.threshold < 1 / 2) (score : List (BitVec w) → ℚ)
    (levels : List (List (List (BitVec w))))
    (hdep : d.isIndependent (levels.flatten.foldl (minStep score) maxDouble) = false) :
    scanMin d.threshold score levels maxDouble = levels.flatten.foldl (minStep score) maxDouble := by
  refine (scanMin_cases d.threshold score levels maxDouble).resolve_right fun ⟨hle, _⟩ => ?_
  have hind : d.isIndependent (scanMin d.threshold score levels maxDouble) = true := by
    rw [DiscreteData.isIndependent_iff]
    linarith
  rw [isIndependent_scanMin d h, hdep] at hind
  cases hind

/-- A higher cap scans the levels of a lower one first. -/
theorem levels_append (given : List (BitVec w)) {n n' : ℕ} (h : n ≤ n') :
    ∃ more, levels given n' = levels given n ++ more := by
  obtain ⟨k, rfl⟩ := Nat.exists_eq_add_of_le h
  exact ⟨_, by rw [levels, levels, Nat.add_right_comm, List.range_add, List.map_append]⟩

/-- For every threshold, a higher cap on the size of the conditioning subsets
never raises the least score that either `minAssocScore` overload returns, so
it never turns an independence verdict of `isIndependentAnySubset` into
dependence: the larger scan runs the smaller one's levels first, and once the
size-level guard stops it stays stopped. -/
theorem minAssocScore_antitone {maxSize' : BitVec w} (h : maxSize.toNat ≤ maxSize'.toNat) :
    minAssocScore d x y given maxSize' ≤ minAssocScore d x y given maxSize ∧
    minAssocScoreWithSeed d x y given seed maxSize' ≤ minAssocScoreWithSeed d x y given seed maxSize ∧
    (isIndependentAnySubset d x y given maxSize = true →
      isIndependentAnySubset d x y given maxSize' = true) ∧
    (isIndependentAnySubsetWithSeed d x y given seed maxSize = true →
      isIndependentAnySubsetWithSeed d x y given seed maxSize' = true) := by
  have hle : subsetSize given maxSize ≤ subsetSize given maxSize' := min_le_min_left _ h
  obtain ⟨more, hmore⟩ := levels_append given hle
  have hscan : ∀ score : List (BitVec w) → ℚ,
      scanMin d.threshold score (levels given (subsetSize given maxSize')) maxDouble ≤
        scanMin d.threshold score (levels given (subsetSize given maxSize)) maxDouble := fun score => by
    rw [hmore, scanMin_append]
    exact scanMin_le _ _ _ _
  exact ⟨hscan _, hscan _, d.isIndependent_of_le (hscan _), d.isIndependent_of_le (hscan _)⟩

/-- A run at the usual threshold `1/20`: the empty set leaves `x` and `y` dependent
(score `99/100`), every other condition certifies independence (score `1/2`). -/
def typicalData : DiscreteData 8 where
  n := 3
  varNames := ["x", "y", "z"]
  threshold := 1 / 20
  pValue _ _ given := if given = [] then 1 / 100 else 1 / 2
  pValue_nonneg _ _ _ := by dsimp only; split_ifs <;> norm_num
  pValue_le_one _ _ _ := by dsimp only; split_ifs <;> norm_num

/-- Threshold `3/5`: the empty set scores `1/2`; `{2}` scores `3/10` for the pair
`(0, 1)` and `9/20` for any other pair. -/
def exitData : DiscreteData 8 where
  n := 4
  varNames := ["x", "y", "z", "u"]
  threshold := 3 / 5
  pValue _ y given := if given = [] then 1 / 2 else if y = 1 then 7 / 10 else 11 / 20
  pValue_nonneg _ _ _ := by dsimp only; split_ifs <;> norm_num
  pValue_le_one _ _ _ := by dsimp only; split_ifs <;> norm_num

/-- Threshold `1/20`: the seed `{3}` alone scores `0`, every other condition `99/100`. -/
def seededData : DiscreteData 8 where
  n := 4
  varNames := ["x", "y", "z", "u"]
  threshold := 1 / 20
  pValue _ _ given := if given = [3] then 1 else 1 / 100
  pValue_nonneg _ _ _ := by dsimp only; split_ifs <;> norm_num
  pValue_le_one _ _ _ := by dsimp only; split_ifs <;> norm_num

/-- For every threshold below one half, `isIndependentAnySubset` gives the verdict
of the least score over the whole scan, and a dependent pair gets that least
score from `minAssocScore`. -/
theorem minAssocScore_exit_below_half (h : d.threshold < 1 / 2) :
    isIndependentAnySubset d x y given maxSize =
      d.isIndependent (minScoreOf (d.assocScore x y) (scanOrder given (subsetSize given maxSize))) ∧
    (d.isIndependent (minScoreOf (d.assocScore x y) (scanOrder given (subsetSize given maxSize))) = false →
      minAssocScore d x y given maxSize =
        minScoreOf (d.assocScore x y) (scanOrder given (subsetSize given maxSize))) :=
  ⟨isIndependent_scanMin d h _ _, scanMin_of_dependent d h _ _⟩

theorem minAssocScore_exit_below_half_typical :
    typicalData.threshold < 1 / 2 ∧ isIndependentAnySubset typicalData 0 1 [2] 1 = true := by
  have h : typicalData.threshold < 1 / 2 := by with_unfolding_all decide
  exact ⟨h, (minAssocScore_exit_below_half typicalData 0 1 [2] 1 h).1.trans
    (by with_unfolding_all decide)⟩

/-- The seeded overload obeys the same law, every condition joined with `seed`. -/
theorem minAssocScoreWithSeed_exit_below_half (h : d.threshold < 1 / 2) :
    isIndependentAnySubsetWithSeed d x y given seed maxSize =
      d.isIndependent (minScoreOf (fun c => d.assocScore x y (setUnion c seed))
        (scanOrder given (subsetSize given maxSize))) ∧
    (d.isIndependent (minScoreOf (fun c => d.assocScore x y (setUnion c seed))
        (scanOrder given (subsetSize given maxSize))) = false →
      minAssocScoreWithSeed d x y given seed maxSize =
        minScoreOf (fun c => d.assocScore x y (setUnion c seed))
          (scanOrder given (subsetSize given maxSize))) :=
  ⟨isIndependent_scanMin d h _ _, scanMin_of_dependent d h _ _⟩

/-- The seed `{3}` alone certifies independence, so the size loop stops after
the empty condition, before `{2} ∪ {3}`; the verdict is the full scan's. -/
theorem minAssocScoreWithSeed_exit_below_half_seeded :
    seededData.threshold < 1 / 2 ∧ isIndependentAnySubsetWithSeed seededData 0 1 [2] [3] 1 = true := by
  have h : seededData.threshold < 1 / 2 := by with_unfolding_all decide
  exact ⟨h, (minAssocScoreWithSeed_exit_below_half seededData 0 1 [2] [3] 1 h).1.trans
    (by with_unfolding_all decide)⟩

/-- A least score certifies independence exactly when one of the scores does. -/
theorem isIndependent_minScoreOf_iff {score : List (BitVec w) → ℚ} {conditions : List (List (BitVec w))}
    (hne : conditions ≠ []) (hlt : ∀ c ∈ conditions, score c < maxDouble) :
    d.isIndependent (minScoreOf score conditions) = true ↔
      ∃ c ∈ conditions, d.isIndependent (score c) = true := by
  constructor
  · intro h
    obtain ⟨c, hc, heq⟩ := exists_minScoreOf score hne hlt
    exact ⟨c, hc, heq ▸ h⟩
  · rintro ⟨c, hc, h⟩
    exact d.isIndependent_of_le (foldl_minStep_le_score score hc _) h

/-- The least score over the whole scan certifies independence exactly when
the specification holds. -/
theorem isIndependent_minScoreOf_scanOrder :
    d.isIndependent (minScoreOf (fun z => d.assocScore x y (setUnion z seed))
      (scanOrder given (subsetSize given maxSize))) = true ↔ IndependentGivenSome d x y given seed maxSize := by
  rw [isIndependent_minScoreOf_iff d (scanOrder_ne_nil _ _) fun _ _ => d.assocScore_lt_maxDouble x y _,
    independentGivenSome_iff_scanOrder]

/-- Below a threshold of one half both any-subset tests do what they are for:
they find independence exactly when the score test passes for some subset of
`given` within the size cap (joined with `seed`). -/
theorem isIndependentAnySubset_refines (h : d.threshold < 1 / 2) :
    (isIndependentAnySubset d x y given maxSize = true ↔ IndependentGivenSome d x y given [] maxSize) ∧
    (isIndependentAnySubsetWithSeed d x y given seed maxSize = true ↔
      IndependentGivenSome d x y given seed maxSize) := by
  have hseed : ∀ seed, isIndependentAnySubsetWithSeed d x y given seed maxSize = true ↔
      IndependentGivenSome d x y given seed maxSize := fun seed => by
    rw [isIndependentAnySubsetWithSeed, minAssocScoreWithSeed, isIndependent_scanMin d h]
    exact isIndependent_minScoreOf_scanOrder d x y given seed maxSize
  rw [← (minAssocScoreWithSeed_nil d x y given maxSize).2]
  exact ⟨hseed [], hseed seed⟩

theorem isIndependentAnySubset_refines_typical :
    typicalData.threshold < 1 / 2 ∧
      (isIndependentAnySubset typicalData 0 1 [2] 1 = true ↔ IndependentGivenSome typicalData 0 1 [2] [] 1) ∧
      (isIndependentAnySubsetWithSeed typicalData 0 1 [2] [] 1 = true ↔
        IndependentGivenSome typicalData 0 1 [2] [] 1) := by
  have h : typicalData.threshold < 1 / 2 := by with_unfolding_all decide
  exact ⟨h, isIndependentAnySubset_refines typicalData 0 1 [2] [] 1 h⟩

/-- For every threshold, both `minAssocScore` overloads return at most the
threshold or at most the score of every subset within the size cap: the
size-level exit can leave a later, lower score unseen only once the running
minimum has fallen to the threshold. -/
theorem minAssocScore_le_max {z : List (BitVec w)} (hz : z.Sublist given)
    (hlen : z.length ≤ subsetSize given maxSize) :
    minAssocScore d x y given maxSize ≤ max d.threshold (d.assocScore x y z) ∧
    minAssocScoreWithSeed d x y given seed maxSize ≤
      max d.threshold (d.assocScore x y (setUnion z seed)) :=
  ⟨scanMin_le_max _ _ _ _ (mem_scanOrder.2 ⟨hz, hlen⟩),
    scanMin_le_max _ _ _ _ (mem_scanOrder.2 ⟨hz, hlen⟩)⟩

theorem minAssocScore_le_max_typical :
    ([2] : List (BitVec 8)).Sublist [2] ∧
      ([2] : List (BitVec 8)).length ≤ subsetSize ([2] : List (BitVec 8)) 1 ∧
      minAssocScore typicalData 0 1 [2] 1 ≤ max typicalData.threshold (typicalData.assocScore 0 1 [2]) := by
  have hz : ([2] : List (BitVec 8)).Sublist [2] := List.Sublist.refl _
  have hlen : ([2] : List (BitVec 8)).length ≤ subsetSize ([2] : List (BitVec 8)) 1 := by decide
  exact ⟨hz, hlen, (minAssocScore_le_max typicalData 0 1 [2] [] 1 hz hlen).1⟩

/-- At threshold `3/5` the size loop stops after the empty set, whose score `1/2`
is below the threshold without certifying independence: the pair `(0, 1)` is
found dependent though `{2}` certifies its independence, and the dependent
pair `(0, 3)` gets `1/2` instead of its least score `9/20`. -/
theorem minAssocScore_exit_at_three_fifths :
    isIndependentAnySubset exitData 0 1 [2] 1 = false ∧
    exitData.isIndependent
      (minScoreOf (exitData.assocScore 0 1) (scanOrder [2] (subsetSize ([2] : List (BitVec 8)) 1))) = true ∧
    minAssocScore exitData 0 3 [2] 1 = 1 / 2 ∧
    minScoreOf (exitData.assocScore 0 3) (scanOrder [2] (subsetSize ([2] : List (BitVec 8)) 1)) = 9 / 20 ∧
    exitData.isIndependent (9 / 20) = false := by
  with_unfolding_all decide

/-- Below `maxDouble` the witness loop scores the empty set first, so its subset
is one it visited: a subset of `given` within the size cap that attains the
minimum of `minAssocScore`, with no earlier subset of the scan order tying it. -/
theorem minAssocScoreSubset_first (h : d.threshold < maxDouble) :
    (minAssocScoreSubset d x y given maxSize).1 = minAssocScore d x y given maxSize ∧
    (minAssocScoreSubset d x y given maxSize).2.Sublist given ∧
    (minAssocScoreSubset d x y given maxSize).2.length ≤ min given.length maxSize.toNat ∧
    d.assocScore x y (minAssocScoreSubset d x y given maxSize).2 =
      (minAssocScoreSubset d x y given maxSize).1 ∧
    ∃ pre post, scanOrder given (subsetSize given maxSize) =
        pre ++ (minAssocScoreSubset d x y given maxSize).2 :: post ∧
      ∀ c ∈ pre, d.assocScore x y c ≠ (minAssocScoreSubset d x y given maxSize).1 := by
  set score := d.assocScore x y
  have hfirst : FirstMinimum score (visited d.threshold score (levels given (subsetSize given maxSize))
      maxDouble) (minAssocScoreSubset d x y given maxSize).1
      (minAssocScoreSubset d x y given maxSize).2 := by
    rw [minAssocScoreSubset, levels_eq_cons]
    exact FirstMinimum.scanMinSubset d.threshold score _ h (d.assocScore_lt_maxDouble x y [])
  obtain ⟨rest, hrest⟩ := visited_prefix d.threshold score (levels given (subsetSize given maxSize)) maxDouble
  obtain ⟨pre, post, hsplit, hlt⟩ := hfirst.split
  have hscan : scanOrder given (subsetSize given maxSize) =
      pre ++ (minAssocScoreSubset d x y given maxSize).2 :: (post ++ rest) := by
    rw [scanOrder, ← hrest, hsplit]
    simp
  have hmem := mem_scanOrder.1 (hscan ▸ List.mem_append_right pre (List.mem_cons_self _ _))
  exact ⟨scanMinSubset_fst _ _ _ _, hmem.1, hmem.2.trans (subsetSize_le given maxSize),
    hfirst.score_eq, pre, post ++ rest, hscan, fun c hc => (hlt c hc).ne'⟩

theorem minAssocScoreSubset_first_typical :
    typicalData.threshold < maxDouble ∧
      (minAssocScoreSubset typicalData 0 1 [2] 1).1 = minAssocScore typicalData 0 1 [2] 1 ∧
      typicalData.assocScore 0 1 (minAssocScoreSubset typicalData 0 1 [2] 1).2 =
        (minAssocScoreSubset typicalData 0 1 [2] 1).1 := by
  have h : typicalData.threshold < maxDouble := by with_unfolding_all decide
  have hs := minAssocScoreSubset_first typicalData 0 1 [2] 1 h
  exact ⟨h, hs.1, hs.2.2.2.1⟩

theorem minAssocScore_antitone_typical :
    (0 : BitVec 8).toNat ≤ (1 : BitVec 8).toNat ∧
      minAssocScore typicalData 0 1 [2] 1 ≤ minAssocScore typicalData 0 1 [2] 0 := by
  have h : (0 : BitVec 8).toNat ≤ (1 : BitVec 8).toNat := by decide
  exact ⟨h, (minAssocScore_antitone typicalData 0 1 [2] [] 0 h).1⟩

/-- A threshold of `maxDouble` stops the witness loop before its first subset. -/
def saturatedData : DiscreteData 8 where
  n := 1
  varNames := ["x"]
  threshold := maxDouble
  pValue _ _ _ := 0
  pValue_nonneg _ _ _ := le_rfl
  pValue_le_one _ _ _ := zero_le_one

/-- For every threshold at or above `maxDouble` the witness loop enters no
level: it returns `(maxDouble, {})`, and the empty set scores below `maxDouble`. -/
theorem minAssocScoreSubset_of_maxDouble_le (h : maxDouble ≤ d.threshold) :
    minAssocScoreSubset d x y given maxSize = (maxDouble, []) ∧ d.assocScore x y [] < maxDouble := by
  refine ⟨?_, d.assocScore_lt_maxDouble x y []⟩
  rw [minAssocScoreSubset, levels_eq_cons, scanMinSubset, if_neg (not_lt.2 h)]

/-- There the loop returns `(maxDouble, {})`, and the empty set scores `1`. -/
theorem minAssocScoreSubset_saturated :
    saturatedData.assocScore 0 0 (minAssocScoreSubset saturatedData 0 0 [] 0).2 ≠
      (minAssocScoreSubset saturatedData 0 0 [] 0).1 := by
  obtain ⟨heq, hlt⟩ := minAssocScoreSubset_of_maxDouble_le saturatedData 0 0 [] 0 le_rfl
  rw [heq]
  exact hlt.ne

end Source

end Ramble.Scan
