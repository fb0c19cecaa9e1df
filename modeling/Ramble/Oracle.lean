import Mathlib.Algebra.Order.Field.Rat
import Mathlib.Data.BitVec
import Mathlib.Data.List.Nodup
import Mathlib.Tactic.Linarith

/-!
# The conditional-independence oracle of `DiscreteData`

`DiscreteData<Counter, Var>` keeps the counter, the variable names and the
significance threshold. `Var` has width `w` (`uint8_t` or `uint16_t` in the
driver), so `numVars` and `varIndex` are computed modulo `2 ^ w`. The G-square
statistic and the chi-square tail behind `pValue` are not in the source and
enter as an oracle with values in `[0, 1]`. Scores are exact rationals; the
rounding of the `double` arithmetic is not modelled. So `assocScore` is
`1 - pValue` exactly and the test of a score is `1 - assocScore > α` exactly,
where the code rounds both subtractions: within a few ulps of `α` the code's
verdict can differ from the model's, and `1.0 - (1.0 - p) > α` need not agree
with `p > α`. Every statement here is about the score test the code applies,
and none compares a p-value with `α` directly.
-/

namespace Ramble.Oracle

/-- `std::numeric_limits<double>::max()`, the start value of every running minimum. -/
def maxDouble : ℚ :=
  179769313486231570814527423731704356798070567525844996598917476803157260780028538760589558632766878171540458953514382464234321326889464182768467546703537516986049910576551282076245490090389328944075868508455133942304583236903222948165808559332123348274797826204144723168738177180919299881250404026184124858368

example : maxDouble = (2 ^ 53 - 1) * 2 ^ 971 := by norm_num [maxDouble]

/-- The query state of `DiscreteData<Counter, Var>` for `Var` of width `w`. -/
structure DiscreteData (w : ℕ) where
  /-- `m_counter.n()`, the number of variables of the dataset. -/
  n : ℕ
  /-- `m_varNames`, one name per variable. -/
  varNames : List String
  /-- `m_threshold`, the target nominal type I error rate. -/
  threshold : ℚ
  /-- `pValue(x, y, given)`: the chi-square tail of the G-square statistic. -/
  pValue : BitVec w → BitVec w → List (BitVec w) → ℚ
  /-- A p-value is never negative. -/
  pValue_nonneg : ∀ x y given, 0 ≤ pValue x y given
  /-- A p-value never exceeds one. -/
  pValue_le_one : ∀ x y given, pValue x y given ≤ 1

namespace DiscreteData

variable {w : ℕ} (d : DiscreteData w)

/-- `assocScore(x, y, given) = 1.0 - pValue(x, y, given)`. -/
def assocScore (x y : BitVec w) (given : List (BitVec w)) : ℚ := 1 - d.pValue x y given

/-- `isIndependent(assocScore)`: `std::isgreater(1.0 - assocScore, m_threshold)`. -/
def isIndependent (assocScore : ℚ) : Bool := decide (d.threshold < 1 - assocScore)

/-- `numVars()`: `static_cast<Var>(m_counter.n())`. -/
def numVars : BitVec w := BitVec.ofNat w d.n

/-- The loop of `varIndex`: `x` counts, in `Var`, the names passed before a match. -/
def varIndexFrom (name : String) : List String → BitVec w → BitVec w
  | [], x => x
  | var :: vars, x => if var = name then x else varIndexFrom name vars (x + 1)

/-- `varIndex(name)`: the position of `name` in `m_varNames`, as a `Var`. -/
def varIndex (name : String) : BitVec w := varIndexFrom name d.varNames 0

theorem assocScore_nonneg (x y : BitVec w) (given : List (BitVec w)) :
    0 ≤ d.assocScore x y given := by
  simpa [assocScore] using d.pValue_le_one x y given

theorem assocScore_le_one (x y : BitVec w) (given : List (BitVec w)) :
    d.assocScore x y given ≤ 1 := by
  simpa [assocScore] using d.pValue_nonneg x y given

/-- Every score lies strictly below the start value of the running minima. -/
theorem assocScore_lt_maxDouble (x y : BitVec w) (given : List (BitVec w)) :
    d.assocScore x y given < maxDouble :=
  (d.assocScore_le_one x y given).trans_lt (by norm_num [maxDouble])

theorem isIndependent_iff (s : ℚ) : d.isIndependent s = true ↔ d.threshold < 1 - s := by
  simp [isIndependent]

/-- A lower score keeps an independence verdict: the test is antitone. -/
theorem isIndependent_of_le {s t : ℚ} (h : s ≤ t) (ht : d.isIndependent t = true) :
    d.isIndependent s = true := by
  rw [isIndependent_iff] at ht ⊢
  linarith

/-- The loop counts the names before the first match, wrapping in `Var`. -/
theorem varIndexFrom_eq (name : String) (vars : List String) (x : BitVec w) :
    varIndexFrom name vars x = x + BitVec.ofNat w (vars.indexOf name) := by
  induction vars generalizing x with
  | nil => simp [varIndexFrom, List.indexOf_nil]
  | cons var vars ih =>
    by_cases h : var = name
    · simp [varIndexFrom, h, List.indexOf_cons_self]
    · rw [varIndexFrom, if_neg h, ih, List.indexOf_cons_ne _ h, Nat.succ_eq_add_one,
        BitVec.ofNat_add, add_comm _ (BitVec.ofNat w 1), add_assoc]
      rfl

theorem varIndex_toNat (name : String) :
    (d.varIndex name).toNat = d.varNames.indexOf name % 2 ^ w := by
  simp [varIndex, varIndexFrom_eq]

end DiscreteData

end Ramble.Oracle
