import Ramble.Oracle

/-!
# Subset enumeration and set union

The scans of `DiscreteData` walk the subsets of the conditioning set by
ascending size. The `Subsets` iterator class is not in the source and is
modelled from the spec: combinatorial order by position, nothing when the
size exceeds the set's, exactly the empty set at size zero. Sets are their
ascending element lists, so a subset is a sublist. `set_union` merges two
ascending lists as `std::set_union` does, and `insert` places an element
where `std::set` keeps it.
-/

namespace Ramble.Subsets

variable {α : Type*}

/-- Modelled from the spec: the `Subsets` iterator (`SetUtils.hpp`) is not in the
source. The `k`-element subsets of `given` in combinatorial order, those that
keep the first element coming first. -/
def subsets : List α → ℕ → List (List α)
  | _, 0 => [[]]
  | [], _ + 1 => []
  | a :: as, k + 1 => (subsets as k).map (a :: ·) ++ subsets as (k + 1)

/-- The levels of a scan: `Subsets(given, i)` for `i = 0, ..., subsetSize`. -/
def levels (given : List α) (subsetSize : ℕ) : List (List (List α)) :=
  (List.range (subsetSize + 1)).map (subsets given)

/-- The scan order of every loop over the levels: ascending size, then `Subsets` order. -/
def scanOrder (given : List α) (subsetSize : ℕ) : List (List α) :=
  (levels given subsetSize).flatten

/-- The enumeration yields exactly the sublists of the given length. -/
theorem mem_subsets {l s : List α} {k : ℕ} : s ∈ subsets l k ↔ s.Sublist l ∧ s.length = k := by
  induction l generalizing s k with
  | nil => cases k <;> simp [subsets, eq_comm]; rintro rfl; simp
  | cons a as ih =>
    cases k with
    | zero => simp [subsets, List.length_eq_zero]; rintro rfl; exact List.nil_sublist _
    | succ k =>
      simp only [subsets, List.mem_append, List.mem_map, ih, List.sublist_cons_iff]
      constructor
      · rintro (⟨r, ⟨hr, rfl⟩, rfl⟩ | h)
        · exact ⟨.inr ⟨r, rfl, hr⟩, by simp⟩
        · exact ⟨.inl h.1, h.2⟩
      · rintro ⟨h | ⟨r, rfl, hr⟩, hk⟩
        · exact .inr ⟨h, hk⟩
        · exact .inl ⟨r, ⟨hr, by simpa using hk⟩, rfl⟩

/-- A size beyond the set's yields no subset. -/
theorem subsets_eq_nil {l : List α} {k : ℕ} (h : l.length < k) : subsets l k = [] := by
  refine List.eq_nil_iff_forall_not_mem.2 fun s hs => ?_
  have hl := (mem_subsets.1 hs).1.length_le
  rw [(mem_subsets.1 hs).2] at hl
  omega

/-- The scan visits every sublist of at most `subsetSize` elements, and nothing else. -/
theorem mem_scanOrder {given s : List α} {subsetSize : ℕ} :
    s ∈ scanOrder given subsetSize ↔ s.Sublist given ∧ s.length ≤ subsetSize := by
  simp only [scanOrder, levels, List.mem_flatten, List.mem_map, List.mem_range]
  constructor
  · rintro ⟨_, ⟨i, hi, rfl⟩, hs⟩
    exact ⟨(mem_subsets.1 hs).1, by rw [(mem_subsets.1 hs).2]; omega⟩
  · rintro ⟨hs, hk⟩
    exact ⟨_, ⟨s.length, by omega, rfl⟩, mem_subsets.2 ⟨hs, rfl⟩⟩

/-- Every scan holds the empty set. -/
theorem scanOrder_ne_nil (given : List α) (subsetSize : ℕ) : scanOrder given subsetSize ≠ [] :=
  List.ne_nil_of_mem (mem_scanOrder.2 ⟨List.nil_sublist _, Nat.zero_le _⟩)

/-- Every scan opens with the level of the empty set. -/
theorem levels_eq_cons (given : List α) (subsetSize : ℕ) :
    levels given subsetSize = [[]] :: (List.range subsetSize).map (subsets given ∘ Nat.succ) := by
  simp [levels, List.range_succ_eq_map, subsets]

section Sets

variable {w : ℕ}

/-- `set_union(first, second)`: the merge of `std::set_union` on ascending lists,
taking a shared element once. -/
def setUnion : List (BitVec w) → List (BitVec w) → List (BitVec w)
  | [], second => second
  | first, [] => first
  | a :: first, b :: second =>
    if b < a then b :: setUnion (a :: first) second
    else if a < b then a :: setUnion first (b :: second)
    else a :: setUnion first second
termination_by first second => first.length + second.length
decreasing_by all_goals simp only [List.length_cons]; omega

/-- The union holds exactly the elements of either set. -/
theorem mem_setUnion {v : BitVec w} (first second : List (BitVec w)) :
    v ∈ setUnion first second ↔ v ∈ first ∨ v ∈ second := by
  induction first, second using setUnion.induct with
  | case1 second => simp only [setUnion, List.not_mem_nil, false_or]
  | case2 first h =>
    cases first <;> simp_all only [imp_false, not_true_eq_false, setUnion, List.mem_cons,
      List.not_mem_nil, or_false]
  | case3 a first b second hba ih =>
    simp only [setUnion, hba, ite_true, List.mem_cons, ih, or_left_comm]
  | case4 a first b second hba hab ih =>
    simp only [setUnion, hba, ite_false, hab, ite_true, List.mem_cons, ih, or_assoc]
  | case5 a first b second hba hab ih =>
    have hab' : a = b := BitVec.eq_of_toNat_eq (by rw [BitVec.lt_def] at hba hab; omega)
    subst hab'
    simp only [setUnion, hba, if_false, List.mem_cons, ih]
    exact or_or_distrib_left

theorem setUnion_nil_right (first : List (BitVec w)) : setUnion first [] = first := by
  cases first with
  | nil => rw [setUnion]
  | cons a first => rw [setUnion]; exact List.cons_ne_nil a first

/-- `set.insert(hint, v)` on a `std::set`: `v` joins the ascending list unless
it is there already; the hint changes only the cost. -/
def setInsert (v : BitVec w) : List (BitVec w) → List (BitVec w)
  | [] => [v]
  | a :: set => if v < a then v :: a :: set else if a < v then a :: setInsert v set else a :: set

theorem mem_setInsert {u v : BitVec w} (set : List (BitVec w)) :
    u ∈ setInsert v set ↔ u = v ∨ u ∈ set := by
  induction set with
  | nil => simp only [setInsert, List.mem_singleton, List.not_mem_nil, or_false]
  | cons a set ih =>
    by_cases hva : v < a
    · simp only [setInsert, hva, ite_true, List.mem_cons]
    · by_cases hav : a < v
      · simp only [setInsert, hva, ite_false, hav, ite_true, List.mem_cons, ih, or_left_comm]
      · have hv : v = a := BitVec.eq_of_toNat_eq (by rw [BitVec.lt_def] at hva hav; omega)
        subst hv
        simp only [setInsert, hva, ite_false, List.mem_cons, or_self_left]

/-- Insertion keeps a set strictly ascending. -/
theorem pairwise_setInsert (v : BitVec w) {set : List (BitVec w)}
    (h : set.Pairwise (· < ·)) : (setInsert v set).Pairwise (· < ·) := by
  induction set with
  | nil => exact List.pairwise_singleton _ _
  | cons a set ih =>
    have hlt : ∀ b ∈ set, a < b := fun _ => List.rel_of_pairwise_cons h
    unfold setInsert
    split_ifs with hva hav
    · exact h.cons fun b hb => (List.mem_cons.1 hb).elim (· ▸ hva)
        fun hb => BitVec.lt_def.2 ((BitVec.lt_def.1 hva).trans (BitVec.lt_def.1 (hlt b hb)))
    · refine (ih h.of_cons).cons fun b hb => ?_
      rcases (mem_setInsert set).1 hb with rfl | hb
      exacts [hav, hlt b hb]
    · exact h

end Sets

end Ramble.Subsets
