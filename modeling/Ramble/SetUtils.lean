import Mathlib.Data.Finset.Basic
import Ramble.Subsets

/-!
# The set algorithms of `StdSetUtils.hpp`

For `std::set<Var>` the utilities run the standard algorithms on ascending
ranges: `set_contains` looks a value up, `set_union` and `set_difference`
merge two sets into a fresh one through `std::inserter`, and `set_init` hands
back the set it is given. A `std::set` is its strictly ascending element list
here, and `VarSet` carries that invariant. Two such lists with the same
elements are equal, so `std::inserter` rebuilds a merge's output unchanged,
and every operation computes the operation of the same name on `Finset`.
-/

namespace Ramble.Subsets

variable {w : ℕ}

/-- `set_difference(first, second)`: the merge of `std::set_difference` on
ascending lists, keeping the elements of `first` that `second` lacks. -/
def setDifference : List (BitVec w) → List (BitVec w) → List (BitVec w)
  | [], _ => []
  | first, [] => first
  | a :: first, b :: second =>
    if a < b then a :: setDifference first (b :: second)
    else if b < a then setDifference (a :: first) second
    else setDifference first second
termination_by first second => first.length + second.length
decreasing_by all_goals simp only [List.length_cons]; omega

/-- `set_contains(set, value)`: `set.find(value) != set.end()`. -/
def setContains (set : List (BitVec w)) (value : BitVec w) : Bool := decide (value ∈ set)

/-- The set `std::inserter(result, result.begin())` builds from the values it
receives, starting from an empty `result`. -/
def insertAll (values : List (BitVec w)) : List (BitVec w) :=
  values.foldl (fun set v => setInsert v set) []

section Order

/-- A strictly ascending list starts below every later element. -/
theorem lt_of_mem_of_lt {a b v : BitVec w} {l : List (BitVec w)} (hl : (b :: l).Pairwise (· < ·))
    (hab : a < b) (hv : v ∈ b :: l) : a < v := by
  rcases List.mem_cons.1 hv with rfl | hv
  · exact hab
  · exact BitVec.lt_def.2 ((BitVec.lt_def.1 hab).trans (BitVec.lt_def.1 (List.rel_of_pairwise_cons hl hv)))

theorem not_mem_of_lt {a b : BitVec w} {l : List (BitVec w)} (hl : (b :: l).Pairwise (· < ·))
    (hab : a < b) : a ∉ b :: l := fun ha => BitVec.lt_irrefl a (lt_of_mem_of_lt hl hab ha)

/-- Two strictly ascending lists with the same elements are equal. -/
theorem eq_of_mem_iff {a b : List (BitVec w)} (ha : a.Pairwise (· < ·)) (hb : b.Pairwise (· < ·))
    (h : ∀ v, v ∈ a ↔ v ∈ b) : a = b := by
  have hs : ∀ l : List (BitVec w), l.Pairwise (· < ·) → (l.map BitVec.toNat).Sorted (· < ·) :=
    fun l hl => List.pairwise_map.2 (hl.imp BitVec.lt_def.1)
  refine List.map_injective_iff.2 BitVec.toNat_injective (List.eq_of_perm_of_sorted
    ((List.perm_ext_iff_of_nodup (hs a ha).nodup (hs b hb).nodup).2 fun n => ?_) (hs a ha) (hs b hb))
  simp only [List.mem_map, h]

end Order

/-- The union of two strictly ascending lists is strictly ascending. -/
theorem pairwise_setUnion {first second : List (BitVec w)} (hf : first.Pairwise (· < ·))
    (hs : second.Pairwise (· < ·)) : (setUnion first second).Pairwise (· < ·) := by
  induction first, second using setUnion.induct with
  | case1 second => simpa only [setUnion] using hs
  | case2 first h =>
    cases first with
    | nil => exact absurd rfl h
    | cons a first => simpa only [setUnion] using hf
  | case3 a first b second hba ih =>
    rw [setUnion, if_pos hba]
    refine (ih hf hs.of_cons).cons fun v hv => ?_
    rcases (mem_setUnion _ _).1 hv with hv | hv
    exacts [lt_of_mem_of_lt hf hba hv, List.rel_of_pairwise_cons hs hv]
  | case4 a first b second hba hab ih =>
    rw [setUnion, if_neg hba, if_pos hab]
    refine (ih hf.of_cons hs).cons fun v hv => ?_
    rcases (mem_setUnion _ _).1 hv with hv | hv
    exacts [List.rel_of_pairwise_cons hf hv, lt_of_mem_of_lt hs hab hv]
  | case5 a first b second hba hab ih =>
    have hab' : a = b := BitVec.eq_of_toNat_eq (by rw [BitVec.lt_def] at hba hab; omega)
    subst hab'
    rw [setUnion, if_neg hba, if_neg hab]
    refine (ih hf.of_cons hs.of_cons).cons fun v hv => ?_
    rcases (mem_setUnion _ _).1 hv with hv | hv
    exacts [List.rel_of_pairwise_cons hf hv, List.rel_of_pairwise_cons hs hv]

/-- The difference keeps elements of `first` only, in their order. -/
theorem setDifference_sublist (first second : List (BitVec w)) :
    (setDifference first second).Sublist first := by
  induction first, second using setDifference.induct with
  | case1 second => simp only [setDifference, List.Sublist.refl]
  | case2 first h =>
    cases first with
    | nil => exact absurd rfl h
    | cons a first => simp only [setDifference, List.Sublist.refl]
  | case3 a first b second hab ih =>
    rw [setDifference, if_pos hab]
    exact ih.cons₂ a
  | case4 a first b second hab hba ih =>
    rw [setDifference, if_neg hab, if_pos hba]
    exact ih
  | case5 a first b second hab hba ih =>
    rw [setDifference, if_neg hab, if_neg hba]
    exact ih.cons a

theorem pairwise_setDifference {first : List (BitVec w)} (second : List (BitVec w))
    (hf : first.Pairwise (· < ·)) : (setDifference first second).Pairwise (· < ·) :=
  hf.sublist (setDifference_sublist first second)

/-- On strictly ascending lists the difference holds exactly the elements of
`first` that are not in `second`. -/
theorem mem_setDifference {v : BitVec w} {first second : List (BitVec w)} (hf : first.Pairwise (· < ·))
    (hs : second.Pairwise (· < ·)) : v ∈ setDifference first second ↔ v ∈ first ∧ v ∉ second := by
  induction first, second using setDifference.induct with
  | case1 second => simp only [setDifference, List.not_mem_nil, false_and]
  | case2 first h =>
    cases first with
    | nil => exact absurd rfl h
    | cons a first => simp only [setDifference, List.not_mem_nil, not_false_eq_true, and_true]
  | case3 a first b second hab ih =>
    rw [setDifference, if_pos hab, List.mem_cons, ih hf.of_cons hs]
    constructor
    · rintro (rfl | ⟨hv, hvs⟩)
      exacts [⟨List.mem_cons_self _ _, not_mem_of_lt hs hab⟩, ⟨List.mem_cons_of_mem _ hv, hvs⟩]
    · rintro ⟨hv, hvs⟩
      rcases List.mem_cons.1 hv with rfl | hv
      exacts [.inl rfl, .inr ⟨hv, hvs⟩]
  | case4 a first b second hab hba ih =>
    rw [setDifference, if_neg hab, if_pos hba, ih hf hs.of_cons]
    have hb : v ∈ a :: first → v ≠ b := fun hv hvb => by
      subst hvb
      exact BitVec.lt_irrefl _ (lt_of_mem_of_lt hf hba hv)
    simp only [List.mem_cons, not_or] at hb ⊢
    exact ⟨fun h => ⟨h.1, hb h.1, h.2⟩, fun h => ⟨h.1, h.2.2⟩⟩
  | case5 a first b second hab hba ih =>
    have hab' : a = b := BitVec.eq_of_toNat_eq (by rw [BitVec.lt_def] at hab hba; omega)
    subst hab'
    rw [setDifference, if_neg hab, if_neg hba, ih hf.of_cons hs.of_cons]
    have ha : v ∈ first → v ≠ a := fun hv hva => by
      subst hva
      exact BitVec.lt_irrefl _ (List.rel_of_pairwise_cons hf hv)
    simp only [List.mem_cons, not_or]
    exact ⟨fun h => ⟨.inr h.1, ha h.1, h.2⟩, fun h => ⟨h.1.resolve_left h.2.1, h.2.2⟩⟩

theorem mem_foldl_insert {v : BitVec w} (values set : List (BitVec w)) :
    v ∈ values.foldl (fun set v => setInsert v set) set ↔ v ∈ set ∨ v ∈ values := by
  induction values generalizing set with
  | nil => simp
  | cons a values ih =>
    simp only [List.foldl_cons, ih, mem_setInsert, List.mem_cons, or_assoc]
    exact or_left_comm

theorem pairwise_foldl_insert (values : List (BitVec w)) {set : List (BitVec w)}
    (hs : set.Pairwise (· < ·)) : (values.foldl (fun set v => setInsert v set) set).Pairwise (· < ·) := by
  induction values generalizing set with
  | nil => exact hs
  | cons a values ih => exact ih (pairwise_setInsert a hs)

/-- `std::inserter` receiving a strictly ascending list builds that list: a
merge's output is the set it produces. -/
theorem insertAll_of_pairwise {values : List (BitVec w)} (h : values.Pairwise (· < ·)) :
    insertAll values = values :=
  eq_of_mem_iff (pairwise_foldl_insert values .nil) h fun v => by
    rw [insertAll, mem_foldl_insert]
    simp

/-- A `std::set<Var>`: its elements in iteration order, strictly ascending. -/
structure VarSet (w : ℕ) where
  /-- The elements, as iteration visits them. -/
  elems : List (BitVec w)
  /-- Iteration is strictly ascending. -/
  ascending : elems.Pairwise (· < ·)

namespace VarSet

/-- `Set()`, which `set_init` hands back. -/
def empty : VarSet w := ⟨[], .nil⟩

/-- `set_union(first, second)`: the merge's output inserted into a fresh set. -/
def union (first second : VarSet w) : VarSet w :=
  ⟨insertAll (setUnion first.elems second.elems), pairwise_foldl_insert _ .nil⟩

/-- `set_difference(first, second)`: the merge's output inserted into a fresh set. -/
def difference (first second : VarSet w) : VarSet w :=
  ⟨insertAll (setDifference first.elems second.elems), pairwise_foldl_insert _ .nil⟩

/-- `set.insert(v)`. -/
def insert (v : BitVec w) (set : VarSet w) : VarSet w :=
  ⟨setInsert v set.elems, pairwise_setInsert v set.ascending⟩

/-- `set_contains(set, value)`. -/
def contains (set : VarSet w) (value : BitVec w) : Bool := setContains set.elems value

/-- The finite set a `std::set` stands for. -/
def toFinset (set : VarSet w) : Finset (BitVec w) := set.elems.toFinset

theorem toFinset_injective : Function.Injective (toFinset : VarSet w → Finset (BitVec w)) := by
  rintro ⟨a, ha⟩ ⟨b, hb⟩ h
  obtain rfl := eq_of_mem_iff ha hb fun v => by
    simpa only [toFinset, List.mem_toFinset] using Finset.ext_iff.1 h v
  rfl

theorem union_elems (a b : VarSet w) : (a.union b).elems = setUnion a.elems b.elems :=
  insertAll_of_pairwise (pairwise_setUnion a.ascending b.ascending)

theorem difference_elems (a b : VarSet w) : (a.difference b).elems = setDifference a.elems b.elems :=
  insertAll_of_pairwise (pairwise_setDifference _ a.ascending)

/-- `std::set<Var>` with the utilities of `StdSetUtils.hpp` implements finite
sets of variables: the sets `set_union` and `set_difference` build through
`std::inserter` are the merges' outputs themselves; `set_union`,
`set_difference`, `insert` and `set_contains` compute union, difference,
insertion and membership of the finite sets the operands stand for; and two
sets standing for the same finite set are the same set, with the same
iteration order. -/
theorem refines_finset (a b : VarSet w) (v : BitVec w) :
    (a.union b).elems = setUnion a.elems b.elems ∧
    (a.difference b).elems = setDifference a.elems b.elems ∧
    (a.union b).toFinset = a.toFinset ∪ b.toFinset ∧
    (a.difference b).toFinset = a.toFinset \ b.toFinset ∧
    (a.insert v).toFinset = Insert.insert v a.toFinset ∧
    (a.contains v = true ↔ v ∈ a.toFinset) ∧
    Function.Injective (toFinset : VarSet w → Finset (BitVec w)) := by
  refine ⟨union_elems a b, difference_elems a b, ?_, ?_, ?_, by simp [contains, setContains, toFinset],
    toFinset_injective⟩ <;>
    ext u <;> simp only [toFinset, union_elems, difference_elems, insert, List.mem_toFinset,
      Finset.mem_union, Finset.mem_sdiff, Finset.mem_insert, mem_setUnion, mem_setInsert,
      mem_setDifference a.ascending b.ascending]

end VarSet

end Ramble.Subsets
