import Mathlib.Data.List.GetD
import Ramble.Scan

/-!
# Names and indices of the variables

`varIndices(names)` collects `varIndex(name)` of every name in a set, and
`varNames(vars)` reads back the name of every index of a set, in the set's
ascending order; `getNeighborhood` reports its result through the latter.
When the names are distinct and their number fits in `Var`, the two are
inverse to each other: an index set gives back the indices of its names, and
a list of names comes back once each, in the order of the dataset's columns.
-/

namespace Ramble.Oracle.DiscreteData

open Subsets

variable {w : ℕ} (d : DiscreteData w)

/-- `varIndices(names)`: `set_init(Set(), numVars())` filled by
`indices.insert(indices.end(), varIndex(name))` for each name in turn. -/
def varIndices (names : List String) : List (BitVec w) :=
  names.foldl (fun indices name => setInsert (d.varIndex name) indices) []

/-- `varNames(vars)`: `m_varNames[var]` for every index of the set, in its
order. An index out of range, which the source logs as "Variable index %d out
of range." before it reads past the end of `m_varNames`, fails. -/
def varNamesOf (vars : List (BitVec w)) : Option (List String) :=
  vars.mapM fun v => d.varNames[v.toNat]?

theorem mem_foldl_setInsert {v : BitVec w} (names : List String) (indices : List (BitVec w)) :
    v ∈ names.foldl (fun indices name => setInsert (d.varIndex name) indices) indices ↔
      v ∈ indices ∨ ∃ name ∈ names, d.varIndex name = v := by
  induction names generalizing indices with
  | nil => simp
  | cons name names ih =>
    simp only [List.foldl_cons, ih, mem_setInsert, List.mem_cons, exists_eq_or_imp, @eq_comm _ v,
      or_assoc]
    exact or_left_comm

theorem pairwise_foldl_setInsert (names : List String) {indices : List (BitVec w)}
    (h : indices.Pairwise (· < ·)) :
    (names.foldl (fun indices name => setInsert (d.varIndex name) indices) indices).Pairwise
      (· < ·) := by
  induction names generalizing indices with
  | nil => exact h
  | cons name names ih => exact ih (pairwise_setInsert _ h)

/-- The set holds exactly the indices of the given names. -/
theorem mem_varIndices {v : BitVec w} (names : List String) :
    v ∈ d.varIndices names ↔ ∃ name ∈ names, d.varIndex name = v := by
  simp [varIndices, mem_foldl_setInsert]

theorem pairwise_varIndices (names : List String) : (d.varIndices names).Pairwise (· < ·) :=
  pairwise_foldl_setInsert d names List.Pairwise.nil

/-- `varNames(v :: vars)` succeeds only with the name at `v` in front of
`varNames(vars)`. -/
theorem varNamesOf_cons_eq_some {v : BitVec w} {vars : List (BitVec w)} {names : List String}
    (h : d.varNamesOf (v :: vars) = some names) :
    ∃ (hv : v.toNat < d.varNames.length) (rest : List String),
      d.varNamesOf vars = some rest ∧ names = d.varNames[v.toNat] :: rest := by
  rw [varNamesOf, List.mapM_cons, ← varNamesOf] at h
  cases hv : d.varNames[v.toNat]? with
  | none => simp [hv] at h
  | some name =>
    cases hr : d.varNamesOf vars with
    | none => simp [hv, hr] at h
    | some rest =>
      obtain ⟨hi, rfl⟩ := List.getElem?_eq_some_iff.1 hv
      exact ⟨hi, rest, rfl, by simpa [hv, hr] using h.symm⟩

/-- `varNames(vars)` yields only names of the dataset. -/
theorem mem_varNames_of_varNamesOf {vars : List (BitVec w)} {names : List String}
    (h : d.varNamesOf vars = some names) : ∀ name ∈ names, name ∈ d.varNames := by
  induction vars generalizing names with
  | nil => cases h; simp
  | cons v vars ih =>
    obtain ⟨hi, rest, hr, rfl⟩ := d.varNamesOf_cons_eq_some h
    exact List.forall_mem_cons.2 ⟨List.getElem_mem hi, ih hr⟩

/-- With every index in range, `varNames(vars)` reads each name. -/
theorem varNamesOf_eq_some {vars : List (BitVec w)} (h : ∀ v ∈ vars, v.toNat < d.varNames.length) :
    d.varNamesOf vars = some (vars.map fun v => d.varNames.getD v.toNat "") := by
  induction vars with
  | nil => rfl
  | cons v vars ih =>
    rw [List.forall_mem_cons] at h
    rw [varNamesOf, List.mapM_cons, ← varNamesOf, ih h.2, List.map_cons,
      List.getD_eq_getElem?_getD, List.getElem?_eq_getElem h.1]
    rfl

section RoundTrip

variable (hnodup : d.varNames.Nodup) (hfit : d.varNames.length < 2 ^ w)
include hnodup hfit

/-- The name at position `i` gets index `i`. -/
theorem varIndex_getElem (i : ℕ) (hi : i < d.varNames.length) :
    (d.varIndex d.varNames[i]).toNat = i := by
  rw [d.varIndex_toNat, List.indexOf_getElem hnodup]
  exact Nat.mod_eq_of_lt (by omega)

/-- Indices read back as names find the same indices again. -/
theorem varIndex_varNamesOf {vars : List (BitVec w)} {names : List String}
    (h : d.varNamesOf vars = some names) : names.map d.varIndex = vars := by
  induction vars generalizing names with
  | nil => cases h; rfl
  | cons v vars ih =>
    obtain ⟨hi, rest, hr, rfl⟩ := d.varNamesOf_cons_eq_some h
    rw [List.map_cons, ih hr, BitVec.eq_of_toNat_eq (d.varIndex_getElem hnodup hfit _ hi)]

/-- The index set of names of the dataset holds their positions, ascending. -/
theorem map_toNat_varIndices {names : List String} (hnames : ∀ name ∈ names, name ∈ d.varNames) :
    (d.varIndices names).map BitVec.toNat =
      (List.range d.varNames.length).filter fun i => d.varNames.getD i "" ∈ names := by
  have hs : ((d.varIndices names).map BitVec.toNat).Sorted (· < ·) :=
    List.pairwise_map.2 ((d.pairwise_varIndices names).imp BitVec.lt_def.1)
  have hs' : ((List.range d.varNames.length).filter fun i =>
      d.varNames.getD i "" ∈ names).Sorted (· < ·) := (List.pairwise_lt_range _).filter _
  refine List.eq_of_perm_of_sorted
    ((List.perm_ext_iff_of_nodup hs.nodup hs'.nodup).2 fun i => ?_) hs hs'
  simp only [List.mem_map, List.mem_filter, List.mem_range, decide_eq_true_eq]
  constructor
  · rintro ⟨v, hv, rfl⟩
    obtain ⟨name, hname, rfl⟩ := (d.mem_varIndices names).1 hv
    have hlt := List.indexOf_lt_length.2 (hnames name hname)
    rw [d.varIndex_toNat, Nat.mod_eq_of_lt (hlt.trans hfit), List.getD_eq_getElem _ _ hlt,
      List.getElem_indexOf]
    exact ⟨hlt, hname⟩
  · rintro ⟨hi, hname⟩
    rw [List.getD_eq_getElem _ _ hi] at hname
    exact ⟨_, (d.mem_varIndices names).2 ⟨_, hname, rfl⟩, d.varIndex_getElem hnodup hfit i hi⟩

/-- Names read as an index set come back once each, in the order of the columns. -/
theorem varNamesOf_varIndices {names : List String} (hnames : ∀ name ∈ names, name ∈ d.varNames) :
    d.varNamesOf (d.varIndices names) = some (d.varNames.filter (· ∈ names)) := by
  have hcols := d.map_toNat_varIndices hnodup hfit hnames
  have hrange : (List.range d.varNames.length).map (d.varNames.getD · "") = d.varNames :=
    List.ext_getElem (by simp) fun i _ h => by
      rw [List.getElem_map, List.getElem_range, List.getD_eq_getElem _ _ h]
  rw [d.varNamesOf_eq_some fun v hv => ?_]
  · calc some ((d.varIndices names).map fun v => d.varNames.getD v.toNat "")
        = some (((d.varIndices names).map BitVec.toNat).map (d.varNames.getD · "")) := by
          rw [List.map_map]
          rfl
      _ = some (((List.range d.varNames.length).map (d.varNames.getD · "")).filter (· ∈ names)) := by
          rw [hcols, List.filter_map]
          rfl
      _ = some (d.varNames.filter (· ∈ names)) := by rw [hrange]
  · have hv' := hcols ▸ List.mem_map_of_mem BitVec.toNat hv
    exact List.mem_range.1 (List.mem_filter.1 hv').1

/-- For distinct names that fit in `Var`, `varIndices` and `varNames(vars)` are
inverse: a set of indices read as names finds the same indices again, and
names of the dataset read as a set come back once each, in column order. -/
theorem varNamesOf_round_trip :
    (∀ (vars : List (BitVec w)) names, d.varNamesOf vars = some names → names.map d.varIndex = vars) ∧
    ∀ names : List String, (∀ name ∈ names, name ∈ d.varNames) →
      d.varNamesOf (d.varIndices names) = some (d.varNames.filter (· ∈ names)) :=
  ⟨fun _ _ => d.varIndex_varNamesOf hnodup hfit, fun _ => d.varNamesOf_varIndices hnodup hfit⟩

end RoundTrip

open Scan in
theorem varNamesOf_round_trip_typical :
    typicalData.varNames.Nodup ∧ typicalData.varNames.length < 2 ^ 8 ∧
      typicalData.varNamesOf (typicalData.varIndices ["z", "x"]) = some ["x", "z"] := by
  have hnodup : typicalData.varNames.Nodup := by decide
  have hfit : typicalData.varNames.length < 2 ^ 8 := by decide
  exact ⟨hnodup, hfit,
    ((varNamesOf_round_trip typicalData hnodup hfit).2 ["z", "x"] (by decide)).trans (by decide)⟩

end Ramble.Oracle.DiscreteData
