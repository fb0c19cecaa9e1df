import Ramble.Names

/-!
# The driver: width dispatch, target lookup and option checks

`getNeighborhood<CounterType, FileType>` picks the `Var` type and the set size
from the number of variables by a chain of capacity tests;
`getNeighborhood<Var, Size, Counter>` then builds `DiscreteData`, narrows
`maxConditioning` to `Var` and looks the target up by name. `main` warns about
large observation counts, accepts one counter type, `getAlgorithm` seven
algorithm names, and rank `0` prints the names of the result.
`neighborhoodSetup` chains these checks in the order the program runs them.
`maxSize<Var>()` and `UintSet::capacity()` are not in the source and are
modelled from the spec's "8-bit if n ≤ 257". Option parsing, file reading and
the discovery algorithms themselves are left out.
-/

namespace Ramble.Driver

open Oracle Scan

/-- Modelled from the spec: `maxSize<Var>()` (`UintSet.hpp`) is not in the
source; the number of values of a `Var` of width `w`. -/
def maxSize (w : ℕ) : ℕ := 2 ^ w

/-- Modelled from the spec: `UintSet<Var, Size>::capacity()` (`UintSet.hpp`) is
not in the source; the spec's "8-bit if n ≤ 257" makes it the set size `Size`. -/
def capacity (size : ℕ) : ℕ := size

/-- The branches of the dispatch in order: the width of `Var`, and the shift
of `maxSize<Var>()` that gives `Size`. -/
def widthBranches : List (ℕ × ℕ) :=
  [(8, 2), (8, 1), (8, 0), (16, 7), (16, 6), (16, 5), (16, 4), (16, 3), (16, 2), (16, 1), (16, 0)]

/-- The `else if` chain of the dispatch: the first branch whose set holds `last`. -/
def firstBranch (last : ℕ) : List (ℕ × ℕ) → Option (ℕ × ℕ)
  | [] => none
  | b :: bs => if last ≤ capacity (maxSize b.1 >>> b.2) then some b else firstBranch last bs

/-- The dispatch of `getNeighborhood`: the first branch whose set holds
`n - 1`, computed in `uint32_t`. -/
def selectWidth (n : BitVec 32) : Except String (ℕ × ℕ) :=
  match firstBranch (n - 1).toNat widthBranches with
  | some b => .ok b
  | none => .error "The given number of variables is not supported."

/-- `static_cast<Var>(std::min(options.numVars(), options.maxConditioning()))`. -/
def maxConditioning (w : ℕ) (n c : BitVec 32) : BitVec w := BitVec.ofNat w (min n.toNat c.toNat)

/-- The target lookup of `getNeighborhood`: `varIndex(targetVar)`, refused when
it compares equal to `varNames.size()`. -/
def targetIndex {w : ℕ} (d : DiscreteData w) (name : String) : Except String (BitVec w) :=
  if (d.varIndex name).toNat = d.varNames.length then .error "Target variable not found."
  else .ok (d.varIndex name)

/-- The `else if` chain returns a branch whose set holds `last`. -/
theorem firstBranch_sound {last : ℕ} {bs : List (ℕ × ℕ)} {b : ℕ × ℕ}
    (h : firstBranch last bs = some b) : b ∈ bs ∧ last ≤ capacity (maxSize b.1 >>> b.2) := by
  induction bs with
  | nil => cases h
  | cons b' bs ih =>
    unfold firstBranch at h
    split at h
    · obtain rfl := Option.some.inj h
      exact ⟨List.mem_cons_self _ _, ‹_›⟩
    · exact ⟨List.mem_cons_of_mem _ (ih h).1, (ih h).2⟩

/-- A branch of the leading part that holds `last` stops the chain inside that part. -/
theorem firstBranch_mem_left {last : ℕ} (first rest : List (ℕ × ℕ)) {b : ℕ × ℕ}
    (h : firstBranch last (first ++ rest) = some b)
    (hex : ∃ b' ∈ first, last ≤ capacity (maxSize b'.1 >>> b'.2)) : b ∈ first := by
  induction first with
  | nil => simp at hex
  | cons b' first ih =>
    simp only [List.cons_append, firstBranch] at h
    split at h
    · obtain rfl := Option.some.inj h
      exact List.mem_cons_self _ _
    · obtain ⟨b'', hb'', hle⟩ := hex
      rcases List.mem_cons.1 hb'' with rfl | hb''
      · exact absurd hle ‹_›
      · exact List.mem_cons_of_mem _ (ih h ⟨b'', hb'', hle⟩)

/-- The dispatch admits exactly `1 ≤ n ≤ 65537`: `Var` of width `w` is chosen
only for `n ≤ 2 ^ w + 1`, and the 8-bit one for every `n ≤ 257`. -/
theorem selectWidth_ok {n : BitVec 32} {w s : ℕ} (h : selectWidth n = .ok (w, s)) :
    1 ≤ n.toNat ∧ n.toNat ≤ 2 ^ w + 1 ∧ (w = 8 ↔ n.toNat ≤ 257) ∧ (w = 8 ∨ w = 16) := by
  have hn : n.toNat < 4294967296 := n.isLt
  have hsub : (n - 1).toNat = (4294967295 + n.toNat) % 4294967296 := by
    simp [BitVec.toNat_sub]
  unfold selectWidth at h
  generalize (n - 1).toNat = last at h hsub
  split at h
  · next b hb =>
    obtain rfl := Except.ok.inj h
    obtain ⟨hmem, hcap⟩ := firstBranch_sound hb
    have hw : w = 8 ∨ w = 16 := (by decide : ∀ b ∈ widthBranches, b.1 = 8 ∨ b.1 = 16) _ hmem
    have hle : last ≤ 2 ^ w := hcap.trans (by
      simp only [capacity, maxSize, Nat.shiftRight_eq_div_pow]
      exact Nat.div_le_self _ _)
    have h8 : last ≤ 256 → w = 8 := fun hl =>
      (by decide : ∀ b ∈ [(8, 2), (8, 1), (8, 0)], b.1 = 8) _ (firstBranch_mem_left _ _ hb
        ⟨(8, 0), by simp, by simpa [capacity, maxSize] using hl⟩)
    rcases hw with rfl | rfl
    · have : last ≤ 256 := hle
      omega
    · have : last ≤ 65536 := hle
      have := mt h8 (by omega)
      omega
  · cases h

/-- A name that no variable has gets the count of names, modulo `2 ^ w`. -/
theorem varIndex_not_mem {w : ℕ} (d : DiscreteData w) {name : String} (h : name ∉ d.varNames) :
    (d.varIndex name).toNat = d.varNames.length % 2 ^ w := by
  rw [d.varIndex_toNat, List.indexOf_eq_length.2 h]

/-- When the number of variables fits in `Var`, no narrowing of the driver
wraps: `numVars()` is `n`, each name finds its own index, a missing name meets
the "Target variable not found." check, and `maxConditioning` is `min(n, c)`. -/
theorem getNeighborhood_no_wrap {w : ℕ} (d : DiscreteData w) (n c : BitVec 32)
    (hn : d.n = n.toNat) (hlen : d.varNames.length = d.n) (hnodup : d.varNames.Nodup)
    (hfit : d.n < 2 ^ w) :
    d.numVars.toNat = d.n ∧
    (∀ i (hi : i < d.varNames.length), (d.varIndex d.varNames[i]).toNat = i) ∧
    (∀ s ∉ d.varNames, targetIndex d s = .error "Target variable not found.") ∧
    (maxConditioning w n c).toNat = min n.toNat c.toNat := by
  refine ⟨by simp [DiscreteData.numVars, Nat.mod_eq_of_lt hfit],
    d.varIndex_getElem hnodup (by omega), fun s hs => ?_, ?_⟩
  · rw [targetIndex, if_pos (by rw [varIndex_not_mem d hs, Nat.mod_eq_of_lt (by omega)])]
  · rw [maxConditioning, BitVec.toNat_ofNat]
    exact Nat.mod_eq_of_lt (lt_of_le_of_lt (min_le_left _ _) (by omega))

theorem getNeighborhood_no_wrap_typical :
    typicalData.n = (3 : BitVec 32).toNat ∧ typicalData.varNames.length = typicalData.n ∧
      typicalData.varNames.Nodup ∧ typicalData.n < 2 ^ 8 ∧
      targetIndex typicalData "w" = .error "Target variable not found." := by
  have hn : typicalData.n = (3 : BitVec 32).toNat := rfl
  have hlen : typicalData.varNames.length = typicalData.n := rfl
  have hnodup : typicalData.varNames.Nodup := by decide
  have hfit : typicalData.n < 2 ^ 8 := by decide
  exact ⟨hn, hlen, hnodup, hfit,
    (getNeighborhood_no_wrap typicalData 3 5 hn hlen hnodup hfit).2.2.1 "w" (by decide)⟩

/-- A dataset of 256 variables with distinct names `v...v` of 7 to 262 letters. -/
def wideData : DiscreteData 8 where
  n := 256
  varNames := (List.range 256).map fun i => String.mk (List.replicate (i + 7) 'v')
  threshold := 1 / 20
  pValue _ _ _ := 1
  pValue_nonneg _ _ _ := zero_le_one
  pValue_le_one _ _ _ := le_rfl

/-- With 256 variables the dispatch picks the 8-bit `Var`: `numVars()` wraps to
`0`, a name of no variable gets index `0` and passes the "Target variable not
found." check, and a conditioning cap of 256 narrows to `0`. -/
theorem getNeighborhood_wraps_at_256 :
    wideData.varNames.length = 256 ∧ wideData.varNames.Nodup ∧ selectWidth 256 = .ok (8, 0) ∧
      wideData.numVars = 0 ∧ targetIndex wideData "absent" = .ok 0 ∧
      maxConditioning 8 256 256 = 0 := by
  have hlen : ∀ i, (String.mk (List.replicate (i + 7) 'v')).length = i + 7 := fun i => by
    simp [String.length]
  have habsent : "absent" ∉ wideData.varNames := by
    simp only [wideData, List.mem_map, not_exists, not_and]
    intro i _ h
    have := congrArg String.length h
    rw [hlen, show "absent".length = 6 from rfl] at this
    omega
  have hindex : wideData.varIndex "absent" = 0 :=
    BitVec.eq_of_toNat_eq (by rw [varIndex_not_mem _ habsent]; simp [wideData])
  refine ⟨by simp [wideData], (List.nodup_range 256).map fun a b h => ?_, rfl, by decide,
    ?_, by decide⟩
  · have := congrArg String.length h
    rw [hlen, hlen] at this
    omega
  · rw [targetIndex, if_neg (by rw [hindex]; simp [wideData]), hindex]

/-- The names `getAlgorithm` compares against, in order, with the algorithm each selects. -/
def algorithmNames : List String :=
  ["gs", "iamb", "inter.iamb", "mmpc", "hiton", "si.hiton.pc", "getpc"]

/-- `getAlgorithm(algoName, ...)`: the position of the first matching name, or the
error listing every supported name in order. -/
def getAlgorithm (algoName : String) : Except String ℕ :=
  if algoName ∈ algorithmNames then .ok (algorithmNames.indexOf algoName)
  else .error ("Requested algorithm not found. Supported algorithms are: \x7b" ++
    ",".intercalate algorithmNames ++ "\x7d")

/-- The counter test of `main`: `ct` is the only counter type. -/
def checkCounter (counterType : String) : Except String Unit :=
  if counterType = "ct" then .ok ()
  else .error "Requested counter not found. Supported counter types are: \x7bct\x7d"

/-- An unknown algorithm name is refused with the full list of supported names. -/
theorem getAlgorithm_error {algoName msg : String} (h : getAlgorithm algoName = .error msg) :
    algoName ∉ algorithmNames ∧
      msg = "Requested algorithm not found. Supported algorithms are: \x7bgs,iamb,inter.iamb,mmpc,hiton,si.hiton.pc,getpc\x7d" := by
  unfold getAlgorithm at h
  split at h
  · cases h
  · exact ⟨‹_›, (Except.error.inj h).symm⟩

/-- The options `main` and `getNeighborhood` consult before the search. -/
structure Options where
  /-- `options.counterType()`. -/
  counterType : String
  /-- `options.numVars()`, read into `uint32_t n`. -/
  numVars : BitVec 32
  /-- `options.maxConditioning()`. -/
  maxConditioning : BitVec 32
  /-- `options.algoName()`. -/
  algoName : String
  /-- `options.targetVar()`; empty skips the target. -/
  targetVar : String

/-- What the driver has fixed when the search starts. -/
structure Setup where
  /-- The width of `Var`. -/
  width : ℕ
  /-- The shift of `maxSize<Var>()` that gives the set size `Size`. -/
  shift : ℕ
  /-- `maxConditioning`, narrowed to `Var`. -/
  maxConditioning : ℕ
  /-- The position of the algorithm in `algorithmNames`. -/
  algorithm : ℕ
  /-- The index of the target variable, if one was named. -/
  target : Option ℕ
  deriving DecidableEq

/-- The target lookup of `getNeighborhood`, skipped when no target is named. -/
def lookupTarget {w : ℕ} (d : DiscreteData w) (targetVar : String) : Except String (Option ℕ) :=
  if targetVar = "" then .ok none else (fun t => some t.toNat) <$> targetIndex d targetVar

/-- `main` from the counter test through `getNeighborhood` up to the search: the
message of the first check that throws, or the setup of the search. `data w`
is the `DiscreteData<Counter, Var>` over the file's names for `Var` of width `w`. -/
def neighborhoodSetup (o : Options) (data : (w : ℕ) → DiscreteData w) : Except String Setup := do
  checkCounter o.counterType
  let branch ← selectWidth o.numVars
  let algorithm ← getAlgorithm o.algoName
  let target ← lookupTarget (data branch.1) o.targetVar
  pure ⟨branch.1, branch.2, (maxConditioning branch.1 o.numVars o.maxConditioning).toNat, algorithm,
    target⟩

theorem bind_eq_ok {ε α β : Type} {x : Except ε α} {f : α → Except ε β} {b : β}
    (h : x >>= f = .ok b) : ∃ a, x = .ok a ∧ f a = .ok b := by
  cases x with
  | error e => cases h
  | ok a => exact ⟨a, rfl, h⟩

theorem bind_eq_error {ε α β : Type} {x : Except ε α} {f : α → Except ε β} {e : ε}
    (h : x >>= f = .error e) : x = .error e ∨ ∃ a, x = .ok a ∧ f a = .error e := by
  cases x with
  | error e' => cases h; exact .inl rfl
  | ok a => exact .inr ⟨a, rfl, h⟩

/-- The setup fails only with one of the four configuration errors: an unknown
counter, an unsupported number of variables, an unknown algorithm, a target
not found. -/
theorem neighborhoodSetup_error {o : Options} {data : (w : ℕ) → DiscreteData w} {msg : String}
    (h : neighborhoodSetup o data = .error msg) :
    msg = "Requested counter not found. Supported counter types are: \x7bct\x7d" ∨
    msg = "The given number of variables is not supported." ∨
    msg = "Requested algorithm not found. Supported algorithms are: \x7bgs,iamb,inter.iamb,mmpc,hiton,si.hiton.pc,getpc\x7d" ∨
    msg = "Target variable not found." := by
  rcases bind_eq_error h with hc | ⟨_, -, h⟩
  · unfold checkCounter at hc
    split at hc <;> cases hc
    exact .inl rfl
  rcases bind_eq_error h with hw | ⟨⟨w, shift⟩, -, h⟩
  · unfold selectWidth at hw
    split at hw <;> cases hw
    exact .inr (.inl rfl)
  rcases bind_eq_error h with ha | ⟨_, -, h⟩
  · exact .inr (.inr (.inl (getAlgorithm_error ha).2))
  rcases bind_eq_error h with ht | ⟨_, -, h⟩
  · unfold lookupTarget at ht
    split at ht
    · cases ht
    · unfold targetIndex at ht
      split at ht <;> cases ht
      exact .inr (.inr (.inr rfl))
  · cases h

/-- Three variables `x`, `y`, `z` for `Var` of every width. -/
def typicalFamily (w : ℕ) : DiscreteData w where
  n := 3
  varNames := ["x", "y", "z"]
  threshold := 1 / 20
  pValue _ _ _ := 1 / 2
  pValue_nonneg _ _ _ := by norm_num
  pValue_le_one _ _ _ := by norm_num

theorem checkCounter_ok {counterType : String} {u : Unit} (h : checkCounter counterType = .ok u) :
    counterType = "ct" := by
  unfold checkCounter at h
  split at h
  · assumption
  · cases h

/-- An accepted algorithm name stands at the returned position. -/
theorem getAlgorithm_ok {algoName : String} {a : ℕ} (h : getAlgorithm algoName = .ok a) :
    algorithmNames[a]? = some algoName := by
  unfold getAlgorithm at h
  split at h
  · obtain rfl := Except.ok.inj h
    simpa only [List.get?_eq_getElem?] using List.indexOf_get? ‹_›
  · cases h

/-- When the names fit in `Var`, an accepted target is the index of a variable
with that name. -/
theorem targetIndex_ok {w : ℕ} (d : DiscreteData w) (hfit : d.varNames.length < 2 ^ w)
    {name : String} {t : BitVec w} (h : targetIndex d name = .ok t) :
    d.varNames[t.toNat]? = some name := by
  unfold targetIndex at h
  split at h
  · cases h
  · next hne =>
    obtain rfl := Except.ok.inj h
    have hmem : name ∈ d.varNames := by
      by_contra hn
      exact hne (by rw [varIndex_not_mem d hn, Nat.mod_eq_of_lt hfit])
    rw [d.varIndex_toNat, Nat.mod_eq_of_lt ((List.indexOf_lt_length.2 hmem).trans hfit)]
    simpa only [List.get?_eq_getElem?] using List.indexOf_get? hmem

/-- A setup that gets through every check of the driver, with `Var` wide enough
for the `n` variables, runs the `ct` counter, an algorithm of the list, a cap
of `min(n, c)` and, when a target is named, the index of a variable of that
name. -/
theorem neighborhoodSetup_ok {o : Options} {data : (w : ℕ) → DiscreteData w} {varNames : List String}
    (hnames : ∀ w, (data w).varNames = varNames) (hlen : varNames.length = o.numVars.toNat)
    {s : Setup} (h : neighborhoodSetup o data = .ok s) (hfit : o.numVars.toNat < 2 ^ s.width) :
    o.counterType = "ct" ∧ (s.width = 8 ∨ s.width = 16) ∧ algorithmNames[s.algorithm]? = some o.algoName ∧
      s.maxConditioning = min o.numVars.toNat o.maxConditioning.toNat ∧
      (o.targetVar ≠ "" → ∃ i, s.target = some i ∧ varNames[i]? = some o.targetVar) := by
  obtain ⟨u, hc, h⟩ := bind_eq_ok h
  obtain ⟨⟨w, shift⟩, hw, h⟩ := bind_eq_ok h
  obtain ⟨a, ha, h⟩ := bind_eq_ok h
  obtain ⟨target, ht, h⟩ := bind_eq_ok h
  obtain rfl := Except.ok.inj h
  refine ⟨checkCounter_ok hc, (selectWidth_ok hw).2.2.2, getAlgorithm_ok ha, ?_, fun hne => ?_⟩
  · rw [maxConditioning, BitVec.toNat_ofNat]
    exact Nat.mod_eq_of_lt (lt_of_le_of_lt (min_le_left _ _) hfit)
  · rw [lookupTarget, if_neg hne] at ht
    obtain ⟨t, ht', rfl⟩ : ∃ t, targetIndex (data w) o.targetVar = .ok t ∧ some t.toNat = target := by
      cases hti : targetIndex (data w) o.targetVar with
      | error e => rw [hti] at ht; cases ht
      | ok t => rw [hti] at ht; exact ⟨t, rfl, Except.ok.inj ht⟩
    exact ⟨t.toNat, rfl, hnames w ▸ targetIndex_ok (data w) (by rw [hnames w, hlen]; exact hfit) ht'⟩

theorem neighborhoodSetup_ok_typical :
    (∀ w, (typicalFamily w).varNames = ["x", "y", "z"]) ∧
      ["x", "y", "z"].length = (3 : BitVec 32).toNat ∧
      neighborhoodSetup ⟨"ct", 3, 5, "iamb", "y"⟩ typicalFamily = .ok ⟨8, 2, 3, 1, some 1⟩ ∧
      (3 : BitVec 32).toNat < 2 ^ 8 ∧
      ∃ i, (⟨8, 2, 3, 1, some 1⟩ : Setup).target = some i ∧ ["x", "y", "z"][i]? = some "y" := by
  have hnames : ∀ w, (typicalFamily w).varNames = ["x", "y", "z"] := fun _ => rfl
  have hlen : ["x", "y", "z"].length = (3 : BitVec 32).toNat := rfl
  have h : neighborhoodSetup ⟨"ct", 3, 5, "iamb", "y"⟩ typicalFamily = .ok ⟨8, 2, 3, 1, some 1⟩ := rfl
  have hfit : (3 : BitVec 32).toNat < 2 ^ 8 := by decide
  exact ⟨hnames, hlen, h, hfit, (neighborhoodSetup_ok hnames hlen h hfit).2.2.2.2 (by decide)⟩

/-- What rank `0` prints for the neighbourhood: every name followed by `,`,
then `std::endl`. -/
def printNeighborhood (nbrVars : List String) : List Char :=
  (nbrVars.map fun var => var.toList ++ [',']).flatten ++ ['\n']

theorem intercalate_cons_cons {α : Type*} (sep a b : List α) (l : List (List α)) :
    sep.intercalate (a :: b :: l) = a ++ sep ++ sep.intercalate (b :: l) := by
  simp [List.intercalate, List.intersperse_cons_cons]

/-- The printed line joins the names and a last newline field with commas. -/
theorem printNeighborhood_eq_intercalate (nbrVars : List String) :
    printNeighborhood nbrVars = [','].intercalate (nbrVars.map String.toList ++ [['\n']]) := by
  induction nbrVars with
  | nil => rfl
  | cons var nbrVars ih =>
    obtain ⟨f, fs, hfs⟩ := List.exists_cons_of_ne_nil
      (List.append_ne_nil_of_right_ne_nil (nbrVars.map String.toList) (List.cons_ne_nil ['\n'] []))
    rw [List.map_cons, List.cons_append, hfs, intercalate_cons_cons, ← hfs, ← ih]
    simp [printNeighborhood]

/-- Rank `0`'s line identifies the computed set: split at its commas it gives
every name and then a last field holding only the newline, and the names
looked up again give back the set, whenever the dataset's names are distinct,
fit in `Var` and hold no comma. -/
theorem printNeighborhood_round_trip {w : ℕ} (d : DiscreteData w) (hnodup : d.varNames.Nodup)
    (hfit : d.varNames.length < 2 ^ w) (hcomma : ∀ name ∈ d.varNames, ',' ∉ name.toList)
    {vars : List (BitVec w)} {names : List String} (h : d.varNamesOf vars = some names) :
    (printNeighborhood names).splitOn ',' = names.map String.toList ++ [['\n']] ∧
      ((printNeighborhood names).splitOn ',').dropLast.map (fun field => d.varIndex (String.mk field)) =
        vars := by
  have hsplit : (printNeighborhood names).splitOn ',' = names.map String.toList ++ [['\n']] := by
    rw [printNeighborhood_eq_intercalate]
    refine List.splitOn_intercalate _ ',' (fun l hl => ?_) (by simp)
    rcases List.mem_append.1 hl with hl | hl
    · obtain ⟨name, hname, rfl⟩ := List.mem_map.1 hl
      exact hcomma name (d.mem_varNames_of_varNamesOf h name hname)
    · rw [List.mem_singleton.1 hl]
      decide
  refine ⟨hsplit, ?_⟩
  rw [hsplit, List.dropLast_concat, List.map_map]
  exact d.varIndex_varNamesOf hnodup hfit h

theorem printNeighborhood_round_trip_typical :
    typicalData.varNames.Nodup ∧ typicalData.varNames.length < 2 ^ 8 ∧
      (∀ name ∈ typicalData.varNames, ',' ∉ name.toList) ∧
      typicalData.varNamesOf [0, 2] = some ["x", "z"] ∧
      (printNeighborhood ["x", "z"]).splitOn ',' = [['x'], ['z'], ['\n']] := by
  have hnodup : typicalData.varNames.Nodup := by decide
  have hfit : typicalData.varNames.length < 2 ^ 8 := by decide
  have hcomma : ∀ name ∈ typicalData.varNames, ',' ∉ name.toList := by decide
  have h : typicalData.varNamesOf [0, 2] = some ["x", "z"] := by decide
  exact ⟨hnodup, hfit, hcomma, h, (printNeighborhood_round_trip typicalData hnodup hfit hcomma h).1⟩

/-- The warning test of `main`, `static_cast<double>(m) >= std::sqrt(UINT32_MAX)`,
taken exactly on whole numbers: `m * m ≥ 2 ^ 32 - 1`. -/
def warnsOverflow (m : ℕ) : Bool := decide (2 ^ 32 - 1 ≤ m * m)

end Ramble.Driver
