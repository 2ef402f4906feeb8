import Mathlib.Order.Lattice
import Mathlib.Data.List.GetD

/-! # Binary search

Two searches for a key in a table that ascends strictly in it. `windowSearch` keeps a half-open window
and stops at the first hit; `binarySearchByKey` halves the size of a range down to one entry and
compares once more. Both find the entry with the key exactly if there is one
(`windowSearch_eq_some_iff`, `binarySearchByKey_eq_some_iff`). -/

namespace BinarySearch

variable {α κ : Type*} [LinearOrder κ]

/-- The loop over the window from `lo` to `hi`, on the entries `entry lo`, .., `entry (hi - 1)`. -/
def windowSearch (entry : Nat → α) (key : α → κ) (k : κ) (lo hi : Nat) : Option α :=
  if lo < hi then
    let mid := (lo + hi) / 2
    if key (entry mid) = k then some (entry mid)
    else if key (entry mid) < k then windowSearch entry key k (mid + 1) hi
    else windowSearch entry key k lo mid
  else none
termination_by hi - lo

/-- What is found has the key, whatever the order of the table. -/
theorem windowSearch_sound {entry : Nat → α} {key : α → κ} {k : κ} {lo hi : Nat} {a : α}
    (h : windowSearch entry key k lo hi = some a) :
    ∃ i, lo ≤ i ∧ i < hi ∧ entry i = a ∧ key a = k := by
  induction lo, hi using windowSearch.induct entry key k with
  | case1 lo hi hlt mid hkey =>
      rw [windowSearch, if_pos hlt, if_pos hkey, Option.some.injEq] at h
      exact ⟨mid, by omega, by omega, h, h ▸ hkey⟩
  | case2 lo hi hlt mid hne hless ih =>
      rw [windowSearch, if_pos hlt, if_neg hne, if_pos hless] at h
      obtain ⟨i, hlo, hi, hentry⟩ := ih h
      exact ⟨i, by omega, hi, hentry⟩
  | case3 lo hi hlt mid hne hless ih =>
      rw [windowSearch, if_pos hlt, if_neg hne, if_neg hless] at h
      obtain ⟨i, hlo, hi, hentry⟩ := ih h
      exact ⟨i, hlo, by omega, hentry⟩
  | case4 lo hi hempty =>
      rw [windowSearch, if_neg hempty] at h
      cases h

/-- **An entry with the key is found** if the window ascends. -/
theorem windowSearch_complete {entry : Nat → α} {key : α → κ} {lo hi i : Nat}
    (hasc : ∀ a b, lo ≤ a → a < b → b < hi → key (entry a) < key (entry b)) (hlo : lo ≤ i)
    (hhi : i < hi) : windowSearch entry key (key (entry i)) lo hi = some (entry i) := by
  induction lo, hi using windowSearch.induct entry key (key (entry i)) with
  | case1 lo hi hlt mid hkey =>
      rw [windowSearch, if_pos hlt, if_pos hkey]
      -- no two entries have one key
      rcases Nat.lt_trichotomy mid i with hmid | hmid | hmid
      · exact absurd hkey (hasc mid i (by omega) hmid hhi).ne
      · exact congrArg (fun j => some (entry j)) hmid
      · exact absurd hkey (hasc i mid hlo hmid (by omega)).ne'
  | case2 lo hi hlt mid hne hless ih =>
      rw [windowSearch, if_pos hlt, if_neg hne, if_pos hless]
      have hmid : mid < i := by
        by_contra hle
        rcases Nat.lt_or_eq_of_le (Nat.not_lt.mp hle) with himid | himid
        · exact lt_asymm hless (hasc i mid hlo himid (by omega))
        · exact hne (congrArg (fun j => key (entry j)) himid.symm)
      exact ih (fun a b ha => hasc a b (by omega)) hmid hhi
  | case3 lo hi hlt mid hne hless ih =>
      rw [windowSearch, if_pos hlt, if_neg hne, if_neg hless]
      have hmid : i < mid := by
        by_contra hle
        rcases Nat.lt_or_eq_of_le (Nat.not_lt.mp hle) with hmidi | hmidi
        · exact hless (hasc mid i (by omega) hmidi hhi)
        · exact hne (congrArg (fun j => key (entry j)) hmidi)
      exact ih (fun a b ha hab hb => hasc a b ha hab (by omega)) hlo hmid
  | case4 lo hi hempty => omega

theorem windowSearch_eq_some_iff {entry : Nat → α} {key : α → κ} {k : κ} {lo hi : Nat}
    (hasc : ∀ a b, lo ≤ a → a < b → b < hi → key (entry a) < key (entry b)) {a : α} :
    windowSearch entry key k lo hi = some a ↔
      ∃ i, lo ≤ i ∧ i < hi ∧ entry i = a ∧ key a = k := by
  refine ⟨windowSearch_sound, ?_⟩
  rintro ⟨i, hlo, hhi, rfl, rfl⟩
  exact windowSearch_complete hasc hlo hhi

/-- The loop that halves `size` from `base` on, down to one entry. -/
def halve (entry : Nat → α) (key : α → κ) (k : κ) (base size : Nat) : Nat :=
  if 1 < size then
    let half := size / 2
    let mid := base + half
    halve entry key k (if k < key (entry mid) then base else mid) (size - half)
  else base
termination_by size

/-- **The entry with the key stays in the range.** -/
theorem halve_eq {entry : Nat → α} {key : α → κ} {base size i : Nat}
    (hasc : ∀ a b, base ≤ a → a < b → b < base + size → key (entry a) < key (entry b))
    (hbase : base ≤ i) (hi : i < base + size) : halve entry key (key (entry i)) base size = i := by
  induction base, size using halve.induct entry key (key (entry i)) with
  | case1 base size hlt half mid ih =>
      rw [halve, if_pos hlt]
      change halve entry key (key (entry i)) (if key (entry i) < key (entry mid) then base else mid)
        (size - half) = i
      by_cases hless : key (entry i) < key (entry mid)
      · -- the entry lies before the middle
        have hmid : i < mid := by
          by_contra hle
          rcases Nat.lt_or_eq_of_le (Nat.not_lt.mp hle) with hmidi | hmidi
          · exact lt_asymm hless (hasc mid i (by omega) hmidi hi)
          · exact hless.ne (congrArg (fun j => key (entry j)) hmidi.symm)
        rw [dif_pos hless] at ih
        rw [if_pos hless]
        exact ih (fun a b ha hab hb => hasc a b ha hab (by omega)) hbase (by omega)
      · have hmid : mid ≤ i := by
          by_contra hgt
          exact hless (hasc i mid hbase (Nat.not_le.mp hgt) (by omega))
        rw [dif_neg hless] at ih
        rw [if_neg hless]
        exact ih (fun a b ha hab hb => hasc a b (by omega) hab (by omega)) hmid (by omega)
  | case2 base size hle =>
      rw [halve, if_neg hle]
      omega

/-- The range that is left lies in the range. -/
theorem halve_lt {entry : Nat → α} {key : α → κ} {k : κ} {base size : Nat} (hpos : 0 < size) :
    halve entry key k base size < base + size := by
  induction base, size using halve.induct entry key k with
  | case1 base size hlt half mid ih =>
      rw [halve, if_pos hlt]
      change halve entry key k (if k < key (entry mid) then base else mid) (size - half) <
        base + size
      have hrest := ih (by omega)
      split at hrest
      · rename_i hless
        rw [if_pos hless]
        omega
      · rename_i hless
        rw [if_neg hless]
        omega
  | case2 base size hle =>
      rw [halve, if_neg hle]
      omega

/-- `slice::binary_search_by_key`: the place of an entry with the key, or where it would be put. All
reads are inside the list, so `default` is not used. -/
def binarySearchByKey (l : List α) (default : α) (key : α → κ) (k : κ) : Except Nat Nat :=
  if l.length = 0 then .error 0
  else
    let base := halve (fun i => l.getD i default) key k 0 l.length
    let found := key (l.getD base default)
    if found = k then .ok base else .error (if found < k then base + 1 else base)

/-- **The search finds the entry with the key exactly if there is one**, in a table that ascends. -/
theorem binarySearchByKey_eq_ok_iff {l : List α} {default : α} {key : α → κ} {k : κ} {i : Nat}
    (hasc : l.Pairwise fun a b => key a < key b) :
    binarySearchByKey l default key k = .ok i ↔ ∃ a, l[i]? = some a ∧ key a = k := by
  have hentry : ∀ {j} (hj : j < l.length), l.getD j default = l[j] := fun hj =>
    List.getD_eq_getElem _ _ hj
  have hasc' : ∀ a b, 0 ≤ a → a < b → b < 0 + l.length →
      key (l.getD a default) < key (l.getD b default) := by
    intro a b _ hab hb
    rw [hentry (by omega), hentry (by omega)]
    exact List.pairwise_iff_getElem.mp hasc a b _ _ hab
  rw [binarySearchByKey]
  by_cases hnil : l.length = 0
  · rw [if_pos hnil, List.getElem?_eq_none (by omega)]
    exact iff_of_false nofun nofun
  rw [if_neg hnil]
  dsimp only
  constructor
  · intro h
    split at h
    · rename_i hkey
      cases h
      have hlt : halve (fun i => l.getD i default) key k 0 l.length < l.length := by
        have hrange := @halve_lt _ _ _ (fun i => l.getD i default) key k 0 l.length (by omega)
        omega
      exact ⟨l[_], List.getElem?_eq_getElem hlt, (congrArg key (hentry hlt)).symm.trans hkey⟩
    · cases h
  · rintro ⟨a, ha, rfl⟩
    obtain ⟨hi, rfl⟩ := List.getElem?_eq_some_iff.mp ha
    have hbase := halve_eq hasc' (Nat.zero_le i) (by omega)
    rw [hentry hi] at hbase
    rw [hbase, hentry hi, if_pos rfl]

end BinarySearch
