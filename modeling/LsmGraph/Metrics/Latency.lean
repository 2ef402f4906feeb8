import LsmGraph.Library.Binary64
import LsmGraph.Library.Histogram
import LsmGraph.Library.MachineOrder

/-! # Latency metrics

A `LatencyMetric` counts calls, adds up their latencies, keeps the least and the greatest and counts
them in buckets. `recordUs` is what one call of `record_us` does to it when no other call runs; the
calls that run at the same time are in `Metrics/Recorders.lean`. `snapshot` reads percentiles off the
buckets, at a rank that the code computes in `f64`: a percentile is given by its significand, in units
of `2⁻⁵³`. -/

namespace LsmGraph

open KeyedSort

def latencyBucketUs : List UInt64 :=
  [100, 250, 500, 1000, 2000, 5000, 10000, 20000, 50000, 100000, 250000, 500000, 1000000, 5000000,
    30000000, 0xFFFFFFFFFFFFFFFF]

theorem latencyBucketUs_ascending : latencyBucketUs.Pairwise (· ≤ ·) := by decide

structure LatencyMetric where
  count : UInt64
  sumUs : UInt64
  minUs : UInt64
  maxUs : UInt64
  buckets : List UInt64
  deriving DecidableEq, Repr

structure BucketSnapshot where
  upperBoundUs : UInt64
  count : UInt64
  deriving DecidableEq, Repr

structure LatencySnapshot where
  count : UInt64
  sumUs : UInt64
  minUs : UInt64
  maxUs : UInt64
  avgUs : UInt64
  p50Us : UInt64
  p90Us : UInt64
  p99Us : UInt64
  buckets : List BucketSnapshot
  deriving DecidableEq, Repr

/-- `0.50` as `f64`. -/
def p50 : Nat := 4503599627370496

/-- `0.90` as `f64`. -/
def p90 : Nat := 8106479329266893

/-- `0.99` as `f64`. -/
def p99 : Nat := 8917127262193582

/-- The three are the numbers of 53 bits nearest to what they stand for. -/
example : p50 * 2 = 2 ^ 53 ∧ 2 * (p90 * 10 - 9 * 2 ^ 53) ≤ 10 ∧ 2 * (99 * 2 ^ 53 - p99 * 100) ≤ 100 := by
  decide

/-- `((count as f64) * percentile).ceil() as u64`. -/
def percentileTarget (count : UInt64) (percentile : Nat) : UInt64 :=
  let product := Binary64.roundTo53 (Binary64.roundTo53 count.toNat * percentile)
  UInt64.ofNat (min (Binary64.ceilScaled product) (UInt64.size - 1))

/-- The loop of `percentile_from_buckets`. -/
def firstBucketReaching (target : UInt64) : UInt64 → List BucketSnapshot → Option UInt64
  | _, [] => none
  | seen, bucket :: buckets =>
      if target ≤ seen + bucket.count then some bucket.upperBoundUs
      else firstBucketReaching target (seen + bucket.count) buckets

def percentileFromBuckets (buckets : List BucketSnapshot) (count : UInt64) (percentile : Nat) :
    UInt64 :=
  if count = 0 then 0
  else
    let target := max (percentileTarget count percentile) 1
    (firstBucketReaching target 0 buckets).getD
      ((buckets.getLast?.map BucketSnapshot.upperBoundUs).getD 0)

namespace LatencyMetric

/-- A metric without recordings. -/
def empty : LatencyMetric where
  count := 0
  sumUs := 0
  minUs := 0xFFFFFFFFFFFFFFFF
  maxUs := 0
  buckets := List.replicate latencyBucketUs.length 0

/-- The bucket that a latency is counted in. -/
def countIn (buckets : List UInt64) (elapsedUs : UInt64) : List UInt64 :=
  match latencyBucketUs.findIdx? fun upper => elapsedUs ≤ upper with
  | some idx => buckets.modify idx (· + 1)
  | none => buckets

def recordUs (m : LatencyMetric) (elapsedUs : UInt64) : LatencyMetric where
  count := m.count + 1
  sumUs := m.sumUs + elapsedUs
  minUs := min elapsedUs m.minUs
  maxUs := max elapsedUs m.maxUs
  buckets := countIn m.buckets elapsedUs

def reset (_ : LatencyMetric) : LatencyMetric := empty

def bucketSnapshots (m : LatencyMetric) : List BucketSnapshot :=
  (latencyBucketUs.zip m.buckets).map fun bucket => ⟨bucket.1, bucket.2⟩

def snapshot (m : LatencyMetric) : LatencySnapshot where
  count := m.count
  sumUs := m.sumUs
  minUs := if m.count = 0 then 0 else m.minUs
  maxUs := if m.count = 0 then 0 else m.maxUs
  avgUs := if m.count = 0 then 0 else m.sumUs / m.count
  p50Us := percentileFromBuckets m.bucketSnapshots m.count p50
  p90Us := percentileFromBuckets m.bucketSnapshots m.count p90
  p99Us := percentileFromBuckets m.bucketSnapshots m.count p99
  buckets := m.bucketSnapshots

/-! ## What a sequence of recordings leaves -/

/-- The metric of a collection of latencies, read off as a whole. -/
def ofLatencies (l : List UInt64) : LatencyMetric where
  count := UInt64.ofNat l.length
  sumUs := UInt64.ofNat (l.map UInt64.toNat).sum
  minUs := l.foldr min 0xFFFFFFFFFFFFFFFF
  maxUs := l.foldr max 0
  buckets := (Histogram.tally latencyBucketUs l).map UInt64.ofNat

theorem ofLatencies_nil : ofLatencies [] = empty := by
  rw [ofLatencies, empty, Histogram.tally_nil]
  rfl

/-- One more bucket count. -/
theorem countIn_tally (l : List UInt64) (elapsedUs : UInt64) :
    countIn ((Histogram.tally latencyBucketUs l).map UInt64.ofNat) elapsedUs =
      (Histogram.tally latencyBucketUs (elapsedUs :: l)).map UInt64.ofNat := by
  rw [Histogram.tally_cons, countIn, Histogram.cell]
  cases latencyBucketUs.findIdx? fun upper => elapsedUs ≤ upper with
  | none => rfl
  | some i =>
      refine List.ext_getElem? fun j => ?_
      simp only [List.getElem?_modify, List.getElem?_map]
      cases (Histogram.tally latencyBucketUs l)[j]? with
      | none => rfl
      | some n =>
          by_cases hij : i = j
          · simp [hij, UInt64.ofNat_add]
          · simp [hij]

/-- **One recording** adds a latency. -/
theorem recordUs_ofLatencies (l : List UInt64) (elapsedUs : UInt64) :
    (ofLatencies l).recordUs elapsedUs = ofLatencies (elapsedUs :: l) := by
  rw [recordUs, ofLatencies, ofLatencies]
  dsimp only
  rw [countIn_tally]
  congr 1
  · rw [List.length_cons, UInt64.ofNat_add]
    rfl
  · rw [List.map_cons, List.sum_cons, UInt64.ofNat_add, UInt64.ofNat_toNat, UInt64.add_comm]

/-- The order of the latencies does not matter. -/
theorem ofLatencies_perm {l l' : List UInt64} (h : l.Perm l') : ofLatencies l = ofLatencies l' := by
  have hmin : l.foldr min 0xFFFFFFFFFFFFFFFF = l'.foldr min 0xFFFFFFFFFFFFFFFF :=
    h.foldr_eq _
  have hmax : l.foldr max 0 = l'.foldr max 0 := h.foldr_eq _
  rw [ofLatencies, ofLatencies, h.length_eq, (h.map _).sum_nat, hmin, hmax, Histogram.tally_perm h]

/-- **A sequence of recordings** leaves the metric of its latencies. -/
theorem foldl_recordUs (l : List UInt64) : l.foldl recordUs empty = ofLatencies l := by
  have hfold : ∀ (l before : List UInt64),
      l.foldl recordUs (ofLatencies before) = ofLatencies (l.reverse ++ before) := by
    intro l
    induction l with
    | nil => exact fun before => rfl
    | cons elapsedUs l ih =>
        intro before
        rw [List.foldl_cons, recordUs_ofLatencies, ih, List.reverse_cons, List.append_assoc]
        rfl
  rw [← ofLatencies_nil, hfold, List.append_nil]
  exact ofLatencies_perm l.reverse_perm

end LatencyMetric

/-! ## The rank of a percentile -/

/-- The rank in `f64` is the integer that it stands for, as long as that lies clear of its
neighbours. -/
theorem percentileTarget_eq {n m percentile : Nat} (hn : n < 2 ^ 47) (hp : percentile < 2 ^ 53)
    (hm : 0 < m) (hmn : m ≤ n) (hlower : 2 * ((m - 1) * 2 ^ 53) + 2 ^ 47 < 2 * (n * percentile))
    (hupper : 2 ^ 53 * (2 * (n * percentile)) ≤ 2 ^ 53 * (2 * (m * 2 ^ 53)) + n * percentile) :
    percentileTarget (UInt64.ofNat n) percentile = UInt64.ofNat m := by
  have hsmall : n * percentile < 2 ^ (53 + 47) := by
    calc n * percentile ≤ 2 ^ 47 * percentile := Nat.mul_le_mul_right _ hn.le
      _ < 2 ^ 47 * 2 ^ 53 := Nat.mul_lt_mul_of_pos_left hp (by norm_num)
      _ = 2 ^ (53 + 47) := by norm_num
  have hunit : Binary64.unit (n * percentile) ≤ 2 ^ 47 :=
    Nat.le_of_dvd (by norm_num) (Binary64.unit_dvd hsmall)
  have hbits := Binary64.lt_unit (n * percentile)
  have hcount : (UInt64.ofNat n).toNat = n := UInt64.toNat_ofNat_of_lt' (by norm_num; omega)
  have hceil : Binary64.ceilScaled (Binary64.roundTo53 (n * percentile)) = m := by
    have hbig : (2 : Nat) ^ (53 + 47) ≤ 2 ^ (53 + 53) := Nat.pow_le_pow_right (by decide) (by decide)
    refine Binary64.ceilScaled_roundTo53 hm (hsmall.trans_le hbig) ?_ ?_
    · omega
    · omega
  rw [percentileTarget, hcount, @Binary64.roundTo53_of_lt n (by omega), hceil, min_eq_left]
  norm_num [UInt64.size]
  omega

/-- The rank of a quantile: `num * n / den`, rounded up. -/
def ceilRank (num den n : Nat) : Nat := (num * n + (den - 1)) / den

/-- **The three ranks are exact** for fewer than `2 ^ 47` recordings. -/
theorem percentileTarget_exact {n : Nat} (hpos : 0 < n) (hn : n < 2 ^ 47) :
    percentileTarget (UInt64.ofNat n) p50 = UInt64.ofNat (ceilRank 1 2 n) ∧
      percentileTarget (UInt64.ofNat n) p90 = UInt64.ofNat (ceilRank 9 10 n) ∧
      percentileTarget (UInt64.ofNat n) p99 = UInt64.ofNat (ceilRank 99 100 n) := by
  refine ⟨?_, ?_, ?_⟩
  · refine percentileTarget_eq hn (by decide) ?_ ?_ ?_ ?_ <;> rw [ceilRank] <;> try rw [p50]
    all_goals omega
  · refine percentileTarget_eq hn (by decide) ?_ ?_ ?_ ?_ <;> rw [ceilRank] <;> try rw [p90]
    all_goals omega
  · refine percentileTarget_eq hn (by decide) ?_ ?_ ?_ ?_ <;> rw [ceilRank] <;> try rw [p99]
    all_goals omega

/-! ## What a snapshot shows -/

/-- `us` is the bound of the bucket of the latency of a rank. -/
def IsBucketOfRank (l : List UInt64) (rank : Nat) (us : UInt64) : Prop :=
  ∃ v, (sortByKey id l)[rank - 1]? = some v ∧ latencyBucketUs.find? (fun upper => v ≤ upper) = some us

/-- The loop over the buckets adds up without overflow. -/
theorem firstBucketReaching_eq {bounds : List UInt64} {counts : List Nat} {target seen : UInt64}
    (h : seen.toNat + counts.sum < 2 ^ 64) :
    firstBucketReaching target seen
        ((bounds.zip (counts.map UInt64.ofNat)).map fun bucket => ⟨bucket.1, bucket.2⟩) =
      Histogram.firstReaching target.toNat seen.toNat (bounds.zip counts) := by
  induction bounds generalizing counts seen with
  | nil => rfl
  | cons bound bounds ih =>
      cases counts with
      | nil => rfl
      | cons count counts =>
          rw [List.sum_cons] at h
          have hcount : (UInt64.ofNat count).toNat = count :=
            UInt64.toNat_ofNat_of_lt' (by norm_num; omega)
          have hseen : (seen + UInt64.ofNat count).toNat = seen.toNat + count := by
            rw [UInt64.toNat_add, hcount]
            exact Nat.mod_eq_of_lt (by omega)
          have hrest : (seen + UInt64.ofNat count).toNat + counts.sum < 2 ^ 64 := by omega
          rw [List.map_cons, List.zip_cons_cons, List.map_cons, firstBucketReaching, List.zip_cons_cons,
            Histogram.firstReaching, ih hrest, hseen]
          refine if_congr ?_ rfl rfl
          rw [UInt64.le_iff_toNat_le, hseen]

/-- An operation that chooses the better of two finds the best of a list. -/
theorem foldr_best {α : Type*} {better : α → α → Prop} {op : α → α → α} {start : α}
    (hchoice : ∀ a b, op a b = a ∨ op a b = b) (hleft : ∀ a b, better (op a b) a)
    (hright : ∀ a b, better (op a b) b) (htrans : ∀ a b c, better a b → better b c → better a c)
    (hstart : ∀ a, op a start = a) {l : List α} (hne : l ≠ []) :
    l.foldr op start ∈ l ∧ ∀ a ∈ l, better (l.foldr op start) a := by
  induction l with
  | nil => exact absurd rfl hne
  | cons a l ih =>
      rw [List.foldr_cons]
      rcases eq_or_ne l [] with rfl | hl
      · rw [List.foldr_nil, hstart]
        refine ⟨List.mem_cons_self, fun b hb => ?_⟩
        have hself := hleft a start
        rw [hstart] at hself
        exact (List.mem_singleton.mp hb) ▸ hself
      · obtain ⟨hmem, hbest⟩ := ih hl
        constructor
        · rcases hchoice a (l.foldr op start) with heq | heq <;> rw [heq]
          · exact List.mem_cons_self
          · exact List.mem_cons_of_mem a hmem
        · intro b hb
          rcases List.mem_cons.mp hb with rfl | hb
          · exact hleft b _
          · exact htrans _ _ _ (hright a _) (hbest b hb)

/-- Every latency has a bucket. -/
theorem exists_bucket (v : UInt64) : ∃ us, latencyBucketUs.find? (fun upper => v ≤ upper) = some us := by
  refine Option.isSome_iff_exists.mp (List.find?_isSome.mpr ⟨0xFFFFFFFFFFFFFFFF, ?_, ?_⟩)
  · decide
  · have hle : v.toNat ≤ 0xFFFFFFFFFFFFFFFF := Nat.le_of_lt_succ v.toNat_lt
    exact decide_eq_true (UInt64.le_iff_toNat_le.mpr hle)

namespace LatencyMetric

/-- **A percentile** is the bound of the bucket of the latency of its rank. -/
theorem percentileFromBuckets_ofLatencies {l : List UInt64} {percentile rank : Nat}
    (hn : l.length < 2 ^ 47) (hrank : 0 < rank) (hle : rank ≤ l.length)
    (htarget : percentileTarget (UInt64.ofNat l.length) percentile = UInt64.ofNat rank) :
    IsBucketOfRank l rank (percentileFromBuckets (ofLatencies l).bucketSnapshots
      (ofLatencies l).count percentile) := by
  have hlength : rank - 1 < (sortByKey id l).length := by
    rw [length_sortByKey]
    omega
  obtain ⟨us, hus⟩ := exists_bucket (sortByKey id l)[rank - 1]
  have hv : (sortByKey id l)[rank - 1]? = some (sortByKey id l)[rank - 1] :=
    List.getElem?_eq_getElem hlength
  refine ⟨_, hv, ?_⟩
  -- neither the number of calls nor the rank is zero or wraps around
  have hcount : (UInt64.ofNat l.length).toNat = l.length :=
    UInt64.toNat_ofNat_of_lt' (by norm_num; omega)
  have hrank' : (UInt64.ofNat rank).toNat = rank := UInt64.toNat_ofNat_of_lt' (by norm_num; omega)
  have hne : UInt64.ofNat l.length ≠ 0 := by
    intro heq
    rw [heq] at hcount
    have hzero : (0 : UInt64).toNat = 0 := rfl
    omega
  have hone : max (UInt64.ofNat rank) 1 = UInt64.ofNat rank := by
    refine max_eq_left (UInt64.le_iff_toNat_le.mpr ?_)
    rw [hrank']
    exact hrank
  have hsum := Histogram.sum_tally_le latencyBucketUs l
  have hfound := Histogram.firstReaching_tally latencyBucketUs_ascending hv
  rw [Nat.sub_add_cancel hrank] at hfound
  rw [percentileFromBuckets, ofLatencies, bucketSnapshots]
  dsimp only
  rw [if_neg hne, htarget, hone, firstBucketReaching_eq, hrank']
  · have hzero : (0 : UInt64).toNat = 0 := rfl
    rw [hzero, hfound, hus]
    rfl
  · have hzero : (0 : UInt64).toNat = 0 := rfl
    rw [hzero]
    omega

/-- **What a snapshot shows** after a sequence of fewer than `2 ^ 47` recordings whose latencies add up
without overflow: their number, sum, extremes and average, and three percentiles, each the bound of
the bucket in which the latency of its exact rank lies. -/
theorem snapshot_exact {l : List UInt64} (hne : l ≠ []) (hn : l.length < 2 ^ 47)
    (hsum : (l.map UInt64.toNat).sum < 2 ^ 64) :
    let s := (l.foldl recordUs empty).snapshot
    s.count.toNat = l.length ∧ s.sumUs.toNat = (l.map UInt64.toNat).sum ∧
      s.avgUs.toNat = (l.map UInt64.toNat).sum / l.length ∧
      (s.minUs ∈ l ∧ ∀ us ∈ l, s.minUs ≤ us) ∧ (s.maxUs ∈ l ∧ ∀ us ∈ l, us ≤ s.maxUs) ∧
      IsBucketOfRank l (ceilRank 1 2 l.length) s.p50Us ∧
      IsBucketOfRank l (ceilRank 9 10 l.length) s.p90Us ∧
      IsBucketOfRank l (ceilRank 99 100 l.length) s.p99Us := by
  have hpos : 0 < l.length := List.length_pos_iff.mpr hne
  have hcount : (ofLatencies l).count.toNat = l.length :=
    UInt64.toNat_ofNat_of_lt' (by norm_num; omega)
  have hsumUs : (ofLatencies l).sumUs.toNat = (l.map UInt64.toNat).sum :=
    UInt64.toNat_ofNat_of_lt' (by norm_num; omega)
  have hnz : (ofLatencies l).count ≠ 0 := by
    intro heq
    rw [heq] at hcount
    exact hpos.ne hcount
  obtain ⟨h50, h90, h99⟩ := percentileTarget_exact hpos hn
  rw [foldl_recordUs, snapshot]
  dsimp only
  rw [if_neg hnz, if_neg hnz, if_neg hnz]
  refine ⟨hcount, hsumUs, ?_, ?_, ?_, ?_, ?_, ?_⟩
  · rw [UInt64.toNat_div, hcount, hsumUs]
  · have htop : ∀ us : UInt64, min us 0xFFFFFFFFFFFFFFFF = us := fun us =>
      min_eq_left (UInt64.le_iff_toNat_le.mpr (Nat.le_of_lt_succ us.toNat_lt))
    exact @foldr_best _ (· ≤ ·) _ _ min_choice min_le_left min_le_right (fun _ _ _ => le_trans) htop l hne
  · have hbot : ∀ us : UInt64, max us 0 = us := fun us =>
      max_eq_left (UInt64.le_iff_toNat_le.mpr (Nat.zero_le _))
    exact @foldr_best _ (fun a b => b ≤ a) _ _ max_choice le_max_left le_max_right
      (fun _ _ _ hab hbc => hbc.trans hab) hbot l hne
  · exact percentileFromBuckets_ofLatencies hn (by rw [ceilRank]; omega) (by rw [ceilRank]; omega) h50
  · exact percentileFromBuckets_ofLatencies hn (by rw [ceilRank]; omega) (by rw [ceilRank]; omega) h90
  · exact percentileFromBuckets_ofLatencies hn (by rw [ceilRank]; omega) (by rw [ceilRank]; omega) h99

/-- Three recordings. -/
theorem snapshot_exact_three :
    let l : List UInt64 := [10, 2500, 80000]
    let s := (l.foldl recordUs empty).snapshot
    s.count.toNat = l.length ∧ s.sumUs.toNat = (l.map UInt64.toNat).sum ∧
      s.avgUs.toNat = (l.map UInt64.toNat).sum / l.length ∧
      (s.minUs ∈ l ∧ ∀ us ∈ l, s.minUs ≤ us) ∧ (s.maxUs ∈ l ∧ ∀ us ∈ l, us ≤ s.maxUs) ∧
      IsBucketOfRank l (ceilRank 1 2 l.length) s.p50Us ∧
      IsBucketOfRank l (ceilRank 9 10 l.length) s.p90Us ∧
      IsBucketOfRank l (ceilRank 99 100 l.length) s.p99Us :=
  @snapshot_exact [10, 2500, 80000] (by decide) (by decide) (by decide)

example : ([10, 2500, 80000].foldl recordUs empty).snapshot.p50Us = 5000 ∧
    ([10, 2500, 80000].foldl recordUs empty).snapshot.p99Us = 100000 := by decide +kernel

end LatencyMetric

end LsmGraph
