import LsmGraph.Library.ByteLayout
import LsmGraph.Library.KeyedSort
import LsmGraph.Types
import Mathlib.Data.List.GetD

/-! # Writing and scanning a base CSR

`base_graph/csr.rs`, down to the bytes of the two files of a CSR directory: `writeCsr` sorts the
pairs, counts them per source and writes the prefix sums and the neighbours; `scanChunks` seeks to
the range of a source and reads it in chunks. A pair whose source is out of range is not counted, and
its neighbour stands behind all counted ones, so every range is that of its source
(`drop_take_neighbors`), and a scan hands over the neighbours of its source whatever the chunk size
(`scanChunks_written`). -/

namespace LsmGraph

open ByteLayout KeyedSort

/-- The fields of the I/O configuration that a scan reads. -/
structure IoConfig where
  neighborBlockBytes : Nat := 256 * 1024
  smallDegreeThreshold : Nat := 128
  deriving DecidableEq, Repr

def chooseChunkItems (degree : Nat) (config : IoConfig) : Nat :=
  if degree ≤ config.smallDegreeThreshold then max degree 1
  else max (config.neighborBlockBytes / 4) 1

theorem chooseChunkItems_pos (degree : Nat) (config : IoConfig) :
    0 < chooseChunkItems degree config := by
  unfold chooseChunkItems
  split <;> omega

namespace Base

/-! ## Writing -/

/-- An edge of a base relation: the local ids of its source and its destination. -/
abbrev Edge := UInt32 × UInt32

/-- `offsets.bin` and `neighbors.bin`. -/
structure CsrFiles where
  offsets : List UInt8
  neighbors : List UInt8
  deriving DecidableEq, Repr

def edgeKey (edge : Edge) : UInt32 ×ₗ UInt32 := toLex edge

/-- The edges of each source are counted in the entry after its own. -/
def countSources (numSrcVertices : Nat) (edges : List Edge) : List Nat :=
  edges.foldl
    (fun offsets edge =>
      if edge.1.toNat < numSrcVertices then offsets.modify (edge.1.toNat + 1) (· + 1) else offsets)
    (List.replicate (numSrcVertices + 1) 0)

/-- Every entry is increased by the new value of the entry before it. -/
def prefixSums (previous : Nat) : List Nat → List Nat
  | [] => []
  | offset :: offsets => (previous + offset) :: prefixSums (previous + offset) offsets

def writeU64s (values : List Nat) : List UInt8 := values.flatMap (toBytes 8)

def writeU32s (values : List UInt32) : List UInt8 := values.flatMap fun value => toBytes 4 value.toNat

/-- The files of a CSR, and the number of its neighbours. -/
def writeCsr (numSrcVertices : Nat) (edges : List Edge) : CsrFiles × Nat :=
  let edges := sortByKey edgeKey edges
  let neighbors := edges.map Prod.snd
  ({ offsets := writeU64s (prefixSums 0 (countSources numSrcVertices edges))
     neighbors := writeU32s neighbors }, neighbors.length)

/-! ## Reading -/

/-- A column whose length is no multiple of its width is refused. -/
def readU64Column (bytes : List UInt8) : Except EngineError (List Nat) :=
  if bytes.length % 8 ≠ 0 then .error .decode
  else .ok ((chunksExact 8 bytes).map ofBytes)

/-- An open CSR: its offsets in memory, its neighbours on disk. -/
structure CsrAdjacency where
  offsets : List Nat
  neighborsPath : List UInt8

def CsrAdjacency.open (files : CsrFiles) : Except EngineError CsrAdjacency := do
  let offsets ← readU64Column files.offsets
  .ok { offsets, neighborsPath := files.neighbors }

def CsrAdjacency.range (a : CsrAdjacency) (src : UInt32) : Option (Nat × Nat) :=
  if src.toNat + 1 < a.offsets.length then
    some (a.offsets.getD src.toNat 0, a.offsets.getD (src.toNat + 1) 0)
  else none

/-- `seek` and `read_exact`. -/
def readExactAt (file : List UInt8) (pos len : Nat) : Except EngineError (List UInt8) :=
  if pos + len ≤ file.length then .ok (slice file pos len) else .error .io

/-- One chunk of `n` neighbours. The byte offset is a `u64`. -/
def readChunk (file : List UInt8) (pos n : Nat) : Except EngineError (List UInt32) := do
  let bytes ← readExactAt file (pos * 4 % 2 ^ 64) (n * 4)
  .ok ((chunksExact 4 bytes).map fun chunk => UInt32.ofNat (ofBytes chunk))

/-- The loop of `scan_chunks`: the chunks it hands over, or `none` when it has not ended after
`rounds` rounds. -/
def scanRounds (file : List UInt8) (chunkItems : Nat) :
    Nat → Nat → Nat → Option (Except EngineError (List (List UInt32)))
  | 0, _, _ => none
  | rounds + 1, pos, stop =>
      if pos < stop then
        let n := min chunkItems (stop - pos)
        match readChunk file pos n with
        | .error e => some (.error e)
        | .ok chunk =>
            (scanRounds file chunkItems rounds (pos + n) stop).map fun rest =>
              rest.map fun chunks => chunk :: chunks
      else some (.ok [])

/-- The chunks handed to the callback of `scan_chunks` when it never fails. -/
def CsrAdjacency.scanChunks (a : CsrAdjacency) (src : UInt32) (config : IoConfig) :
    Option (Except EngineError (List (List UInt32))) :=
  match a.range src with
  | none => some (.ok [])
  | some (start, stop) =>
      if start = stop then some (.ok [])
      else
        let degree := stop - start
        scanRounds a.neighborsPath (chooseChunkItems degree config) (degree + 1) start stop

/-! ## The offsets -/

theorem length_prefixSums (previous : Nat) (offsets : List Nat) :
    (prefixSums previous offsets).length = offsets.length := by
  induction offsets generalizing previous with
  | nil => rfl
  | cons offset offsets ih => rw [prefixSums, List.length_cons, ih, List.length_cons]

/-- Each sum is the sum before it and the entry. -/
theorem prefixSums_succ {previous i : Nat} {offsets : List Nat} (hi : i + 1 < offsets.length) :
    (prefixSums previous offsets).getD (i + 1) 0 =
      (prefixSums previous offsets).getD i 0 + offsets.getD (i + 1) 0 := by
  induction offsets generalizing previous i with
  | nil => exact absurd hi (Nat.not_lt_zero _)
  | cons offset offsets ih =>
      rw [prefixSums, List.getD_cons_succ, List.getD_cons_succ]
      cases i with
      | zero =>
          cases offsets with
          | nil => exact absurd hi (Nat.lt_irrefl 1)
          | cons offset' offsets => rfl
      | succ i => exact ih (Nat.lt_of_succ_lt_succ hi)

theorem length_countSources (numSrcVertices : Nat) (edges : List Edge) :
    (countSources numSrcVertices edges).length = numSrcVertices + 1 := by
  rw [countSources]
  refine List.foldlRecOn (motive := fun offsets : List Nat => offsets.length = numSrcVertices + 1)
    edges _ (List.length_replicate ..) fun offsets h edge _ => ?_
  split
  · rw [List.length_modify, h]
  · exact h

theorem getD_modify_succ {offsets : List Nat} {i j : Nat} (hj : j < offsets.length) :
    (offsets.modify i (· + 1)).getD j 0 = offsets.getD j 0 + if i = j then 1 else 0 := by
  rw [List.getD_eq_getElem?_getD, List.getElem?_modify, List.getD_eq_getElem?_getD,
    List.getElem?_eq_getElem hj]
  split <;> rfl

/-- Entry `j` counts the edges of the source before it. -/
theorem getD_countSources {numSrcVertices j : Nat} (hj : j < numSrcVertices + 1)
    (edges : List Edge) :
    (countSources numSrcVertices edges).getD j 0 =
      edges.countP fun edge => edge.1.toNat < numSrcVertices ∧ edge.1.toNat + 1 = j := by
  suffices h : ∀ offsets : List Nat, offsets.length = numSrcVertices + 1 →
      (edges.foldl (fun offsets edge =>
        if edge.1.toNat < numSrcVertices then offsets.modify (edge.1.toNat + 1) (· + 1)
        else offsets) offsets).getD j 0 = offsets.getD j 0 +
          edges.countP fun edge => edge.1.toNat < numSrcVertices ∧ edge.1.toNat + 1 = j by
    rw [countSources, h _ (List.length_replicate ..), List.getD_eq_getElem _ _ (by simpa using hj),
      List.getElem_replicate, Nat.zero_add]
  induction edges with
  | nil => exact fun _ _ => rfl
  | cons edge edges ih =>
      intro offsets hlength
      have hj' : j < offsets.length := hlength ▸ hj
      rw [List.foldl_cons, List.countP_cons]
      by_cases hsrc : edge.1.toNat < numSrcVertices
      · rw [if_pos hsrc, ih _ (by rw [List.length_modify, hlength]), getD_modify_succ hj']
        simp only [hsrc, true_and, decide_eq_true_eq]
        omega
      · rw [if_neg hsrc, ih _ hlength]
        simp only [hsrc, false_and, decide_false, Bool.false_eq_true, if_false, Nat.add_zero]

theorem countP_lt_succ (edges : List Edge) (i : Nat) :
    (edges.countP fun edge => edge.1.toNat < i + 1) =
      (edges.countP fun edge => edge.1.toNat < i) + edges.countP fun edge => edge.1.toNat = i := by
  induction edges with
  | nil => rfl
  | cons edge edges ih =>
      simp only [List.countP_cons, decide_eq_true_eq]
      split <;> split <;> split <;> omega

/-- **An offset is the number of edges with a smaller source.** -/
theorem getD_csrOffsets {numSrcVertices i : Nat} (hi : i ≤ numSrcVertices) (edges : List Edge) :
    (prefixSums 0 (countSources numSrcVertices edges)).getD i 0 =
      edges.countP fun edge => edge.1.toNat < i := by
  have hlength := length_countSources numSrcVertices edges
  induction i with
  | zero =>
      have hzero := getD_countSources (Nat.succ_pos numSrcVertices) edges
      have hnone : (edges.countP fun edge => edge.1.toNat < numSrcVertices ∧ edge.1.toNat + 1 = 0)
          = 0 := List.countP_eq_zero.mpr fun edge _ => by simp
      have hnone' : (edges.countP fun edge => edge.1.toNat < 0) = 0 :=
        List.countP_eq_zero.mpr fun edge _ => by simp
      rw [hnone] at hzero
      rw [hnone']
      cases hcounts : countSources numSrcVertices edges with
      | nil => rfl
      | cons count counts =>
          rw [hcounts] at hzero
          rw [prefixSums, List.getD_cons_zero, Nat.zero_add]
          exact hzero
  | succ i ih =>
      -- entry `i + 1` counts the edges of source `i`
      rw [prefixSums_succ (by omega), ih (Nat.le_of_succ_le hi), getD_countSources (by omega)]
      have hcongr : (edges.countP fun edge => edge.1.toNat < numSrcVertices ∧
          edge.1.toNat + 1 = i + 1) = edges.countP fun edge => edge.1.toNat = i :=
        List.countP_congr fun edge _ => by
          rw [decide_eq_true_eq, decide_eq_true_eq]
          omega
      rw [hcongr, countP_lt_succ]

/-! ## The neighbours -/

theorem perm_sorted (edges : List Edge) : (sortByKey edgeKey edges).Perm edges :=
  perm_sortByKey _ edges

/-- The written edges ascend in their source. -/
theorem pairwise_src_sorted (edges : List Edge) :
    (sortByKey edgeKey edges).Pairwise fun a b => a.1.toNat ≤ b.1.toNat := by
  refine (pairwise_sortByKey edgeKey edges).imp fun h => ?_
  rcases Prod.Lex.le_iff.mp h with hlt | ⟨heq, -⟩
  · exact UInt32.le_iff_toNat_le.mp (le_of_lt hlt)
  · exact (congrArg UInt32.toNat heq).le

/-- **The range of a source** holds the edges of the source. -/
theorem drop_take_sorted (edges : List Edge) (i : Nat) :
    ((sortByKey edgeKey edges).drop (edges.countP fun edge => edge.1.toNat < i)).take
        (edges.countP fun edge => edge.1.toNat = i) =
      (sortByKey edgeKey edges).filter fun edge => edge.1.toNat = i := by
  have hsorted := pairwise_src_sorted edges
  have hcount := (perm_sorted edges).countP_eq fun edge => decide (edge.1.toNat < i)
  have hcount' := (perm_sorted edges).countP_eq fun edge => decide (edge.1.toNat = i)
  rw [← hcount, drop_countP_lt hsorted i]
  -- of the edges from `i` on, those of `i` come first
  have hsplit := filter_lt_append_filter_ge
    (hsorted.filter fun edge : Edge => decide (i ≤ edge.1.toNat)) (i + 1)
  have hfirst : (((sortByKey edgeKey edges).filter fun edge => i ≤ edge.1.toNat).filter
      fun edge => edge.1.toNat < i + 1) =
        (sortByKey edgeKey edges).filter fun edge => edge.1.toNat = i := by
    rw [List.filter_filter]
    refine List.filter_congr fun edge _ => ?_
    rw [← Bool.decide_and]
    exact decide_eq_decide.mpr (by omega)
  rw [hfirst] at hsplit
  rw [← hsplit, ← hcount', List.countP_eq_length_filter]
  exact List.take_left

/-- The neighbours of one source ascend. -/
theorem pairwise_dst_sorted (edges : List Edge) (src : UInt32) :
    (((sortByKey edgeKey edges).filter fun edge => edge.1 = src).map Prod.snd).Pairwise
      (· ≤ ·) := by
  refine List.pairwise_map.mpr ?_
  refine ((pairwise_sortByKey edgeKey edges).filter _).imp_of_mem fun ha hb hle => ?_
  have ha' := of_decide_eq_true (List.mem_filter.mp ha).2
  have hb' := of_decide_eq_true (List.mem_filter.mp hb).2
  rcases Prod.Lex.le_iff.mp hle with hlt | ⟨-, hle⟩
  · exact absurd (ha'.trans hb'.symm) (ne_of_lt hlt)
  · exact hle

/-- The destinations paired with a source, ascending. -/
def destinations (edges : List Edge) (src : UInt32) : List UInt32 :=
  sortByKey id ((edges.filter fun edge => edge.1 = src).map Prod.snd)

theorem mem_destinations {edges : List Edge} {src dst : UInt32} :
    dst ∈ destinations edges src ↔ (src, dst) ∈ edges := by
  simp [destinations]

/-- A neighbour is listed as often as its edge. -/
theorem count_destinations (edges : List Edge) (src dst : UInt32) :
    (destinations edges src).count dst = edges.count (src, dst) := by
  rw [destinations, (perm_sortByKey id _).count_eq]
  induction edges with
  | nil => rfl
  | cons edge edges ih =>
      obtain ⟨src', dst'⟩ := edge
      rw [List.filter_cons, List.count_cons]
      by_cases hsrc : src' = src
      · rw [if_pos (decide_eq_true hsrc), List.map_cons, List.count_cons, ih]
        simp [hsrc]
      · rw [if_neg (by simpa using hsrc), ih]
        simp [hsrc]

theorem map_filter_sorted (edges : List Edge) (src : UInt32) :
    ((sortByKey edgeKey edges).filter fun edge => edge.1 = src).map Prod.snd =
      destinations edges src := by
  have hperm : (((sortByKey edgeKey edges).filter fun edge => edge.1 = src).map Prod.snd).Perm
      (destinations edges src) :=
    (((perm_sorted edges).filter _).map _).trans (perm_sortByKey id _).symm
  exact hperm.eq_of_pairwise (fun a b _ _ => le_antisymm) (pairwise_dst_sorted edges src)
    (pairwise_sortByKey id _)

/-! ## The scan -/

theorem readU64Column_writeU64s {values : List Nat} (h : ∀ v ∈ values, v < 2 ^ 64) :
    readU64Column (writeU64s values) = .ok values := by
  have hwidth : ∀ v, (toBytes 8 v).length = 8 := length_toBytes 8
  rw [readU64Column, writeU64s, length_flatMap_const hwidth, Nat.mul_mod_left,
    if_neg (not_not.mpr rfl), chunksExact_flatMap hwidth (by decide), List.map_map]
  refine congrArg _ ((List.map_congr_left fun v hv => ?_).trans (List.map_id _))
  exact ofBytes_toBytes (h v hv)

/-- A chunk inside the file is read as it was written. -/
theorem readChunk_writeU32s {neighbors : List UInt32} {pos n : Nat}
    (hn : pos + n ≤ neighbors.length) (hlength : 4 * neighbors.length < 2 ^ 64) :
    readChunk (writeU32s neighbors) pos n = .ok ((neighbors.drop pos).take n) := by
  have hwidth : ∀ value : UInt32, (toBytes 4 value.toNat).length = 4 :=
    fun value => length_toBytes 4 _
  have hmod : pos * 4 % 2 ^ 64 = pos * 4 := Nat.mod_eq_of_lt (by omega)
  have hbytes : readExactAt (writeU32s neighbors) (pos * 4 % 2 ^ 64) (n * 4) =
      .ok (((neighbors.drop pos).take n).flatMap fun value => toBytes 4 value.toNat) := by
    rw [hmod, readExactAt, writeU32s, length_flatMap_const hwidth, if_pos (by omega),
      slice_flatMap_const hwidth]
  simp only [readChunk, hbytes, bind, Except.bind, chunksExact_flatMap hwidth (by decide : 0 < 4),
    List.map_map]
  refine congrArg _ ((List.map_congr_left fun value _ => ?_).trans (List.map_id _))
  rw [Function.comp_apply, ofBytes_toBytes value.toNat_lt, UInt32.ofNat_toNat, id]

/-- **The rounds of a scan** end, and read the whole range in nonempty chunks. -/
theorem scanRounds_spec {neighbors : List UInt32} {chunkItems rounds pos stop : Nat}
    (hchunk : 0 < chunkItems) (hstop : stop ≤ neighbors.length)
    (hlength : 4 * neighbors.length < 2 ^ 64) (hrounds : stop - pos < rounds) :
    ∃ chunks, scanRounds (writeU32s neighbors) chunkItems rounds pos stop = some (.ok chunks) ∧
      [] ∉ chunks ∧ chunks.flatten = (neighbors.drop pos).take (stop - pos) := by
  induction rounds generalizing pos with
  | zero => exact absurd hrounds (Nat.not_lt_zero _)
  | succ rounds ih =>
      rw [scanRounds]
      by_cases hpos : pos < stop
      · -- a chunk of `n > 0` neighbours is read, and `n` fewer are left
        obtain ⟨n, hn⟩ : ∃ n, n = min chunkItems (stop - pos) := ⟨_, rfl⟩
        have hread : readChunk (writeU32s neighbors) pos n = .ok ((neighbors.drop pos).take n) :=
          readChunk_writeU32s (by omega) hlength
        obtain ⟨chunks, hrest, hne, hflatten⟩ := @ih (pos + n) (by omega)
        rw [if_pos hpos]
        simp only [← hn, hread, hrest, Option.map_some]
        refine ⟨(neighbors.drop pos).take n :: chunks, rfl, ?_, ?_⟩
        · rw [List.mem_cons, not_or]
          refine ⟨fun hnil => ?_, hne⟩
          have hzero := congrArg List.length hnil
          rw [List.length_nil, List.length_take, List.length_drop] at hzero
          omega
        · -- a chunk and the rest of the range are the range
          have hsplit : stop - pos = n + (stop - (pos + n)) := by omega
          rw [List.flatten_cons, hflatten, hsplit, List.take_add, List.drop_drop]
      · have hzero : stop - pos = 0 := by omega
        rw [if_neg hpos, hzero, List.take_zero]
        exact ⟨[], rfl, List.not_mem_nil, rfl⟩

/-- What is open after a CSR was written. -/
def written (numSrcVertices : Nat) (edges : List Edge) : CsrAdjacency where
  offsets := prefixSums 0 (countSources numSrcVertices (sortByKey edgeKey edges))
  neighborsPath := writeU32s ((sortByKey edgeKey edges).map Prod.snd)

theorem length_offsets_written (numSrcVertices : Nat) (edges : List Edge) :
    (written numSrcVertices edges).offsets.length = numSrcVertices + 1 := by
  rw [written, length_prefixSums, length_countSources]

theorem getD_offsets_written {numSrcVertices i : Nat} (hi : i ≤ numSrcVertices)
    (edges : List Edge) :
    (written numSrcVertices edges).offsets.getD i 0 =
      edges.countP fun edge => edge.1.toNat < i := by
  rw [written, getD_csrOffsets hi]
  exact (perm_sorted edges).countP_eq _

theorem open_writeCsr {numSrcVertices : Nat} {edges : List Edge}
    (hedges : 8 * edges.length < 2 ^ 63) :
    CsrAdjacency.open (writeCsr numSrcVertices edges).1 = .ok (written numSrcVertices edges) := by
  have hvalues : ∀ v ∈ (written numSrcVertices edges).offsets, v < 2 ^ 64 := by
    intro v hv
    obtain ⟨i, hi, rfl⟩ := List.mem_iff_getElem.mp hv
    rw [length_offsets_written] at hi
    rw [← List.getD_eq_getElem _ 0, getD_offsets_written (Nat.le_of_lt_succ hi)]
    have hle := edges.countP_le_length (p := fun edge => decide (edge.1.toNat < i))
    omega
  have hread := readU64Column_writeU64s hvalues
  simp only [CsrAdjacency.open, writeCsr]
  rw [written] at hread
  simp only at hread
  rw [hread]
  rfl

theorem range_written {numSrcVertices : Nat} {edges : List Edge} {src : UInt32}
    (hsrc : src.toNat < numSrcVertices) :
    (written numSrcVertices edges).range src =
      some (edges.countP fun edge => edge.1.toNat < src.toNat,
        edges.countP fun edge => edge.1.toNat < src.toNat + 1) := by
  rw [CsrAdjacency.range, length_offsets_written, if_pos (Nat.succ_lt_succ hsrc),
    getD_offsets_written hsrc.le, getD_offsets_written hsrc]

/-- The neighbours in the range of a source. -/
theorem drop_take_neighbors (edges : List Edge) (src : UInt32) :
    (((sortByKey edgeKey edges).map Prod.snd).drop
        (edges.countP fun edge => edge.1.toNat < src.toNat)).take
          (edges.countP fun edge => edge.1.toNat = src.toNat) = destinations edges src := by
  rw [← List.map_drop, ← List.map_take, drop_take_sorted, ← map_filter_sorted]
  refine congrArg _ (List.filter_congr fun edge _ => ?_)
  exact decide_eq_decide.mpr UInt32.toNat_inj

/-- **A scan of a written CSR** ends, whatever the configuration, and its nonempty chunks join to the
ascending destinations of the source, or to nothing for a source out of range. -/
theorem scanChunks_written {edges : List Edge} (hedges : 8 * edges.length < 2 ^ 63)
    (numSrcVertices : Nat) (src : UInt32) (config : IoConfig) :
    ∃ chunks, (written numSrcVertices edges).scanChunks src config = some (.ok chunks) ∧
      [] ∉ chunks ∧
        chunks.flatten = if src.toNat < numSrcVertices then destinations edges src else [] := by
  rw [CsrAdjacency.scanChunks]
  by_cases hsrc : src.toNat < numSrcVertices
  · rw [range_written hsrc, if_pos hsrc]
    simp only [countP_lt_succ edges src.toNat]
    -- the range of the source starts behind the edges of smaller sources
    obtain ⟨below, hbelow⟩ :
        ∃ n, n = edges.countP fun edge => edge.1.toNat < src.toNat := ⟨_, rfl⟩
    obtain ⟨degree, hdegree⟩ :
        ∃ n, n = edges.countP fun edge => edge.1.toNat = src.toNat := ⟨_, rfl⟩
    have hdst := drop_take_neighbors edges src
    have hle : below + degree ≤ edges.length := by
      rw [hbelow, hdegree, ← countP_lt_succ]
      exact List.countP_le_length
    have hlength : ((sortByKey edgeKey edges).map Prod.snd).length = edges.length := by
      rw [List.length_map, length_sortByKey]
    rw [← hbelow, ← hdegree] at hdst ⊢
    by_cases hzero : degree = 0
    · rw [if_pos (by omega)]
      rw [hzero, List.take_zero] at hdst
      exact ⟨[], rfl, List.not_mem_nil, hdst⟩
    · rw [if_neg (by omega), Nat.add_sub_cancel_left]
      obtain ⟨chunks, hscan, hne, hflatten⟩ := @scanRounds_spec
        ((sortByKey edgeKey edges).map Prod.snd) _ (degree + 1) below (below + degree)
        (chooseChunkItems_pos degree config) (hlength ▸ hle) (by rw [hlength]; omega) (by omega)
      rw [Nat.add_sub_cancel_left, hdst] at hflatten
      exact ⟨chunks, hscan, hne, hflatten⟩
  · have hrange : (written numSrcVertices edges).range src = none := by
      rw [CsrAdjacency.range, length_offsets_written, if_neg fun h => hsrc (Nat.lt_of_succ_lt_succ h)]
    rw [hrange, if_neg hsrc]
    exact ⟨[], rfl, List.not_mem_nil, rfl⟩

/-- **A written CSR is read back.** An allocation is smaller than `2 ^ 63` bytes, and an edge takes
eight. -/
theorem scanChunks_writeCsr (numSrcVertices : Nat) (edges : List Edge)
    (hedges : 8 * edges.length < 2 ^ 63) (src : UInt32) (config : IoConfig) :
    ∃ a, CsrAdjacency.open (writeCsr numSrcVertices edges).1 = .ok a ∧
      ∃ chunks, a.scanChunks src config = some (.ok chunks) ∧ [] ∉ chunks ∧
        chunks.flatten = if src.toNat < numSrcVertices then destinations edges src else [] :=
  ⟨written numSrcVertices edges, open_writeCsr hedges,
    scanChunks_written hedges numSrcVertices src config⟩

/-- Four unsorted pairs over two sources, one of them out of range, read back with chunks of one
neighbour. -/
theorem scanChunks_writeCsr_four :
    let edges : List Edge := [(1, 9), (2, 4), (1, 3), (0, 7)]
    ∃ a, CsrAdjacency.open (writeCsr 2 edges).1 = .ok a ∧
      ∃ chunks, a.scanChunks 1 { neighborBlockBytes := 1, smallDegreeThreshold := 1 } =
        some (.ok chunks) ∧ [] ∉ chunks ∧ chunks.flatten = [3, 9] := by
  intro edges
  exact scanChunks_writeCsr 2 edges (by decide) 1
    { neighborBlockBytes := 1, smallDegreeThreshold := 1 }

end Base

end LsmGraph
