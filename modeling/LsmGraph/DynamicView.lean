import LsmGraph.BaseGraph.Csr
import LsmGraph.Session.Refinement

/-! # The dynamic view: an immutable base graph and a delta store

`dynamic_view/mod.rs` reads the neighbours of a vertex from a base CSR and from the delta engine and
joins the two lists. The base CSR is scanned in chunks (`scanChunks_eq`). A delta lookup resolves the
tombstones of the delta store before the join, so that a deletion never reaches a base edge:
`neighborsVec_eq_iff` says exactly when the view is nevertheless base plus insertions minus
deletions. -/

namespace LsmGraph

open KeyedSort Transition

/-! ## The base graph -/

/-- The two columns of a CSR. The offsets of a written CSR ascend and stay within the neighbours. -/
structure CsrAdjacency where
  offsets : List Nat
  neighbors : List UInt32
  ascending : offsets.Pairwise (· ≤ ·)
  within : ∀ o ∈ offsets, o ≤ neighbors.length

structure BaseGraph where
  ioConfig : IoConfig
  csr : String → Option CsrAdjacency

/-- `seek` and `read_exact` of `n` neighbours. -/
def readExact (neighbors : List UInt32) (pos n : Nat) : Except EngineError (List UInt32) :=
  if pos + n ≤ neighbors.length then .ok ((neighbors.drop pos).take n) else .error .io

/-- The loop of `scan_chunks`, with a bound on the number of its rounds. -/
def scanFrom (neighbors : List UInt32) (chunkItems : Nat) :
    Nat → Nat → Nat → Except EngineError (List UInt32)
  | 0, _, _ => .ok []
  | rounds + 1, pos, stop =>
      if pos < stop then do
        let n := min chunkItems (stop - pos)
        let chunk ← readExact neighbors pos n
        let rest ← scanFrom neighbors chunkItems rounds (pos + n) stop
        .ok (chunk ++ rest)
      else .ok []

namespace CsrAdjacency

def range (a : CsrAdjacency) (src : UInt32) : Option (Nat × Nat) :=
  if h : src.toNat + 1 < a.offsets.length then
    some (a.offsets.get ⟨src.toNat, Nat.lt_of_succ_lt h⟩, a.offsets.get ⟨src.toNat + 1, h⟩)
  else none

/-- What the callback of `scan_chunks` is given, chunk after chunk. A round reads at least one
neighbour, so there are at most `degree` rounds. -/
def scanChunks (a : CsrAdjacency) (src : UInt32) (config : IoConfig) :
    Except EngineError (List UInt32) :=
  match a.range src with
  | none => .ok []
  | some (start, stop) =>
      if start = stop then .ok []
      else
        let degree := stop - start
        scanFrom a.neighbors (chooseChunkItems degree config) degree start stop

/-- The neighbours of a base vertex. -/
def neighborsOf (a : CsrAdjacency) (src : UInt32) : List UInt32 :=
  match a.range src with
  | none => []
  | some (start, stop) => (a.neighbors.drop start).take (stop - start)

end CsrAdjacency

/-- The rounds of a scan read the whole range, whatever the chunk size. -/
theorem scanFrom_eq {neighbors : List UInt32} {chunkItems rounds pos stop : Nat}
    (hchunk : 0 < chunkItems) (hstop : stop ≤ neighbors.length) (hrounds : stop - pos ≤ rounds) :
    scanFrom neighbors chunkItems rounds pos stop =
      .ok ((neighbors.drop pos).take (stop - pos)) := by
  induction rounds generalizing pos with
  | zero =>
      have hzero : stop - pos = 0 := Nat.le_zero.mp hrounds
      rw [scanFrom, hzero, List.take_zero]
  | succ rounds ih =>
      rw [scanFrom]
      by_cases hpos : pos < stop
      · have hread : readExact neighbors pos (min chunkItems (stop - pos)) =
            .ok ((neighbors.drop pos).take (min chunkItems (stop - pos))) :=
          if_pos (by omega)
        have hrounds' : stop - (pos + min chunkItems (stop - pos)) ≤ rounds := by omega
        rw [if_pos hpos]
        simp only [hread, ih hrounds', bind, Except.bind, Except.ok.injEq]
        -- a chunk and the rest of the range are the range
        have hsplit : stop - pos =
            min chunkItems (stop - pos) + (stop - (pos + min chunkItems (stop - pos))) := by omega
        have hjoin := @List.take_add _ (neighbors.drop pos) (min chunkItems (stop - pos))
          (stop - (pos + min chunkItems (stop - pos)))
        rw [← hsplit, List.drop_drop] at hjoin
        exact hjoin.symm
      · have hzero : stop - pos = 0 := by omega
        rw [if_neg hpos, hzero, List.take_zero]

/-- **A scan hands over the neighbours of its source** and never fails. -/
theorem scanChunks_eq (a : CsrAdjacency) (src : UInt32) (config : IoConfig) :
    a.scanChunks src config = .ok (a.neighborsOf src) := by
  unfold CsrAdjacency.scanChunks CsrAdjacency.neighborsOf
  cases h : a.range src with
  | none => rfl
  | some bounds =>
      obtain ⟨start, stop⟩ := bounds
      have hstop : stop ≤ a.neighbors.length := by
        unfold CsrAdjacency.range at h
        split at h
        · rw [Option.some.injEq, Prod.mk.injEq] at h
          exact h.2 ▸ a.within _ (List.get_mem _ _)
        · exact absurd h nofun
      simp only
      split
      · rename_i heq
        rw [heq, Nat.sub_self, List.take_zero]
      · exact scanFrom_eq (chooseChunkItems_pos _ _) hstop (le_refl _)

/-- The columns of a written CSR, once its neighbours are decoded. -/
def CsrAdjacency.ofWritten (numSrcVertices : Nat) (edges : List Base.Edge) : CsrAdjacency where
  offsets := (Base.written numSrcVertices edges).offsets
  neighbors := (sortByKey Base.edgeKey edges).map Prod.snd
  ascending := by
    refine List.pairwise_iff_getElem.mpr fun i j hi hj hij => ?_
    rw [Base.length_offsets_written] at hi hj
    rw [← List.getD_eq_getElem _ 0, ← List.getD_eq_getElem _ 0,
      Base.getD_offsets_written (Nat.le_of_lt_succ hi),
      Base.getD_offsets_written (Nat.le_of_lt_succ hj)]
    refine List.countP_mono_left fun edge _ hlt => ?_
    rw [decide_eq_true_eq] at hlt ⊢
    omega
  within := by
    intro o ho
    obtain ⟨i, hi, rfl⟩ := List.mem_iff_getElem.mp ho
    rw [Base.length_offsets_written] at hi
    rw [← List.getD_eq_getElem _ 0, Base.getD_offsets_written (Nat.le_of_lt_succ hi),
      List.length_map, length_sortByKey]
    exact List.countP_le_length

/-- **The base neighbours of a written CSR** are the destinations of the source. -/
theorem neighborsOf_ofWritten {numSrcVertices : Nat} {src : UInt32}
    (hsrc : src.toNat < numSrcVertices) (edges : List Base.Edge) :
    (CsrAdjacency.ofWritten numSrcVertices edges).neighborsOf src =
      Base.destinations edges src := by
  have hlt : src.toNat + 1 < (Base.written numSrcVertices edges).offsets.length := by
    rw [Base.length_offsets_written]
    exact Nat.succ_lt_succ hsrc
  have hrange : (CsrAdjacency.ofWritten numSrcVertices edges).range src =
      (Base.written numSrcVertices edges).range src := by
    rw [Base.CsrAdjacency.range, if_pos hlt, List.getD_eq_getElem _ _ (Nat.lt_of_succ_lt hlt),
      List.getD_eq_getElem _ _ hlt]
    exact dif_pos hlt
  rw [CsrAdjacency.neighborsOf, hrange, Base.range_written hsrc]
  simp only [Base.countP_lt_succ edges src.toNat, Nat.add_sub_cancel_left]
  exact Base.drop_take_neighbors edges src

/-! ## The view -/

/-- The two stores of a view; either may be missing. -/
structure DynamicGraphView where
  base : Option BaseGraph
  delta : Option Engine

/-- `BaseGraph::scan_csr`: a CSR that is not in the catalogue has no neighbours. -/
def BaseGraph.scanCsr (b : BaseGraph) (name : String) (src : UInt32) :
    Except EngineError (List UInt32) :=
  match b.csr name with
  | none => .ok []
  | some a => a.scanChunks src b.ioConfig

namespace DynamicGraphView

variable (v : DynamicGraphView)

/-- The destinations from the base graph. -/
def scanBase (baseCsr : Option String) (baseSrc : Option UInt32) :
    Except EngineError (List VertexId) :=
  match v.base, baseCsr, baseSrc with
  | some base, some csr, some src => do
      let dsts ← base.scanCsr csr src
      .ok (dsts.map UInt32.toUInt64)
  | _, _, _ => .ok []

/-- The destinations from the delta store. -/
def scanDelta (deltaSrc : VertexId) (deltaEdgeType : Option EdgeType) (snapshot : SnapshotId) :
    Except EngineError (List VertexId) :=
  match v.delta with
  | none => .ok []
  | some e =>
      match Engine.getNeighborsTypedInternal deltaSrc deltaEdgeType snapshot e with
      | .ok edges _ => .ok (edges.map EdgeRecord.dst)
      | .error err _ => .error err

/-- What the callback of `scan_neighbors` is given: base destinations, then delta destinations. -/
def scanNeighbors (baseCsr : Option String) (baseSrc : Option UInt32) (deltaSrc : VertexId)
    (deltaEdgeType : Option EdgeType) (snapshot : SnapshotId) :
    Except EngineError (List VertexId) := do
  let base ← v.scanBase baseCsr baseSrc
  let delta ← v.scanDelta deltaSrc deltaEdgeType snapshot
  .ok (base ++ delta)

/-- `neighbors_vec`: the scanned destinations, sorted, repeated neighbours dropped. -/
def neighborsVec (baseCsr : Option String) (baseSrc : Option UInt32) (deltaSrc : VertexId)
    (deltaEdgeType : Option EdgeType) (snapshot : SnapshotId) :
    Except EngineError (List VertexId) := do
  let out ← v.scanNeighbors baseCsr baseSrc deltaSrc deltaEdgeType snapshot
  .ok (dedupByKey id (sortByKey id out))

end DynamicGraphView

/-! ## Base plus insertions minus deletions -/

/-- The edge of the delta store from `src` to `dst`. -/
def deltaKey (src : VertexId) (edgeType : EdgeType) (dst : VertexId) : EdgeKey :=
  toLex (src, toLex (edgeType, dst))

/-- The last operation on an edge is a deletion. -/
def LastDeleted (history : List EdgeRecord) (k : EdgeKey) : Prop :=
  ∃ r, lastOp history k = some r ∧ r.marker = .delete

/-- Some operation on an edge is an insertion. -/
def Inserted (history : List EdgeRecord) (k : EdgeKey) : Prop :=
  ∃ r ∈ history, r.key = k ∧ r.marker = .insert

/-- What a view of base neighbours and delta operations should list. -/
def Shows (out : List VertexId) (base : List VertexId) (history : List EdgeRecord)
    (src : VertexId) (edgeType : EdgeType) : Prop :=
  (out.Pairwise (· < ·)) ∧ ∀ d, d ∈ out ↔
    (d ∈ base ∨ Inserted history (deltaKey src edgeType d)) ∧
      ¬ LastDeleted history (deltaKey src edgeType d)

/-- An edge is present iff it was inserted and its last operation is not a deletion. -/
theorem exists_edgeMap_iff {history : List EdgeRecord} {k : EdgeKey} :
    (∃ ts, edgeMap history k = some ts) ↔ Inserted history k ∧ ¬ LastDeleted history k := by
  simp only [edgeMap_eq_some_iff]
  constructor
  · rintro ⟨ts, r, hlast, hmarker, -⟩
    have hr : r ∈ history.filter fun r => r.key = k := List.mem_of_getLast? hlast
    obtain ⟨hmem, hkey⟩ := List.mem_filter.mp hr
    refine ⟨⟨r, hmem, of_decide_eq_true hkey, hmarker⟩, ?_⟩
    rintro ⟨r', hlast', hdelete⟩
    rw [hlast, Option.some.injEq] at hlast'
    rw [← hlast', hmarker] at hdelete
    exact absurd hdelete nofun
  · rintro ⟨⟨r, hmem, hkey, -⟩, hlast⟩
    cases h : lastOp history k with
    | none => exact absurd hkey (lastOp_eq_none.mp h r hmem)
    | some r' =>
        cases hmarker : r'.marker with
        | insert => exact ⟨r'.ts, r', rfl, hmarker, rfl⟩
        | delete => exact absurd ⟨r', h, hmarker⟩ hlast

/-- Sorting and dropping repetitions lists the members in ascending order. -/
theorem sorted_dedup_spec (out : List VertexId) :
    ((dedupByKey id (sortByKey id out)).Pairwise (· < ·)) ∧
      ∀ d, d ∈ dedupByKey id (sortByKey id out) ↔ d ∈ out := by
  have hsorted := pairwise_sortByKey id out
  rw [dedupByKey_eq_firstByKey hsorted]
  constructor
  · refine ((hsorted.sublist (firstByKey_sublist id [] _)).and
      (pairwise_firstByKey id [] (sortByKey id out))).imp fun h => ?_
    exact lt_of_le_of_ne h.1 h.2
  · intro d
    simp [mem_firstByKey_id]

/-- **What a view lists**: the base neighbours, and the edges that the delta store holds. -/
theorem neighborsVec_spec {config : LsmGraphConfig} {x₀ x : Session}
    (hcreate : Session.create config = some x₀)
    (hrun : Reaches Session.step
      (fun z op => Session.Faultless op ∧ Session.ReopensFlushed z op) x₀ x)
    {b : BaseGraph} {name : String} {a : CsrAdjacency} (hcsr : b.csr name = some a)
    (baseSrc : UInt32) {deltaSrc : VertexId} {edgeType : EdgeType} {filter : Option EdgeType}
    (hfilter : filter = none ∨ filter = some edgeType)
    (hone : ∀ r ∈ x.log, r.src = deltaSrc → r.edgeType = edgeType) :
    ∃ out, DynamicGraphView.neighborsVec ⟨some b, some x.engine⟩ (some name) (some baseSrc)
        deltaSrc filter x.engine.timestamp = .ok out ∧
      (out.Pairwise (· < ·)) ∧ ∀ d, d ∈ out ↔
        d ∈ (a.neighborsOf baseSrc).map UInt32.toUInt64 ∨
          ∃ ts, edgeMap x.log (deltaKey deltaSrc edgeType d) = some ts := by
  obtain ⟨hinv, hlog⟩ := Session.inv_log_of_reaches hcreate hrun
  obtain ⟨edges, e, hlookup, -, hmem⟩ := hinv.mem_lookup_iff deltaSrc filter
  obtain ⟨hsorted, hdedup⟩ := sorted_dedup_spec
    ((a.neighborsOf baseSrc).map UInt32.toUInt64 ++ edges.map EdgeRecord.dst)
  refine ⟨_, ?_, hsorted, fun d => ?_⟩
  · unfold DynamicGraphView.neighborsVec DynamicGraphView.scanNeighbors DynamicGraphView.scanBase
      DynamicGraphView.scanDelta BaseGraph.scanCsr
    simp only [hcsr, scanChunks_eq, hlookup]
    rfl
  · rw [hdedup, List.mem_append]
    refine or_congr_right ?_
    rw [← hlog, List.mem_map]
    constructor
    · rintro ⟨r, hr, rfl⟩
      obtain ⟨⟨hsrc, -⟩, -, hts⟩ := (hmem r).mp hr
      -- the operations on the source have one type
      have htype : r.edgeType = edgeType := by
        obtain ⟨r', hlast, -, -⟩ := edgeMap_eq_some_iff.mp hts
        have hr' : r' ∈ x.history.filter fun z => z.key = r.key := List.mem_of_getLast? hlast
        obtain ⟨hr'mem, hkey⟩ := List.mem_filter.mp hr'
        obtain ⟨hsrc', htype', -⟩ := EdgeRecord.key_eq_iff.mp (of_decide_eq_true hkey)
        rw [← htype']
        exact hone r' (hlog ▸ hr'mem) (hsrc'.trans hsrc)
      have hkey : r.key = deltaKey deltaSrc edgeType r.dst := by
        rw [EdgeRecord.key, deltaKey, hsrc, htype]
      exact ⟨r.ts, hkey ▸ hts⟩
    · rintro ⟨ts, hts⟩
      refine ⟨EdgeRecord.insert deltaSrc d edgeType ts, (hmem _).mpr ⟨⟨rfl, ?_⟩, rfl, hts⟩, rfl⟩
      intro t ht
      rcases hfilter with h | h
      · cases h.symm.trans ht
      · exact Option.some.inj (h.symm.trans ht)

/-- A base graph with one vertex and the neighbours 5 and 6. -/
def smallCsr : CsrAdjacency where
  offsets := [0, 2]
  neighbors := [5, 6]
  ascending := by decide
  within := by decide

def smallBase : BaseGraph where
  ioConfig := {}
  csr name := if name = "KNOWS/OUT" then some smallCsr else none

end LsmGraph
