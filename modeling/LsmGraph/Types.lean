import LsmGraph.Library.MachineOrder
import Mathlib.Data.Prod.Lex

/-! # Records, labels and configuration

The value types of `types.rs` and the part of `config.rs` the engine reads. Vertex ids and
timestamps are `u64`, edge types `i32`; file ids, memgraph ids and sizes are counters that no code
path wraps, and are natural numbers. -/

namespace LsmGraph

abbrev VertexId := UInt64
abbrev Timestamp := UInt64
abbrev SnapshotId := UInt64
abbrev FileId := Nat
abbrev LevelId := UInt8
abbrev EdgeType := Int32

/-- A timestamp that is drawn is beyond the clock. -/
theorem Timestamp.lt_drawn {ts : Timestamp} (h : ts + 1 ≠ 0) : ts < ts + 1 := by
  refine UInt64.lt_add_one fun heq => h ?_
  rw [heq]
  rfl

/-- Bit position of the label inside a vertex id. -/
def vertexLabelShift : UInt64 := 56

def unknownSourceLabel : Int32 := 0

def mixedEdgeType : EdgeType := 0

/-- The label in the top byte of a vertex id, if it is one of the eight known ones. -/
def sourceLabelFromVertexId (src : VertexId) : Int32 :=
  let label := (src >>> vertexLabelShift).toUInt32.toInt32
  if 1 ≤ label ∧ label ≤ 8 then label else unknownSourceLabel

inductive EdgeMarker
  | insert
  | delete
  deriving DecidableEq, Repr

/-- One version of an edge: an insertion or a tombstone. -/
structure EdgeRecord where
  src : VertexId
  dst : VertexId
  edgeType : EdgeType
  ts : Timestamp
  marker : EdgeMarker
  deriving DecidableEq, Repr

namespace EdgeRecord

/-- An insertion record. -/
def insert (src dst : VertexId) (edgeType : EdgeType) (ts : Timestamp) : EdgeRecord :=
  { src, dst, edgeType, ts, marker := .insert }

/-- A tombstone. -/
def delete (src dst : VertexId) (edgeType : EdgeType) (ts : Timestamp) : EdgeRecord :=
  { src, dst, edgeType, ts, marker := .delete }

/-- `std::mem::size_of::<EdgeRecord>()`: 29 bytes of fields rounded up to the alignment of `u64`. -/
def size : Nat := 32

/-- The edge a record is a version of, ordered as the code orders `(src, edge_type, dst)`. -/
def key (e : EdgeRecord) : VertexId ×ₗ EdgeType ×ₗ VertexId :=
  toLex (e.src, toLex (e.edgeType, e.dst))

/-- The sort key `(src, edge_type, dst, ts)` of memgraphs and segments. -/
def versionKey (e : EdgeRecord) : (VertexId ×ₗ EdgeType ×ₗ VertexId) ×ₗ Timestamp :=
  toLex (e.key, e.ts)

/-- Two records are versions of one edge iff they agree on source, type and destination. -/
theorem key_eq_iff {a b : EdgeRecord} :
    a.key = b.key ↔ a.src = b.src ∧ a.edgeType = b.edgeType ∧ a.dst = b.dst := by
  simp [key, Prod.ext_iff]

@[simp] theorem insert_src (src dst : VertexId) (t : EdgeType) (ts : Timestamp) :
    (insert src dst t ts).src = src := rfl

@[simp] theorem insert_ts (src dst : VertexId) (t : EdgeType) (ts : Timestamp) :
    (insert src dst t ts).ts = ts := rfl

@[simp] theorem delete_src (src dst : VertexId) (t : EdgeType) (ts : Timestamp) :
    (delete src dst t ts).src = src := rfl

@[simp] theorem delete_ts (src dst : VertexId) (t : EdgeType) (ts : Timestamp) :
    (delete src dst t ts).ts = ts := rfl

end EdgeRecord

/-- The configuration fields the storage engine reads. -/
structure LsmGraphConfig where
  memgraphCapacityBytes : Nat := 64 * 1024 * 1024
  inlineSegmentCapacity : Nat := 8
  maxLevels : Nat := 5
  l0FileThreshold : Nat := 4
  segmentTargetBytes : Nat := 64 * 1024 * 1024
  minL0PartitionBytes : Nat := 4 * 1024 * 1024
  maxL0SegmentsPerFlush : Nat := 128
  autoCompaction : Bool := false
  graphAwareL0 : Bool := false
  deriving DecidableEq, Repr

/-- Why an operation does not return `Ok`. -/
inductive EngineError
  /-- An I/O operation failed. -/
  | io
  /-- A segment header has a wrong magic number or version. -/
  | decode
  /-- A checked addition overflowed. -/
  | overflow
  /-- The operation is still waiting for a background task. -/
  | blocked
  deriving DecidableEq, Repr

end LsmGraph
