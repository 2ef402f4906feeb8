import LsmGraph.Types

/-! # Segment files and their metadata

The contents of an `.edge` file (`csr/format.rs`) as the reader takes them apart: the header, the
table with one `EdgeOffset` per source, and the edge bodies. `CsrSegmentMeta` is what the version
and the manifest keep of a file. -/

namespace LsmGraph

def csrMagic : UInt32 := 0x47534d4c

def csrVersion : UInt16 := 1

def csrHeaderLen : Nat := 128

def edgeOffsetLen : Nat := 24

def diskEdgeBodyLen : Nat := 32

/-- Header of a segment file. -/
structure CsrHeader where
  magic : UInt32
  version : UInt16
  headerLen : Nat
  level : LevelId
  flags : UInt8
  fileId : FileId
  createTs : Timestamp
  minTs : Timestamp
  maxTs : Timestamp
  srcLabel : Int32
  edgeTypePartition : EdgeType
  minSrc : VertexId
  maxSrc : VertexId
  edgeOffsetCount : Nat
  edgeBodyCount : Nat
  offsetsOffset : Nat
  offsetsLen : Nat
  bodiesOffset : Nat
  bodiesLen : Nat
  checksum : UInt64
  deriving DecidableEq, Repr

/-- The edges of one source: bodies `firstEdgeIdx ..< firstEdgeIdx + edgeCount`. -/
structure EdgeOffset where
  src : VertexId
  firstEdgeIdx : Nat
  edgeCount : Nat
  deriving DecidableEq, Repr

/-- An edge without its source. -/
structure DiskEdgeBody where
  dst : VertexId
  ts : Timestamp
  propOffset : UInt64
  edgeType : EdgeType
  marker : EdgeMarker
  deriving DecidableEq, Repr

namespace DiskEdgeBody

def ofRecord (edge : EdgeRecord) : DiskEdgeBody where
  dst := edge.dst
  ts := edge.ts
  propOffset := 0
  edgeType := edge.edgeType
  marker := edge.marker

def toEdgeRecord (body : DiskEdgeBody) (src : VertexId) : EdgeRecord where
  src := src
  dst := body.dst
  edgeType := body.edgeType
  ts := body.ts
  marker := body.marker

/-- A body read back under its own source is the record it was written from. -/
@[simp] theorem toEdgeRecord_ofRecord (edge : EdgeRecord) :
    (ofRecord edge).toEdgeRecord edge.src = edge := rfl

end DiskEdgeBody

/-- The contents of a segment file. -/
structure CsrSegment where
  header : CsrHeader
  offsets : List EdgeOffset
  bodies : List DiskEdgeBody
  deriving DecidableEq, Repr

/-- What the version and the manifest know about a segment file. -/
structure CsrSegmentMeta where
  fileId : FileId
  level : LevelId
  srcLabel : Int32
  edgeTypePartition : EdgeType
  minSrc : VertexId
  maxSrc : VertexId
  minTs : Timestamp
  edgeCount : Nat
  uniqueSrcCount : Nat
  segmentBytes : Nat
  maxTs : Timestamp
  deriving DecidableEq, Repr

/-- The segment files of a store directory: `levels/L{level}/{file_id}.edge`. -/
abbrev StoreFiles := LevelId → FileId → Option CsrSegment

namespace CsrSegmentMeta

/-- Whether the segment may hold edges of `src` with the type asked for; label `0` and type `0` are
wildcards on the side of the segment, label `0` also on the side of the vertex. -/
def mayContainPartition (m : CsrSegmentMeta) (src : VertexId) (edgeType : Option EdgeType) : Bool :=
  let srcLabel := sourceLabelFromVertexId src
  let labelMatches :=
    m.srcLabel == unknownSourceLabel || srcLabel == unknownSourceLabel || m.srcLabel == srcLabel
  let edgeMatches :=
    match edgeType with
    | some edgeType => m.edgeTypePartition == mixedEdgeType || m.edgeTypePartition == edgeType
    | none => true
  labelMatches && edgeMatches

end CsrSegmentMeta

end LsmGraph
