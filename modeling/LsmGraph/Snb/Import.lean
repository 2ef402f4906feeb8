import LsmGraph.Snb.Graph

/-! # Importing SNB data

`snb/full_loader.rs` and the updates of `snb/queries.rs`, from the decoded rows on. Every edge of a
full load or a stream goes through `insert_forward_reverse`, every edge of an HTTP update through
`insert_edge_cached`; both take the arguments of an `EdgeCall` and make the same insertions
(`EdgeCall.insertions`). An import leaves two files behind, the property rows and the adjacency
cache, from which `SnbGraph.open` builds the graph. Reading CSV and JSON text, vertex properties and
statistics are left out. -/

namespace LsmGraph

open AdjacencyBuilder

/-! ## Vertices -/

/-- `VertexLabel`, with the discriminants of `types.rs`. -/
inductive VertexLabel
  | person
  | comment
  | post
  | forum
  | organisation
  | place
  | tag
  | tagClass
  deriving DecidableEq, Repr

def VertexLabel.asU64 : VertexLabel → UInt64
  | person => 1
  | comment => 2
  | post => 3
  | forum => 4
  | organisation => 5
  | place => 6
  | tag => 7
  | tagClass => 8

/-- The low bits of a vertex id. -/
def externalMask : UInt64 := (1 <<< vertexLabelShift) - 1

def encodeVid (label : VertexLabel) (externalId : Int64) : VertexId :=
  (label.asU64 <<< vertexLabelShift) ||| (externalId.toUInt64 &&& externalMask)

/-! ## Calls -/

/-- The arguments of `insert_forward_reverse` and `insert_edge_cached`. -/
structure EdgeCall where
  src : VertexId
  dst : VertexId
  edgeLabel : EdgeLabel
  prop : EdgeProp
  includeReverse : Bool
  deriving DecidableEq, Repr

/-- The edges one call inserts, in order. -/
def EdgeCall.insertions (c : EdgeCall) : List EdgeInsertion :=
  let label := c.edgeLabel.asI32
  ⟨c.src, c.dst, label, c.prop⟩ ::
    if c.includeReverse then [⟨c.dst, c.src, -label, c.prop⟩] else []

/-- The calls for one edge. Those of an edge file, `apply_binary_update_edge` and
`insert_update_edge` make a second one for the opposite direction of a bidirectional edge. -/
def edgeCalls (src dst : VertexId) (edgeLabel : EdgeLabel) (prop : EdgeProp)
    (bidirectionalPositive : Bool) : List EdgeCall :=
  ⟨src, dst, edgeLabel, prop, true⟩ ::
    if bidirectionalPositive then [⟨dst, src, edgeLabel, prop, false⟩] else []

/-! ## The edge files of a full import -/

/-- The fixed arguments of `import_edge_file`. -/
structure EdgeFileSpec where
  path : String
  srcLabel : VertexLabel
  dstLabel : VertexLabel
  edgeLabel : EdgeLabel
  bidirectionalPositive : Bool := false
  deriving DecidableEq, Repr

/-- A decoded row: the two ids, absent where the column is empty or `-1`, and the property. -/
structure EdgeRow where
  src : Option Int64
  dst : Option Int64
  prop : EdgeProp

/-- The edge files in the order of `import_snb_full`, the named ones last. -/
def edgeFiles : List EdgeFileSpec :=
  [ { path := "dynamic/person_knows_person_0_0.csv", srcLabel := .person, dstLabel := .person
      edgeLabel := .knows, bidirectionalPositive := true },
    { path := "dynamic/person_likes_comment_0_0.csv", srcLabel := .person, dstLabel := .comment
      edgeLabel := .likesComment },
    { path := "dynamic/person_likes_post_0_0.csv", srcLabel := .person, dstLabel := .post
      edgeLabel := .likesPost },
    { path := "dynamic/person_hasInterest_tag_0_0.csv", srcLabel := .person, dstLabel := .tag
      edgeLabel := .hasInterest },
    { path := "dynamic/person_studyAt_organisation_0_0.csv", srcLabel := .person
      dstLabel := .organisation, edgeLabel := .studyAt },
    { path := "dynamic/person_workAt_organisation_0_0.csv", srcLabel := .person
      dstLabel := .organisation, edgeLabel := .workAt },
    { path := "dynamic/forum_hasMember_person_0_0.csv", srcLabel := .forum, dstLabel := .person
      edgeLabel := .hasMember },
    { path := "dynamic/forum_hasTag_tag_0_0.csv", srcLabel := .forum, dstLabel := .tag
      edgeLabel := .hasTag },
    { path := "dynamic/comment_hasTag_tag_0_0.csv", srcLabel := .comment, dstLabel := .tag
      edgeLabel := .hasTag },
    { path := "dynamic/post_hasTag_tag_0_0.csv", srcLabel := .post, dstLabel := .tag
      edgeLabel := .hasTag },
    { path := "dynamic/person_0_0.csv", srcLabel := .person, dstLabel := .place
      edgeLabel := .isLocatedIn },
    { path := "dynamic/forum_0_0.csv", srcLabel := .forum, dstLabel := .person
      edgeLabel := .hasModerator },
    { path := "dynamic/post_0_0.csv", srcLabel := .post, dstLabel := .person
      edgeLabel := .hasCreator },
    { path := "dynamic/post_0_0.csv", srcLabel := .forum, dstLabel := .post
      edgeLabel := .containerOf },
    { path := "dynamic/post_0_0.csv", srcLabel := .post, dstLabel := .place
      edgeLabel := .isLocatedIn },
    { path := "dynamic/comment_0_0.csv", srcLabel := .comment, dstLabel := .person
      edgeLabel := .hasCreator },
    { path := "dynamic/comment_0_0.csv", srcLabel := .comment, dstLabel := .place
      edgeLabel := .isLocatedIn },
    { path := "dynamic/comment_0_0.csv", srcLabel := .comment, dstLabel := .post
      edgeLabel := .replyOfPost },
    { path := "dynamic/comment_0_0.csv", srcLabel := .comment, dstLabel := .comment
      edgeLabel := .replyOfComment },
    { path := "static/organisation_0_0.csv", srcLabel := .organisation, dstLabel := .place
      edgeLabel := .isLocatedIn },
    { path := "static/place_0_0.csv", srcLabel := .place, dstLabel := .place
      edgeLabel := .isPartOf },
    { path := "static/tag_0_0.csv", srcLabel := .tag, dstLabel := .tagClass
      edgeLabel := .hasType },
    { path := "static/tagclass_0_0.csv", srcLabel := .tagClass, dstLabel := .tagClass
      edgeLabel := .isSubclassOf } ]

/-- `import_edge_file` on one row; a row without both ids is skipped. -/
def EdgeFileSpec.rowCalls (spec : EdgeFileSpec) (row : EdgeRow) : List EdgeCall :=
  match row.src, row.dst with
  | some src, some dst =>
      edgeCalls (encodeVid spec.srcLabel src) (encodeVid spec.dstLabel dst) spec.edgeLabel row.prop
        spec.bidirectionalPositive
  | _, _ => []

/-- The calls of a full import; `rows` is what each file holds in the columns of its specification. -/
def fullImportCalls (rows : EdgeFileSpec → List EdgeRow) : List EdgeCall :=
  edgeFiles.flatMap fun spec => (rows spec).flatMap spec.rowCalls

/-! ## Updates -/

/-- A decoded update, of a stream or of an HTTP request; its constructors are operations 1 to 8. -/
inductive SnbUpdate
  | addPerson (id place : Int64) (tags : List Int64) (studyAt workAt : List (Int64 × Int32))
  | likePost (person post date : Int64)
  | likeComment (person comment date : Int64)
  | addForum (id moderator : Int64) (tags : List Int64)
  | joinForum (forum person date : Int64)
  | addPost (id creator forum place : Int64) (tags : List Int64)
  | addComment (id creator place : Int64) (replyOfPost replyOfComment : Option Int64)
      (tags : List Int64)
  | know (person1 person2 date : Int64)
  deriving DecidableEq, Repr

/-- The call of `apply_add_*` and of `run_dgs_http_update` for an edge of a new vertex. -/
def ownEdge (src : VertexId) (dstLabel : VertexLabel) (edgeLabel : EdgeLabel) (dst : Int64)
    (prop : EdgeProp := .empty) : List EdgeCall :=
  edgeCalls src (encodeVid dstLabel dst) edgeLabel prop false

def applyAddPerson (id place : Int64) (tags : List Int64) (studyAt workAt : List (Int64 × Int32)) :
    List EdgeCall :=
  let vid := encodeVid .person id
  ownEdge vid .place .isLocatedIn place ++
    tags.flatMap (fun tag => ownEdge vid .tag .hasInterest tag) ++
    studyAt.flatMap (fun org => ownEdge vid .organisation .studyAt org.1 (.i32 org.2)) ++
    workAt.flatMap fun org => ownEdge vid .organisation .workAt org.1 (.i32 org.2)

def applyAddForum (id moderator : Int64) (tags : List Int64) : List EdgeCall :=
  let vid := encodeVid .forum id
  ownEdge vid .person .hasModerator moderator ++
    tags.flatMap fun tag => ownEdge vid .tag .hasTag tag

def applyAddPost (id creator forum place : Int64) (tags : List Int64) : List EdgeCall :=
  let vid := encodeVid .post id
  ownEdge vid .person .hasCreator creator ++
    edgeCalls (encodeVid .forum forum) vid .containerOf .empty false ++
    ownEdge vid .place .isLocatedIn place ++
    tags.flatMap fun tag => ownEdge vid .tag .hasTag tag

def applyAddComment (id creator place : Int64) (replyOfPost replyOfComment : Option Int64)
    (tags : List Int64) : List EdgeCall :=
  let vid := encodeVid .comment id
  ownEdge vid .person .hasCreator creator ++
    ownEdge vid .place .isLocatedIn place ++
    replyOfPost.toList.flatMap (fun post => ownEdge vid .post .replyOfPost post) ++
    replyOfComment.toList.flatMap (fun comment => ownEdge vid .comment .replyOfComment comment) ++
    tags.flatMap fun tag => ownEdge vid .tag .hasTag tag

def applyBinaryUpdateEdge (srcLabel dstLabel : VertexLabel) (edgeLabel : EdgeLabel)
    (bidirectionalPositive : Bool) (src dst date : Int64) : List EdgeCall :=
  edgeCalls (encodeVid srcLabel src) (encodeVid dstLabel dst) edgeLabel (.i64 date)
    bidirectionalPositive

/-- The calls of one update. The arms of `run_dgs_http_update` make the same ones as the operations
of `import_update_stream_file`. -/
def SnbUpdate.calls : SnbUpdate → List EdgeCall
  | addPerson id place tags studyAt workAt => applyAddPerson id place tags studyAt workAt
  | likePost person post date =>
      applyBinaryUpdateEdge .person .post .likesPost false person post date
  | likeComment person comment date =>
      applyBinaryUpdateEdge .person .comment .likesComment false person comment date
  | addForum id moderator tags => applyAddForum id moderator tags
  | joinForum forum person date =>
      applyBinaryUpdateEdge .forum .person .hasMember false forum person date
  | addPost id creator forum place tags => applyAddPost id creator forum place tags
  | addComment id creator place replyOfPost replyOfComment tags =>
      applyAddComment id creator place replyOfPost replyOfComment tags
  | know person1 person2 date =>
      applyBinaryUpdateEdge .person .person .knows true person1 person2 date

/-- The edges a list of calls inserts, in order. -/
def insertionsOf (calls : List EdgeCall) : List EdgeInsertion := calls.flatMap EdgeCall.insertions

/-! ## The files of a store -/

/-- A line of `snb_edge_props.jsonl`. -/
structure EdgePropRow where
  src : VertexId
  dst : VertexId
  edgeType : EdgeType
  prop : EdgeProp
  deriving DecidableEq, Repr

/-- The lines of `snb_edge_props.jsonl`, and the map in `snb_adjacency.bin` if the file exists. -/
structure SnbStore where
  edgeProps : List EdgePropRow
  cache : Option Adjacency

namespace SnbStore

/-- A directory before the first import. -/
def new : SnbStore where
  edgeProps := []
  cache := none

/-- `write_edge_prop`: the empty property is not written. -/
def writeEdgeProp (rows : List EdgePropRow) (e : EdgeInsertion) : List EdgePropRow :=
  if e.prop = .empty then rows else rows ++ [⟨e.src, e.dst, e.edgeType, e.prop⟩]

/-- `import_snb_full`, when the engine's clock stands at `clock`: both files are made anew. -/
def importSnbFull (clock : Timestamp) (rows : EdgeFileSpec → List EdgeRow) : SnbStore :=
  let es := insertionsOf (fullImportCalls rows)
  { edgeProps := es.foldl writeEdgeProp []
    cache := some (empty.recordEdges (clock + 1) es).build }

/-- The builder `import_snb_updates` starts with. -/
def startBuilder (cache : Option Adjacency) (clock : Timestamp) : AdjacencyBuilder :=
  match cache with
  | some adjacency => fromAdjacency adjacency clock
  | none => empty

/-- `import_snb_updates`, when the engine's clock stands at `clock`. -/
def importSnbUpdates (s : SnbStore) (clock : Timestamp) (updates : List SnbUpdate) : SnbStore :=
  let es := insertionsOf (updates.flatMap SnbUpdate.calls)
  { edgeProps := es.foldl writeEdgeProp s.edgeProps
    cache := some ((startBuilder s.cache clock).recordEdges (clock + 1) es).build }

end SnbStore

/-! ## The graph -/

/-- `load_edge_props`: a later line replaces an earlier one. -/
def loadEdgeProps (rows : List EdgePropRow) : EdgePropMap :=
  rows.foldl (fun props row =>
    Function.update props (row.src, row.edgeType, row.dst) (some row.prop)) fun _ => none

/-- `SnbGraph::open`, where `scan` is what a scan of the engine returns. -/
def SnbGraph.open (s : SnbStore) (scan : List EdgeRecord) : SnbGraph where
  edgeProps := loadEdgeProps s.edgeProps
  adjacency :=
    match s.cache with
    | some adjacency => adjacency
    | none => buildAdjacencyFromEdges scan

/-- `run_dgs_http_update` on an open graph. -/
def SnbGraph.runDgsHttpUpdate (g : SnbGraph) (update : SnbUpdate) : SnbGraph :=
  update.calls.foldl (fun g c => g.insertEdgeCached c.src c.dst c.edgeLabel c.prop c.includeReverse) g

/-! ## Calls as insertions -/

theorem insertEdgeCached_eq (g : SnbGraph) (c : EdgeCall) :
    g.insertEdgeCached c.src c.dst c.edgeLabel c.prop c.includeReverse =
      g.insertEdges c.insertions := by
  rw [SnbGraph.insertEdgeCached, SnbGraph.insertEdges, EdgeCall.insertions]
  cases c.includeReverse <;> rfl

/-- An HTTP update makes the insertions of its calls. -/
theorem runDgsHttpUpdate_eq (g : SnbGraph) (update : SnbUpdate) :
    g.runDgsHttpUpdate update = g.insertEdges (insertionsOf update.calls) := by
  rw [SnbGraph.runDgsHttpUpdate, insertionsOf]
  generalize update.calls = calls
  induction calls generalizing g with
  | nil => rfl
  | cons c calls ih =>
      rw [List.foldl_cons, ih, insertEdgeCached_eq, List.flatMap_cons, SnbGraph.insertEdges,
        SnbGraph.insertEdges, SnbGraph.insertEdges, List.foldl_append]

/-- The properties in the file after a sequence of insertions, loaded. -/
theorem loadEdgeProps_foldl (rows : List EdgePropRow) (es : List EdgeInsertion) :
    loadEdgeProps (es.foldl SnbStore.writeEdgeProp rows) =
      es.foldl (fun props e => insertProp props e.src e.edgeType e.dst e.prop)
        (loadEdgeProps rows) := by
  induction es generalizing rows with
  | nil => rfl
  | cons e es ih =>
      rw [List.foldl_cons, List.foldl_cons, ih]
      congr 1
      rw [SnbStore.writeEdgeProp, insertProp]
      split
      · rfl
      · rw [loadEdgeProps, List.foldl_append, ← loadEdgeProps]
        rfl

theorem edgeProps_insertEdges (g : SnbGraph) (es : List EdgeInsertion) :
    (g.insertEdges es).edgeProps =
      es.foldl (fun props e => insertProp props e.src e.edgeType e.dst e.prop) g.edgeProps := by
  induction es generalizing g with
  | nil => rfl
  | cons e es ih => exact ih _

end LsmGraph
