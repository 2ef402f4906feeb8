import LsmGraph.Library.Tally
import LsmGraph.Snb.Vertices

/-! # The stored vertices

The records of `snb_vertices.jsonl` with all their fields, and `SnbGraph` with the map that they are
loaded into. `StoredGraph.toOpen` forgets the fields that the queries of `Snb/Vertices` do not read.
Every vertex is stored under the id that its label and its external id encode to (`WellKeyed`). -/

namespace LsmGraph

open Tally

namespace Stored

structure PersonProps extends LsmGraph.PersonProps where
  place : Int64
  deriving DecidableEq, Repr

structure PlaceProps extends LsmGraph.PlaceProps where
  placeType : String
  isPartOf : Option Int64
  deriving DecidableEq, Repr

structure OrgProps extends LsmGraph.OrgProps where
  orgType : String
  place : Int64
  deriving DecidableEq, Repr

structure PostProps extends LsmGraph.PostProps where
  locationIp : String
  browserUsed : String
  language : String
  length : Int64
  creator : Int64
  forumId : Int64
  place : Int64
  deriving DecidableEq, Repr

structure CommentProps extends LsmGraph.CommentProps where
  locationIp : String
  browserUsed : String
  length : Int64
  creator : Int64
  place : Int64
  replyOfPost : Option Int64
  replyOfComment : Option Int64
  deriving DecidableEq, Repr

structure ForumProps where
  id : Int64
  title : String
  creationDate : Int64
  moderator : Int64
  deriving DecidableEq, Repr

structure TagProps where
  id : Int64
  name : String
  hasType : Int64
  deriving DecidableEq, Repr

structure TagClassProps where
  id : Int64
  name : String
  isSubclassOf : Option Int64
  deriving DecidableEq, Repr

inductive VertexData
  | person (p : PersonProps)
  | place (p : PlaceProps)
  | organisation (p : OrgProps)
  | post (p : PostProps)
  | comment (p : CommentProps)
  | forum (p : ForumProps)
  | tag (p : TagProps)
  | tagClass (p : TagClassProps)
  deriving DecidableEq, Repr

namespace VertexData

def label : VertexData → VertexLabel
  | person _ => .person
  | place _ => .place
  | organisation _ => .organisation
  | post _ => .post
  | comment _ => .comment
  | forum _ => .forum
  | tag _ => .tag
  | tagClass _ => .tagClass

def externalId : VertexData → Int64
  | person p => p.id
  | place p => p.id
  | organisation p => p.id
  | post p => p.id
  | comment p => p.id
  | forum p => p.id
  | tag p => p.id
  | tagClass p => p.id

/-- The id a vertex is stored under. -/
def vid (data : VertexData) : VertexId := encodeVid data.label data.externalId

/-- The fields that `Snb/Vertices` keeps. -/
def toRead : VertexData → LsmGraph.VertexData
  | person p => .person p.toPersonProps
  | place p => .place p.toPlaceProps
  | organisation p => .organisation p.toOrgProps
  | post p => .post p.toPostProps
  | comment p => .comment p.toCommentProps
  | forum p => .forum p.id
  | tag p => .tag p.id
  | tagClass p => .tagClass p.id

theorem label_toRead (data : VertexData) : data.toRead.label = data.label := by
  cases data <;> rfl

end VertexData

/-- A line of `snb_vertices.jsonl`. -/
structure VertexRow where
  vid : VertexId
  data : VertexData
  deriving DecidableEq, Repr

/-- `load_vertices`: a later line replaces an earlier one. -/
def loadVertices (rows : List VertexRow) : Table VertexId VertexData :=
  rows.foldl (fun t row => t.insert row.vid row.data) .empty

/-- Every vertex is stored under its own id. -/
def WellKeyed (t : Table VertexId VertexData) : Prop := ∀ vid data, t.get vid = some data → vid = data.vid

theorem wellKeyed_insert {t : Table VertexId VertexData} (h : WellKeyed t) (data : VertexData) :
    WellKeyed (t.insert data.vid data) := by
  intro vid data' hget
  rw [Table.get_insert] at hget
  split at hget
  · rename_i heq
    cases hget
    exact heq
  · exact h vid data' hget

/-- Lines with their own ids are loaded into a well keyed map. -/
theorem wellKeyed_loadVertices {rows : List VertexRow} (h : ∀ row ∈ rows, row.vid = row.data.vid) :
    WellKeyed (loadVertices rows) := by
  have hfold : ∀ t : Table VertexId VertexData, WellKeyed t →
      WellKeyed (rows.foldl (fun t row => t.insert row.vid row.data) t) := by
    induction rows with
    | nil => exact fun t ht => ht
    | cons row rows ih =>
        intro t ht
        obtain ⟨hrow, hrows⟩ := List.forall_mem_cons.mp h
        rw [List.foldl_cons, hrow]
        exact ih hrows _ (wellKeyed_insert ht row.data)
  exact hfold _ fun vid data hget => by cases hget

/-- What is loaded comes from a line. -/
theorem row_of_loadVertices {rows : List VertexRow} {vid : VertexId} {data : VertexData}
    (h : (loadVertices rows).get vid = some data) : ∃ row ∈ rows, row.data = data := by
  induction rows using List.reverseRecOn with
  | nil => cases h
  | append_singleton rows row ih =>
      rw [loadVertices, List.foldl_append, List.foldl_cons, List.foldl_nil, Table.get_insert] at h
      split at h
      · exact ⟨row, List.mem_append_right _ List.mem_cons_self, Option.some.inj h⟩
      · obtain ⟨row', hrow', hdata⟩ := ih h
        exact ⟨row', List.mem_append_left _ hrow', hdata⟩

end Stored

/-- `SnbGraph` with its map of vertices. -/
structure StoredGraph extends SnbGraph where
  vertices : Table VertexId Stored.VertexData

namespace StoredGraph

variable (g : StoredGraph)

def toOpen : OpenGraph where
  toSnbGraph := g.toSnbGraph
  vertices vid := (g.vertices.get vid).map Stored.VertexData.toRead

def place (vid : VertexId) : Option Stored.PlaceProps :=
  match g.vertices.get vid with
  | some (.place p) => some p
  | _ => none

def forum (vid : VertexId) : Option Stored.ForumProps :=
  match g.vertices.get vid with
  | some (.forum p) => some p
  | _ => none

def tag (vid : VertexId) : Option Stored.TagProps :=
  match g.vertices.get vid with
  | some (.tag p) => some p
  | _ => none

def tagClass (vid : VertexId) : Option Stored.TagClassProps :=
  match g.vertices.get vid with
  | some (.tagClass p) => some p
  | _ => none

def person (vid : VertexId) : Option PersonProps := g.toOpen.person vid

/-- `vertices_by_label`, in the order in which the map is iterated over. -/
def verticesByLabel (o : IterationOrder) (label : VertexLabel) : List VertexId :=
  (o.order g.vertices.keys).filter fun vid => g.toOpen.vertexLabel vid = some label

/-- `insert_vertex`. -/
def insertVertex (data : Stored.VertexData) : StoredGraph :=
  { g with vertices := g.vertices.insert data.vid data }

variable {g}

theorem vertexLabel_toOpen (vid : VertexId) :
    g.toOpen.vertexLabel vid = (g.vertices.get vid).map Stored.VertexData.label := by
  rw [OpenGraph.vertexLabel, toOpen, Option.map_map]
  congr 1
  exact funext Stored.VertexData.label_toRead

theorem mem_verticesByLabel {o : IterationOrder} {label : VertexLabel} {vid : VertexId} :
    vid ∈ g.verticesByLabel o label ↔ g.toOpen.vertexLabel vid = some label := by
  rw [verticesByLabel, List.mem_filter, decide_eq_true_iff, and_iff_right_iff_imp]
  intro h
  rw [(o.perm _).mem_iff, g.vertices.mem_keys]
  intro hnone
  rw [vertexLabel_toOpen, hnone] at h
  cases h

theorem person_eq_some {vid : VertexId} {p : PersonProps} (h : g.person vid = some p) :
    ∃ q : Stored.PersonProps, g.vertices.get vid = some (.person q) ∧ q.toPersonProps = p := by
  rw [person, OpenGraph.person, toOpen] at h
  dsimp only at h
  cases hget : g.vertices.get vid with
  | none =>
      rw [hget] at h
      cases h
  | some data =>
      rw [hget] at h
      cases data with
      | person q => exact ⟨q, rfl, Option.some.inj h⟩
      | _ => cases h

/-- In a well keyed map a person's vertex id is the encoding of the person's id. -/
theorem vid_of_person (hkeys : Stored.WellKeyed g.vertices) {vid : VertexId} {p : PersonProps}
    (h : g.person vid = some p) : vid = encodeVid .person p.id := by
  obtain ⟨q, hget, rfl⟩ := person_eq_some h
  rw [hkeys vid _ hget, Stored.VertexData.vid]
  rfl

end StoredGraph

end LsmGraph
