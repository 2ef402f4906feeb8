import LsmGraph.Library.MachineOrder
import LsmGraph.Snb.Import

/-! # An open graph with its vertices

The vertex map of `SnbGraph` and what the queries of `snb/queries.rs` read through it: persons,
messages and their summaries, places and organisations. Of the property records only the fields that
a query reads are kept. The iteration order of a `HashSet` or `HashMap` is left open: a query that
iterates over one takes an `IterationOrder`. -/

namespace LsmGraph

open KeyedSort

structure PersonProps where
  id : Int64
  firstName : String
  lastName : String
  gender : String
  birthday : Int64
  creationDate : Int64
  locationIp : String
  browserUsed : String
  language : String
  email : String
  deriving DecidableEq, Repr

structure PlaceProps where
  id : Int64
  name : String
  deriving DecidableEq, Repr

structure OrgProps where
  id : Int64
  name : String
  deriving DecidableEq, Repr

structure PostProps where
  id : Int64
  imageFile : String
  creationDate : Int64
  content : String
  deriving DecidableEq, Repr

def PostProps.contentOrImage (p : PostProps) : String :=
  if p.content = "" then p.imageFile else p.content

structure CommentProps where
  id : Int64
  creationDate : Int64
  content : String
  deriving DecidableEq, Repr

inductive VertexData
  | person (p : PersonProps)
  | place (p : PlaceProps)
  | organisation (p : OrgProps)
  | post (p : PostProps)
  | comment (p : CommentProps)
  | forum (id : Int64)
  | tag (id : Int64)
  | tagClass (id : Int64)
  deriving DecidableEq, Repr

def VertexData.label : VertexData → VertexLabel
  | person _ => .person
  | place _ => .place
  | organisation _ => .organisation
  | post _ => .post
  | comment _ => .comment
  | forum _ => .forum
  | tag _ => .tag
  | tagClass _ => .tagClass

def EdgeProp.asI32 : EdgeProp → Int32
  | i32 v => v
  | i64 v => v.toInt32
  | empty => 0

def EdgeProp.asI64 : EdgeProp → Int64
  | i32 v => v.toInt64
  | i64 v => v
  | empty => 0

/-- `SnbGraph` with its vertices. -/
structure OpenGraph extends SnbGraph where
  vertices : VertexId → Option VertexData

/-- In which order a `HashSet` or `HashMap` is iterated over, from its keys in the order in which
they were inserted. -/
structure IterationOrder where
  order : List VertexId → List VertexId
  perm : ∀ keys, (order keys).Perm keys

/-- A `HashSet` collected from a list, as it is iterated over. -/
def IterationOrder.hashSet (o : IterationOrder) (l : List VertexId) : List VertexId :=
  o.order (firstByKey id [] l)

namespace OpenGraph

variable (g : OpenGraph)

def person (vid : VertexId) : Option PersonProps :=
  match g.vertices vid with
  | some (.person p) => some p
  | _ => none

def place (vid : VertexId) : Option PlaceProps :=
  match g.vertices vid with
  | some (.place p) => some p
  | _ => none

def organisation (vid : VertexId) : Option OrgProps :=
  match g.vertices vid with
  | some (.organisation p) => some p
  | _ => none

def post (vid : VertexId) : Option PostProps :=
  match g.vertices vid with
  | some (.post p) => some p
  | _ => none

def comment (vid : VertexId) : Option CommentProps :=
  match g.vertices vid with
  | some (.comment p) => some p
  | _ => none

def vertexLabel (vid : VertexId) : Option VertexLabel := (g.vertices vid).map VertexData.label

def placeName (vid : VertexId) : String := ((g.place vid).map PlaceProps.name).getD ""

/-- `in_edges_with_prop`. -/
def inEdgesWithProp (vid : VertexId) (edgeLabel : EdgeLabel) : List (VertexId × EdgeProp) :=
  (g.inNeighborsCached vid edgeLabel).map fun src =>
    (src, g.edgePropByType vid (-edgeLabel.asI32) src)

def knowsNeighbors (vid : VertexId) : List VertexId := g.outNeighborsCached vid .knows

/-- The messages of a person. -/
def inMessagesCreators (personVid : VertexId) : List VertexId :=
  (g.inNeighborsCached personVid .hasCreator).filter fun vid =>
    g.vertexLabel vid = some .post ∨ g.vertexLabel vid = some .comment

def messageCreatorVid (msgVid : VertexId) : Option VertexId :=
  (g.outNeighborsCached msgVid .hasCreator).head?

/-- Id, creation date and content of a message. -/
def messageSummary (msgVid : VertexId) : Option (Int64 × Int64 × String) :=
  match g.comment msgVid with
  | some comment => some (comment.id, comment.creationDate, comment.content)
  | none => (g.post msgVid).map fun post => (post.id, post.creationDate, post.contentOrImage)

def messageContent (msgVid : VertexId) : String :=
  ((g.messageSummary msgVid).map fun summary => summary.2.2).getD ""

/-- A person is stored under this id. -/
def HasPerson (id : Int64) : Prop := ∃ p, g.person (encodeVid .person id) = some p ∧ p.id = id

theorem HasPerson.person_ne_none {g : OpenGraph} {id : Int64} (h : g.HasPerson id) :
    g.person (encodeVid .person id) ≠ none := by
  obtain ⟨p, hp, -⟩ := h
  exact hp ▸ Option.some_ne_none p

/-- Different persons have different vertex ids. -/
theorem encodeVid_ne {g : OpenGraph} {id id' : Int64} (h : g.HasPerson id) (h' : g.HasPerson id')
    (hne : id ≠ id') : encodeVid .person id ≠ encodeVid .person id' := by
  obtain ⟨p, hp, rfl⟩ := h
  obtain ⟨p', hp', rfl⟩ := h'
  intro heq
  rw [heq, hp'] at hp
  exact hne (congrArg PersonProps.id (Option.some.inj hp).symm)

end OpenGraph

end LsmGraph
