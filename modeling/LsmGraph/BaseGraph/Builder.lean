import LsmGraph.BaseGraph.Relations

/-! # Columns and derived indexes of a base graph

The rest of `base_graph/builder.rs`: the maps from external to local ids, the columns with one value
for each vertex, and the indexes that are derived from the same files in a second pass over them.
Columns are kept as their values, CSRs as the bytes of their files. The catalog is left out; the roots
of the comments are in `BaseGraph/Roots`. -/

namespace LsmGraph

namespace Base

/-- `u32::MAX`, which stands for no value. -/
def u32Max : UInt32 := 4294967295

/-- `u8::MAX`. -/
def u8Max : UInt8 := 255

/-! ## Local ids of all labels -/

inductive LabelId
  | person
  | comment
  | post
  | forum
  | organisation
  | place
  | tag
  | tagClass
  deriving DecidableEq, Repr

def LabelId.path : LabelId → String
  | person => "dynamic/person_0_0.csv"
  | comment => "dynamic/comment_0_0.csv"
  | post => "dynamic/post_0_0.csv"
  | forum => "dynamic/forum_0_0.csv"
  | organisation => "static/organisation_0_0.csv"
  | place => "static/place_0_0.csv"
  | tag => "static/tag_0_0.csv"
  | tagClass => "static/tagclass_0_0.csv"

/-- The maps of all labels; the relations need the first four. -/
structure AllIdMaps extends IdMaps where
  place : IdMap
  organisation : IdMap
  tag : IdMap
  tagClass : IdMap

def buildIdMaps (csvRoot : String → CsvFile) : Except BuildError AllIdMaps := do
  let person ← loadIdMap (csvRoot LabelId.person.path) "id"
  let post ← loadIdMap (csvRoot LabelId.post.path) "id"
  let comment ← loadIdMap (csvRoot LabelId.comment.path) "id"
  let forum ← loadIdMap (csvRoot LabelId.forum.path) "id"
  let place ← loadIdMap (csvRoot LabelId.place.path) "id"
  let organisation ← loadIdMap (csvRoot LabelId.organisation.path) "id"
  let tag ← loadIdMap (csvRoot LabelId.tag.path) "id"
  let tagClass ← loadIdMap (csvRoot LabelId.tagClass.path) "id"
  .ok { person, post, comment, forum, place, organisation, tag, tagClass }

/-! ## Columns -/

/-- `value.parse::<i64>()`. -/
def parseText (value : String) : Except BuildError Int :=
  match parseI64Text value.toList with
  | some v => .ok v
  | none => .error (.parseInt value)

/-- A pass of `build_single_edges` that sets one column. -/
def buildSingleColumn (file : CsvFile) (srcMap dstMap : IdMap) (dstCol : String) :
    Except BuildError (List UInt32) :=
  scanCsv file
    (fun header record column => do
      let src ← srcMap.get (← parseI64 record (← idx header "id"))
      let dst ← dstMap.get (← parseI64 record (← idx header dstCol))
      .ok (column.set src.toNat dst)) (List.replicate srcMap.len u32Max)

structure PostColumns where
  postCreator : List UInt32
  postForum : List UInt32
  postPlace : List UInt32

def buildPostColumns (file : CsvFile) (maps : AllIdMaps) : Except BuildError PostColumns :=
  scanCsv file
    (fun header record columns => do
      let post ← maps.post.get (← parseI64 record (← idx header "id"))
      let creator ← maps.person.get (← parseI64 record (← idx header "creator"))
      let forum ← maps.forum.get (← parseI64 record (← idx header "Forum.id"))
      let place ← maps.place.get (← parseI64 record (← idx header "place"))
      .ok {
        postCreator := columns.postCreator.set post.toNat creator
        postForum := columns.postForum.set post.toNat forum
        postPlace := columns.postPlace.set post.toNat place })
    { postCreator := List.replicate maps.post.len u32Max
      postForum := List.replicate maps.post.len u32Max
      postPlace := List.replicate maps.post.len u32Max }

structure CommentColumns where
  commentCreator : List UInt32
  commentPlace : List UInt32
  parentKind : List UInt8
  parentId : List UInt32

def buildCommentColumns (file : CsvFile) (maps : AllIdMaps) : Except BuildError CommentColumns :=
  scanCsv file
    (fun header record columns => do
      let comment ← maps.comment.get (← parseI64 record (← idx header "id"))
      let creator ← maps.person.get (← parseI64 record (← idx header "creator"))
      let place ← maps.place.get (← parseI64 record (← idx header "place"))
      let replyPost := record.getD (← idx header "replyOfPost") ""
      let replyComment := record.getD (← idx header "replyOfComment") ""
      let columns := { columns with
        commentCreator := columns.commentCreator.set comment.toNat creator
        commentPlace := columns.commentPlace.set comment.toNat place }
      if replyPost ≠ "" then do
        let post ← maps.post.get (← parseText replyPost)
        .ok { columns with
          parentKind := columns.parentKind.set comment.toNat 0
          parentId := columns.parentId.set comment.toNat post }
      else if replyComment ≠ "" then do
        let parent ← maps.comment.get (← parseText replyComment)
        .ok { columns with
          parentKind := columns.parentKind.set comment.toNat 1
          parentId := columns.parentId.set comment.toNat parent }
      else .ok columns)
    { commentCreator := List.replicate maps.comment.len u32Max
      commentPlace := List.replicate maps.comment.len u32Max
      parentKind := List.replicate maps.comment.len u8Max
      parentId := List.replicate maps.comment.len u32Max }

/-- The columns of `build_single_edges`. -/
structure SingleColumns extends PostColumns, CommentColumns where
  personPlace : List UInt32
  forumModerator : List UInt32
  organisationPlace : List UInt32
  tagTagclass : List UInt32

def buildSingleEdges (csvRoot : String → CsvFile) (maps : AllIdMaps) :
    Except BuildError SingleColumns := do
  let personPlace ←
    buildSingleColumn (csvRoot LabelId.person.path) maps.person maps.place "place"
  let post ← buildPostColumns (csvRoot LabelId.post.path) maps
  let comment ← buildCommentColumns (csvRoot LabelId.comment.path) maps
  let forumModerator ←
    buildSingleColumn (csvRoot LabelId.forum.path) maps.forum maps.person "moderator"
  let organisationPlace ←
    buildSingleColumn (csvRoot LabelId.organisation.path) maps.organisation maps.place "place"
  let tagTagclass ←
    buildSingleColumn (csvRoot LabelId.tag.path) maps.tag maps.tagClass "hasType"
  .ok { post, comment with personPlace, forumModerator, organisationPlace, tagTagclass }

/-! ## Derived indexes -/

/-- What the pass over the posts collects. -/
structure PostEdges where
  personPosts : List Edge
  forumPosts : List Edge

def collectPosts (file : CsvFile) (maps : AllIdMaps) : Except BuildError PostEdges :=
  scanCsv file
    (fun header record edges => do
      let post ← maps.post.get (← parseI64 record (← idx header "id"))
      let creator ← maps.person.get (← parseI64 record (← idx header "creator"))
      let forum ← maps.forum.get (← parseI64 record (← idx header "Forum.id"))
      .ok {
        personPosts := edges.personPosts ++ [(creator, post)]
        forumPosts := edges.forumPosts ++ [(forum, post)] })
    { personPosts := [], forumPosts := [] }

/-- What the pass over the comments collects; the two columns are those the roots are found with. -/
structure CommentEdges where
  personComments : List Edge
  postChildren : List Edge
  commentChildren : List Edge
  parentKind : List UInt8
  parentId : List UInt32

def collectComments (file : CsvFile) (maps : AllIdMaps) : Except BuildError CommentEdges :=
  scanCsv file
    (fun header record edges => do
      let comment ← maps.comment.get (← parseI64 record (← idx header "id"))
      let creator ← maps.person.get (← parseI64 record (← idx header "creator"))
      let edges := { edges with personComments := edges.personComments ++ [(creator, comment)] }
      let replyPost := record.getD (← idx header "replyOfPost") ""
      let replyComment := record.getD (← idx header "replyOfComment") ""
      if replyPost ≠ "" then do
        let post ← maps.post.get (← parseText replyPost)
        .ok { edges with
          parentKind := edges.parentKind.set comment.toNat 0
          parentId := edges.parentId.set comment.toNat post
          postChildren := edges.postChildren ++ [(post, comment)] }
      else if replyComment ≠ "" then do
        let parent ← maps.comment.get (← parseText replyComment)
        .ok { edges with
          parentKind := edges.parentKind.set comment.toNat 1
          parentId := edges.parentId.set comment.toNat parent
          commentChildren := edges.commentChildren ++ [(parent, comment)] }
      else .ok edges)
    { personComments := [], postChildren := [], commentChildren := []
      parentKind := List.replicate maps.comment.len u8Max
      parentId := List.replicate maps.comment.len u32Max }

structure DerivedIndexes where
  personCreatedPost : CsrFiles
  forumContainerOfPost : CsrFiles
  personCreatedComment : CsrFiles
  postChildComments : CsrFiles
  commentChildComments : CsrFiles

def buildDerivedIndexes (csvRoot : String → CsvFile) (maps : AllIdMaps) :
    Except BuildError DerivedIndexes := do
  let posts ← collectPosts (csvRoot LabelId.post.path) maps
  let comments ← collectComments (csvRoot LabelId.comment.path) maps
  .ok {
    personCreatedPost := (writeCsr maps.person.len posts.personPosts).1
    forumContainerOfPost := (writeCsr maps.forum.len posts.forumPosts).1
    personCreatedComment := (writeCsr maps.person.len comments.personComments).1
    postChildComments := (writeCsr maps.post.len comments.postChildren).1
    commentChildComments := (writeCsr maps.comment.len comments.commentChildren).1 }

/-! ## The whole graph -/

structure BuiltGraph where
  maps : AllIdMaps
  columns : SingleColumns
  relations : MultiEdge → Bidirectional
  derived : DerivedIndexes

def buildFromSnb (csvRoot : String → CsvFile) : Except BuildError BuiltGraph := do
  let maps ← buildIdMaps csvRoot
  let columns ← buildSingleEdges csvRoot maps
  let relations ← buildMultiEdges csvRoot maps.toIdMaps
  let derived ← buildDerivedIndexes csvRoot maps
  .ok { maps, columns, relations, derived }

inductive MessageId
  | post (id : UInt32)
  | comment (id : UInt32)
  deriving DecidableEq, Repr

/-- The value of a column, if it is set. -/
def singleValue (column : List UInt32) (idx : UInt32) : Option UInt32 := do
  let value ← column[idx.toNat]?
  if value ≠ u32Max then some value else none

def BuiltGraph.commentReplyOf (g : BuiltGraph) (comment : UInt32) : Option MessageId := do
  let kind ← g.columns.parentKind[comment.toNat]?
  let id ← singleValue g.columns.parentId comment
  if kind = 0 then some (.post id) else if kind = 1 then some (.comment id) else none

end Base

end LsmGraph
