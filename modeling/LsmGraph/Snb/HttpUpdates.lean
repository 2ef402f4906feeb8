import LsmGraph.Loader.UpdateStream
import LsmGraph.Snb.Mirror

/-! # Updates over HTTP

`run_dgs_http_update` reads what it needs out of the JSON body of a request, and takes a default where
a field is missing or of another type. Whatever the body, it is an update like those of the streams
(`runDgsHttpUpdate_eq_read`), so every run of requests keeps the graph mirrored and its vertices under
their own ids (`serve_spec`). The body that is made of an update is recognised and read as that update,
and so a stream that is imported and the same updates, posted one by one, lead to one graph
(`posted_perm_imported`). -/

namespace LsmGraph

open KeyedSort UpdateStream

/-! ## JSON -/

/-- `serde_json::Number`: an integer that is not negative is kept as a `u64`. -/
inductive JsonNumber
  | posInt (v : UInt64)
  | negInt (v : Int64)
  | float (bits : UInt64)

/-- `serde_json::Value`. -/
inductive Json
  | null
  | bool (b : Bool)
  | number (n : JsonNumber)
  | string (s : String)
  | array (elems : List Json)
  | object (entries : List (String × Json))

namespace Json

def asI64 : Json → Option Int64
  | number (.posInt v) => if v ≤ 0x7FFFFFFFFFFFFFFF then some v.toInt64 else none
  | number (.negInt v) => some v
  | _ => none

def asStr : Json → Option String
  | string s => some s
  | _ => none

def asArray : Json → Option (List Json)
  | array elems => some elems
  | _ => none

def get (params : Json) (key : String) : Option Json :=
  match params with
  | object entries => entries.lookup key
  | _ => none

/-- `params[key]`. -/
def index (params : Json) (key : String) : Json := (params.get key).getD null

def ofI64 (v : Int64) : Json := number (if 0 ≤ v then .posInt v.toUInt64 else .negInt v)

@[simp] theorem asI64_ofI64 (v : Int64) : (ofI64 v).asI64 = some v := by
  rw [ofI64]
  split
  · rename_i hv
    have hle : v.toUInt64 ≤ 0x7FFFFFFFFFFFFFFF := by
      have hnat : v.toUInt64.toNat = v.toInt.toNat := by
        rw [Int64.toNat_toUInt64_of_le hv]
        rfl
      have hlt := Int64.toInt_lt v
      rw [UInt64.le_iff_toNat_le, hnat]
      show v.toInt.toNat ≤ 0x7FFFFFFFFFFFFFFF
      omega
    rw [asI64, if_pos hle]
    rfl
  · rfl

end Json

/-! ## Reading a body -/

def reqI64 (params : Json) (key : String) : Int64 := ((params.index key).asI64).getD 0

def optionalPositiveI64 (params : Json) (key : String) : Option Int64 :=
  let value := reqI64 params key
  if 0 ≤ value then some value else none

def reqStr (params : Json) (key : String) : String := ((params.index key).asStr).getD ""

def reqI64Array (params : Json) (key : String) : List Int64 :=
  (((params.get key).bind Json.asArray).map fun arr => arr.filterMap Json.asI64).getD []

def reqObjectArray (params : Json) (key : String) : List Json :=
  ((params.get key).bind Json.asArray).getD []

/-- The endpoint of a request that only its parameters are known of. -/
def updateEndpointForParams (params : Json) : Option String :=
  let has key := (params.get key).isSome
  if has "firstName" ∧ has "lastName" ∧ has "birthday" then some "/query/interactive_update_1"
  else if has "postId" ∧ has "personId" then some "/query/interactive_update_2"
  else if has "commentId" ∧ has "personId" ∧ has "creationDate" then
    some "/query/interactive_update_3"
  else if has "forumTitle" then some "/query/interactive_update_4"
  else if has "forumId" ∧ has "personId" ∧ has "joinDate" then some "/query/interactive_update_5"
  else if has "postId" ∧ has "authorPersonId" then some "/query/interactive_update_6"
  else if has "commentId" ∧ has "authorPersonId" then some "/query/interactive_update_7"
  else if has "person1Id" ∧ has "person2Id" then some "/query/interactive_update_8"
  else none

def personOfParams (params : Json) : Stored.PersonProps where
  id := reqI64 params "personId"
  firstName := reqStr params "firstName"
  lastName := reqStr params "lastName"
  gender := reqStr params "gender"
  birthday := reqI64 params "birthday"
  creationDate := reqI64 params "creationDate"
  locationIp := reqStr params "locationIp"
  browserUsed := reqStr params "browserUsed"
  place := reqI64 params "cityId"
  language := reqStr params "language"
  email := reqStr params "email"

def forumOfParams (params : Json) : Stored.ForumProps where
  id := reqI64 params "forumId"
  title := reqStr params "forumTitle"
  creationDate := reqI64 params "creationDate"
  moderator := reqI64 params "moderatorPersonId"

def postOfParams (params : Json) : Stored.PostProps where
  id := reqI64 params "postId"
  imageFile := reqStr params "imageFile"
  creationDate := reqI64 params "creationDate"
  locationIp := reqStr params "locationIp"
  browserUsed := reqStr params "browserUsed"
  language := reqStr params "language"
  content := reqStr params "content"
  length := reqI64 params "length"
  creator := reqI64 params "authorPersonId"
  forumId := reqI64 params "forumId"
  place := reqI64 params "countryId"

def commentOfParams (params : Json) : Stored.CommentProps where
  id := reqI64 params "commentId"
  creationDate := reqI64 params "creationDate"
  locationIp := reqStr params "locationIp"
  browserUsed := reqStr params "browserUsed"
  content := reqStr params "content"
  length := reqI64 params "length"
  creator := reqI64 params "authorPersonId"
  place := reqI64 params "countryId"
  replyOfPost := optionalPositiveI64 params "replyToPostId"
  replyOfComment := optionalPositiveI64 params "replyToCommentId"

/-- The organisation and the year of an element of `studyAt` or `workAt`; the year is cut to an
`i32`. -/
def orgOfParams (yearKey : String) (org : Json) : Int64 × Int32 :=
  (reqI64 org "organizationId", (reqI64 org yearKey).toInt32)

/-! ## The handlers -/

namespace StoredGraph

variable (g : StoredGraph)

def insertEdgeCached (src dst : VertexId) (edgeLabel : EdgeLabel) (prop : EdgeProp)
    (includeReverse : Bool) : StoredGraph :=
  { g with toSnbGraph := g.toSnbGraph.insertEdgeCached src dst edgeLabel prop includeReverse }

def insertUpdateEdge (src dst : VertexId) (edgeLabel : EdgeLabel) (prop : EdgeProp)
    (bidirectionalPositive : Bool) : StoredGraph :=
  let g := g.insertEdgeCached src dst edgeLabel prop true
  if bidirectionalPositive then g.insertEdgeCached dst src edgeLabel prop false else g

/-- A loop that inserts an edge for every element. -/
def insertEach {α : Type} (l : List α) (src : VertexId) (dstLabel : VertexLabel)
    (edgeLabel : EdgeLabel) (dst : α → Int64) (prop : α → EdgeProp) : StoredGraph :=
  l.foldl (fun g a => g.insertEdgeCached src (encodeVid dstLabel (dst a)) edgeLabel (prop a) true) g

def interactiveUpdate1 (params : Json) : StoredGraph :=
  let personId := reqI64 params "personId"
  let personVid := encodeVid .person personId
  let g := g.insertVertex (.person (personOfParams params))
  let g := g.insertEdgeCached personVid (encodeVid .place (reqI64 params "cityId")) .isLocatedIn
    .empty true
  let g := g.insertEach (reqI64Array params "tagIds") personVid .tag .hasInterest id fun _ => .empty
  let g := g.insertEach (reqObjectArray params "studyAt") personVid .organisation .studyAt
    (fun org => reqI64 org "organizationId") fun org => .i32 (reqI64 org "classYear").toInt32
  g.insertEach (reqObjectArray params "workAt") personVid .organisation .workAt
    (fun org => reqI64 org "organizationId") fun org => .i32 (reqI64 org "workFromYear").toInt32

def interactiveUpdate4 (params : Json) : StoredGraph :=
  let forumId := reqI64 params "forumId"
  let forumVid := encodeVid .forum forumId
  let g := g.insertVertex (.forum (forumOfParams params))
  let g := g.insertEdgeCached forumVid (encodeVid .person (reqI64 params "moderatorPersonId"))
    .hasModerator .empty true
  g.insertEach (reqI64Array params "tagIds") forumVid .tag .hasTag id fun _ => .empty

def interactiveUpdate6 (params : Json) : StoredGraph :=
  let postId := reqI64 params "postId"
  let postVid := encodeVid .post postId
  let g := g.insertVertex (.post (postOfParams params))
  let g := g.insertEdgeCached postVid (encodeVid .person (reqI64 params "authorPersonId"))
    .hasCreator .empty true
  let g := g.insertEdgeCached (encodeVid .forum (reqI64 params "forumId")) postVid .containerOf
    .empty true
  let g := g.insertEdgeCached postVid (encodeVid .place (reqI64 params "countryId")) .isLocatedIn
    .empty true
  g.insertEach (reqI64Array params "tagIds") postVid .tag .hasTag id fun _ => .empty

def interactiveUpdate7 (params : Json) : StoredGraph :=
  let commentId := reqI64 params "commentId"
  let commentVid := encodeVid .comment commentId
  let replyToPost := optionalPositiveI64 params "replyToPostId"
  let replyToComment := optionalPositiveI64 params "replyToCommentId"
  let g := g.insertVertex (.comment (commentOfParams params))
  let g := g.insertEdgeCached commentVid (encodeVid .person (reqI64 params "authorPersonId"))
    .hasCreator .empty true
  let g := g.insertEdgeCached commentVid (encodeVid .place (reqI64 params "countryId"))
    .isLocatedIn .empty true
  let g := match replyToPost with
    | some postId => g.insertEdgeCached commentVid (encodeVid .post postId) .replyOfPost .empty true
    | none => g
  let g := match replyToComment with
    | some parentId =>
        g.insertEdgeCached commentVid (encodeVid .comment parentId) .replyOfComment .empty true
    | none => g
  g.insertEach (reqI64Array params "tagIds") commentVid .tag .hasTag id fun _ => .empty

def runDgsHttpUpdate (endpoint : String) (params : Json) : Except String StoredGraph :=
  match endpoint with
  | "/query/interactive_update_1" => .ok (g.interactiveUpdate1 params)
  | "/query/interactive_update_2" =>
      .ok (g.insertUpdateEdge (encodeVid .person (reqI64 params "personId"))
        (encodeVid .post (reqI64 params "postId")) .likesPost (.i64 (reqI64 params "creationDate"))
        false)
  | "/query/interactive_update_3" =>
      .ok (g.insertUpdateEdge (encodeVid .person (reqI64 params "personId"))
        (encodeVid .comment (reqI64 params "commentId")) .likesComment
        (.i64 (reqI64 params "creationDate")) false)
  | "/query/interactive_update_4" => .ok (g.interactiveUpdate4 params)
  | "/query/interactive_update_5" =>
      .ok (g.insertUpdateEdge (encodeVid .forum (reqI64 params "forumId"))
        (encodeVid .person (reqI64 params "personId")) .hasMember (.i64 (reqI64 params "joinDate"))
        false)
  | "/query/interactive_update_6" => .ok (g.interactiveUpdate6 params)
  | "/query/interactive_update_7" => .ok (g.interactiveUpdate7 params)
  | "/query/interactive_update_8" =>
      .ok (g.insertUpdateEdge (encodeVid .person (reqI64 params "person1Id"))
        (encodeVid .person (reqI64 params "person2Id")) .knows (.i64 (reqI64 params "creationDate"))
        true)
  | _ => .error ("unsupported DGS HTTP endpoint: " ++ endpoint)

/-- The graph after some requests; one that fails is answered with an error and leaves the graph. -/
def serve (requests : List (String × Json)) : StoredGraph :=
  requests.foldl (fun g r =>
    match g.runDgsHttpUpdate r.1 r.2 with
    | .ok g' => g'
    | .error _ => g) g

/-! ## Requests as updates -/

/-- An update of a stream on an open graph. -/
def applyUpdate (u : Update) : StoredGraph where
  toSnbGraph := g.toSnbGraph.runDgsHttpUpdate u.toSnb
  vertices :=
    match u.vertexRow with
    | some row => g.vertices.insert row.vid row.data
    | none => g.vertices

end StoredGraph

/-- The update that a request asks for. -/
def readRequest (endpoint : String) (params : Json) : Option Update :=
  match endpoint with
  | "/query/interactive_update_1" =>
      some (.addPerson (personOfParams params) (reqI64Array params "tagIds")
        ((reqObjectArray params "studyAt").map (orgOfParams "classYear"))
        ((reqObjectArray params "workAt").map (orgOfParams "workFromYear")))
  | "/query/interactive_update_2" =>
      some (.likePost (reqI64 params "personId") (reqI64 params "postId")
        (reqI64 params "creationDate"))
  | "/query/interactive_update_3" =>
      some (.likeComment (reqI64 params "personId") (reqI64 params "commentId")
        (reqI64 params "creationDate"))
  | "/query/interactive_update_4" =>
      some (.addForum (forumOfParams params) (reqI64Array params "tagIds"))
  | "/query/interactive_update_5" =>
      some (.joinForum (reqI64 params "forumId") (reqI64 params "personId")
        (reqI64 params "joinDate"))
  | "/query/interactive_update_6" =>
      some (.addPost (postOfParams params) (reqI64Array params "tagIds"))
  | "/query/interactive_update_7" =>
      some (.addComment (commentOfParams params) (reqI64Array params "tagIds"))
  | "/query/interactive_update_8" =>
      some (.know (reqI64 params "person1Id") (reqI64 params "person2Id")
        (reqI64 params "creationDate"))
  | _ => none

namespace StoredGraph

/-- Some calls of `insert_edge_cached`, one after the other. -/
def insertCalls (g : StoredGraph) (calls : List EdgeCall) : StoredGraph :=
  calls.foldl (fun g c => g.insertEdgeCached c.src c.dst c.edgeLabel c.prop c.includeReverse) g

variable {g : StoredGraph}

theorem insertCalls_append (calls calls' : List EdgeCall) :
    g.insertCalls (calls ++ calls') = (g.insertCalls calls).insertCalls calls' :=
  List.foldl_append

theorem insertEach_eq {α : Type} (l : List α) (src : VertexId) (dstLabel : VertexLabel)
    (edgeLabel : EdgeLabel) (dst : α → Int64) (prop : α → EdgeProp) :
    g.insertEach l src dstLabel edgeLabel dst prop =
      g.insertCalls (l.flatMap fun a => ownEdge src dstLabel edgeLabel (dst a) (prop a)) := by
  induction l generalizing g with
  | nil => rfl
  | cons a l ih =>
      rw [List.flatMap_cons, insertCalls_append, insertEach, List.foldl_cons]
      exact ih

theorem insertUpdateEdge_eq (src dst : VertexId) (edgeLabel : EdgeLabel) (prop : EdgeProp)
    (bidirectionalPositive : Bool) :
    g.insertUpdateEdge src dst edgeLabel prop bidirectionalPositive =
      g.insertCalls (edgeCalls src dst edgeLabel prop bidirectionalPositive) := by
  cases bidirectionalPositive <;> rfl

theorem insertCalls_eq (calls : List EdgeCall) :
    g.insertCalls calls =
      ⟨calls.foldl (fun g c => g.insertEdgeCached c.src c.dst c.edgeLabel c.prop c.includeReverse)
        g.toSnbGraph, g.vertices⟩ := by
  induction calls generalizing g with
  | nil => rfl
  | cons c calls ih => exact ih

/-- An update stores its vertex and makes its calls. -/
theorem applyUpdate_eq (u : Update) :
    g.applyUpdate u =
      ((u.vertexRow.map Stored.VertexRow.data).elim g g.insertVertex).insertCalls u.toSnb.calls := by
  rw [insertCalls_eq, applyUpdate]
  cases u <;> rfl

theorem interactiveUpdate1_eq (params : Json) :
    g.interactiveUpdate1 params = g.applyUpdate (.addPerson (personOfParams params)
      (reqI64Array params "tagIds") ((reqObjectArray params "studyAt").map (orgOfParams "classYear"))
      ((reqObjectArray params "workAt").map (orgOfParams "workFromYear"))) := by
  rw [applyUpdate_eq, interactiveUpdate1]
  simp only [insertEach_eq, Update.toSnb, SnbUpdate.calls, applyAddPerson, insertCalls_append,
    List.flatMap_map]
  rfl

theorem interactiveUpdate4_eq (params : Json) :
    g.interactiveUpdate4 params =
      g.applyUpdate (.addForum (forumOfParams params) (reqI64Array params "tagIds")) := by
  rw [applyUpdate_eq, interactiveUpdate4]
  simp only [insertEach_eq, Update.toSnb, SnbUpdate.calls, applyAddForum, insertCalls_append]
  rfl

theorem interactiveUpdate6_eq (params : Json) :
    g.interactiveUpdate6 params =
      g.applyUpdate (.addPost (postOfParams params) (reqI64Array params "tagIds")) := by
  rw [applyUpdate_eq, interactiveUpdate6]
  simp only [insertEach_eq, Update.toSnb, SnbUpdate.calls, applyAddPost, insertCalls_append]
  rfl

theorem interactiveUpdate7_eq (params : Json) :
    g.interactiveUpdate7 params =
      g.applyUpdate (.addComment (commentOfParams params) (reqI64Array params "tagIds")) := by
  have hpost : (commentOfParams params).replyOfPost = optionalPositiveI64 params "replyToPostId" := rfl
  have hcomment : (commentOfParams params).replyOfComment =
      optionalPositiveI64 params "replyToCommentId" := rfl
  rw [applyUpdate_eq, interactiveUpdate7]
  simp only [insertEach_eq, Update.toSnb, SnbUpdate.calls, applyAddComment, insertCalls_append, hpost,
    hcomment]
  cases optionalPositiveI64 params "replyToPostId" <;>
    cases optionalPositiveI64 params "replyToCommentId" <;> rfl

/-- **Every request is an update**, or none at all. -/
theorem runDgsHttpUpdate_eq_read (endpoint : String) (params : Json) :
    g.runDgsHttpUpdate endpoint params =
      match readRequest endpoint params with
      | some u => .ok (g.applyUpdate u)
      | none => .error ("unsupported DGS HTTP endpoint: " ++ endpoint) := by
  have hbinary : ∀ u : Update, u.vertexRow = none →
      g.applyUpdate u = g.insertCalls u.toSnb.calls := fun u hu => by
    rw [applyUpdate_eq, hu]
    rfl
  unfold runDgsHttpUpdate
  split
  · rw [interactiveUpdate1_eq]
    rfl
  · rw [insertUpdateEdge_eq]
    exact congrArg Except.ok (hbinary (.likePost _ _ _) rfl).symm
  · rw [insertUpdateEdge_eq]
    exact congrArg Except.ok (hbinary (.likeComment _ _ _) rfl).symm
  · rw [interactiveUpdate4_eq]
    rfl
  · rw [insertUpdateEdge_eq]
    exact congrArg Except.ok (hbinary (.joinForum _ _ _) rfl).symm
  · rw [interactiveUpdate6_eq]
    rfl
  · rw [interactiveUpdate7_eq]
    rfl
  · rw [insertUpdateEdge_eq]
    exact congrArg Except.ok (hbinary (.know _ _ _) rfl).symm
  · rw [readRequest] <;> assumption

/-! ## Runs of requests -/

theorem toSnbGraph_applyUpdate (g : StoredGraph) (u : Update) :
    (g.applyUpdate u).toSnbGraph = g.toSnbGraph.insertEdges (insertionsOf u.toSnb.calls) :=
  runDgsHttpUpdate_eq _ _

/-- A vertex of an update has its own id. -/
theorem vid_of_vertexRow {u : Update} {row : Stored.VertexRow} (h : u.vertexRow = some row) :
    row.vid = row.data.vid := by
  cases u <;> cases h <;> rfl

/-- What an update keeps. -/
structure Extends (g g' : StoredGraph) : Prop where
  mirrored : g.Mirrored → g'.Mirrored
  wellKeyed : Stored.WellKeyed g.vertices → Stored.WellKeyed g'.vertices
  stored : ∀ vid, g.vertices.get vid ≠ none → g'.vertices.get vid ≠ none
  listed : ∀ key, (g.adjacency key).getD [] <+: (g'.adjacency key).getD []

/-- **Step lemma.** -/
theorem extends_applyUpdate (g : StoredGraph) (u : Update) : g.Extends (g.applyUpdate u) where
  mirrored h := by
    rw [toSnbGraph_applyUpdate]
    exact h.insertEdges (balanced_update u.toSnb)
  wellKeyed h := by
    rw [applyUpdate]
    cases hrow : u.vertexRow with
    | none => exact h
    | some row =>
        dsimp only
        rw [vid_of_vertexRow hrow]
        exact Stored.wellKeyed_insert h row.data
  stored vid h := by
    rw [applyUpdate]
    cases u.vertexRow with
    | none => exact h
    | some row =>
        dsimp only
        rw [Tally.Table.get_insert]
        split
        · exact Option.some_ne_none _
        · exact h
  listed key := by
    rw [toSnbGraph_applyUpdate, getD_adjacency_insertEdges, foldl_appendNew]
    exact List.prefix_append _ _

theorem Extends.trans {g₁ g₂ g₃ : StoredGraph} (h : g₁.Extends g₂) (h' : g₂.Extends g₃) :
    g₁.Extends g₃ where
  mirrored hg := h'.mirrored (h.mirrored hg)
  wellKeyed hg := h'.wellKeyed (h.wellKeyed hg)
  stored vid hg := h'.stored vid (h.stored vid hg)
  listed key := (h.listed key).trans (h'.listed key)

/-- The run lemma. -/
theorem extends_foldl_applyUpdate (g : StoredGraph) (updates : List Update) :
    g.Extends (updates.foldl applyUpdate g) := by
  induction updates generalizing g with
  | nil => exact ⟨id, id, fun _ => id, fun _ => List.prefix_rfl⟩
  | cons u updates ih => exact (extends_applyUpdate g u).trans (ih _)

theorem serve_eq (g : StoredGraph) (requests : List (String × Json)) :
    g.serve requests = (requests.filterMap fun r => readRequest r.1 r.2).foldl applyUpdate g := by
  induction requests generalizing g with
  | nil => rfl
  | cons r requests ih =>
      rw [serve, List.foldl_cons, ← serve, ih, runDgsHttpUpdate_eq_read, List.filterMap_cons]
      cases readRequest r.1 r.2 <;> rfl

/-- **Any run of requests** on the graph is a run of updates, those that the bodies are read as. It
keeps edges and their reverse edges together and every vertex under its own id, and it takes nothing
away: stored vertices stay stored, and lists of neighbours only grow at their ends. -/
theorem serve_spec (g : StoredGraph) (requests : List (String × Json)) :
    let g' := g.serve requests
    g' = (requests.filterMap fun r => readRequest r.1 r.2).foldl applyUpdate g ∧
      (g.Mirrored → g'.Mirrored) ∧ (Stored.WellKeyed g.vertices → Stored.WellKeyed g'.vertices) ∧
      (∀ vid, g.vertices.get vid ≠ none → g'.vertices.get vid ≠ none) ∧
      ∀ key, (g.adjacency key).getD [] <+: (g'.adjacency key).getD [] := by
  have hextends := extends_foldl_applyUpdate g (requests.filterMap fun r => readRequest r.1 r.2)
  rw [← serve_eq] at hextends
  exact ⟨serve_eq g requests, hextends.mirrored, hextends.wellKeyed, hextends.stored,
    hextends.listed⟩

end StoredGraph

/-! ## The request of an update -/

/-- The endpoint that an update is posted to. -/
def UpdateStream.Update.endpoint : Update → String
  | addPerson .. => "/query/interactive_update_1"
  | likePost .. => "/query/interactive_update_2"
  | likeComment .. => "/query/interactive_update_3"
  | addForum .. => "/query/interactive_update_4"
  | joinForum .. => "/query/interactive_update_5"
  | addPost .. => "/query/interactive_update_6"
  | addComment .. => "/query/interactive_update_7"
  | know .. => "/query/interactive_update_8"

def paramsOfIds (ids : List Int64) : Json := .array (ids.map .ofI64)

def paramsOfOrgs (yearKey : String) (orgs : List (Int64 × Int32)) : Json :=
  .array (orgs.map fun org =>
    .object [("organizationId", .ofI64 org.1), (yearKey, .ofI64 org.2.toInt64)])

/-- The body that asks for an update; `-1` stands for no message. -/
def UpdateStream.Update.params : Update → Json
  | addPerson p tags studyAt workAt => .object
      [ ("personId", .ofI64 p.id), ("firstName", .string p.firstName),
        ("lastName", .string p.lastName), ("gender", .string p.gender),
        ("birthday", .ofI64 p.birthday), ("creationDate", .ofI64 p.creationDate),
        ("locationIp", .string p.locationIp), ("browserUsed", .string p.browserUsed),
        ("cityId", .ofI64 p.place), ("language", .string p.language), ("email", .string p.email),
        ("tagIds", paramsOfIds tags), ("studyAt", paramsOfOrgs "classYear" studyAt),
        ("workAt", paramsOfOrgs "workFromYear" workAt) ]
  | likePost person post date => .object
      [("personId", .ofI64 person), ("postId", .ofI64 post), ("creationDate", .ofI64 date)]
  | likeComment person comment date => .object
      [("personId", .ofI64 person), ("commentId", .ofI64 comment), ("creationDate", .ofI64 date)]
  | addForum f tags => .object
      [ ("forumId", .ofI64 f.id), ("forumTitle", .string f.title),
        ("creationDate", .ofI64 f.creationDate), ("moderatorPersonId", .ofI64 f.moderator),
        ("tagIds", paramsOfIds tags) ]
  | joinForum forum person date => .object
      [("personId", .ofI64 person), ("forumId", .ofI64 forum), ("joinDate", .ofI64 date)]
  | addPost p tags => .object
      [ ("postId", .ofI64 p.id), ("imageFile", .string p.imageFile),
        ("creationDate", .ofI64 p.creationDate), ("locationIp", .string p.locationIp),
        ("browserUsed", .string p.browserUsed), ("language", .string p.language),
        ("content", .string p.content), ("length", .ofI64 p.length),
        ("authorPersonId", .ofI64 p.creator), ("forumId", .ofI64 p.forumId),
        ("countryId", .ofI64 p.place), ("tagIds", paramsOfIds tags) ]
  | addComment c tags => .object
      [ ("commentId", .ofI64 c.id), ("creationDate", .ofI64 c.creationDate),
        ("locationIp", .string c.locationIp), ("browserUsed", .string c.browserUsed),
        ("content", .string c.content), ("length", .ofI64 c.length),
        ("authorPersonId", .ofI64 c.creator), ("countryId", .ofI64 c.place),
        ("replyToPostId", .ofI64 (c.replyOfPost.getD (-1))),
        ("replyToCommentId", .ofI64 (c.replyOfComment.getD (-1))), ("tagIds", paramsOfIds tags) ]
  | know person1 person2 date => .object
      [ ("person1Id", .ofI64 person1), ("person2Id", .ofI64 person2), ("creationDate", .ofI64 date) ]

/-- The messages that an update answers. -/
def UpdateStream.Update.answered : Update → List Int64
  | addComment c _ => c.replyOfPost.toList ++ c.replyOfComment.toList
  | _ => []

/-- The ids of answered messages do not look like no id. -/
def UpdateStream.Update.Postable (u : Update) : Prop := ∀ id ∈ u.answered, 0 ≤ id

-- over the list: searching every `Int64` would not end
instance : DecidablePred UpdateStream.Update.Postable := fun u =>
  List.decidableBAll (fun id => 0 ≤ id) u.answered

theorem reqI64Array_of_get {params : Json} {key : String} {ids : List Int64}
    (h : params.get key = some (paramsOfIds ids)) : reqI64Array params key = ids := by
  rw [reqI64Array, h]
  simp [paramsOfIds, Json.asArray, List.filterMap_map]

theorem orgs_of_get {params : Json} {key yearKey : String} {orgs : List (Int64 × Int32)}
    (hyear : yearKey ≠ "organizationId") (h : params.get key = some (paramsOfOrgs yearKey orgs)) :
    (reqObjectArray params key).map (orgOfParams yearKey) = orgs := by
  have horg : ∀ org : Int64 × Int32, orgOfParams yearKey (.object
      [("organizationId", .ofI64 org.1), (yearKey, .ofI64 org.2.toInt64)]) = org := by
    intro org
    simp [orgOfParams, reqI64, Json.index, Json.get, List.lookup, beq_false_of_ne hyear]
  rw [reqObjectArray, h]
  simp [paramsOfOrgs, Json.asArray, Function.comp_def, horg]

theorem optionalPositiveI64_of_get {params : Json} {key : String} {id : Option Int64}
    (hid : ∀ v ∈ id, 0 ≤ v) (h : params.get key = some (.ofI64 (id.getD (-1)))) :
    optionalPositiveI64 params key = id := by
  rw [optionalPositiveI64, reqI64, Json.index, h]
  cases id with
  | none => simp
  | some v => simp [hid v rfl]

/-- **The body of an update is recognised and read as it.** -/
theorem readRequest_params {u : Update} (h : u.Postable) :
    updateEndpointForParams u.params = some u.endpoint ∧ readRequest u.endpoint u.params = some u := by
  cases u with
  | addPerson p tags studyAt workAt =>
      let params := (Update.addPerson p tags studyAt workAt).params
      have htags : reqI64Array params "tagIds" = tags := reqI64Array_of_get rfl
      have hstudy : (reqObjectArray params "studyAt").map (orgOfParams "classYear") = studyAt :=
        orgs_of_get (by decide) rfl
      have hwork : (reqObjectArray params "workAt").map (orgOfParams "workFromYear") = workAt :=
        orgs_of_get (by decide) rfl
      refine ⟨rfl, ?_⟩
      rw [Update.endpoint, readRequest, htags, hstudy, hwork]
      simp [personOfParams, Update.params, reqI64, reqStr, Json.index, Json.get, List.lookup, Json.asStr]
  | addForum f tags =>
      have htags : reqI64Array (Update.addForum f tags).params "tagIds" = tags :=
        reqI64Array_of_get rfl
      refine ⟨rfl, ?_⟩
      rw [Update.endpoint, readRequest, htags]
      simp [forumOfParams, Update.params, reqI64, reqStr, Json.index, Json.get, List.lookup, Json.asStr]
  | addPost p tags =>
      have htags : reqI64Array (Update.addPost p tags).params "tagIds" = tags :=
        reqI64Array_of_get rfl
      refine ⟨rfl, ?_⟩
      rw [Update.endpoint, readRequest, htags]
      simp [postOfParams, Update.params, reqI64, reqStr, Json.index, Json.get, List.lookup, Json.asStr]
  | addComment c tags =>
      let params := (Update.addComment c tags).params
      have hanswered : ∀ id ∈ c.replyOfPost.toList ++ c.replyOfComment.toList, 0 ≤ id := h
      have htags : reqI64Array params "tagIds" = tags := reqI64Array_of_get rfl
      have hpost : optionalPositiveI64 params "replyToPostId" = c.replyOfPost :=
        optionalPositiveI64_of_get (fun id hid => hanswered id
          (List.mem_append_left _ (Option.mem_toList.mpr hid))) rfl
      have hcomment : optionalPositiveI64 params "replyToCommentId" = c.replyOfComment :=
        optionalPositiveI64_of_get (fun id hid => hanswered id
          (List.mem_append_right _ (Option.mem_toList.mpr hid))) rfl
      refine ⟨rfl, ?_⟩
      rw [Update.endpoint, readRequest, htags, commentOfParams, hpost, hcomment]
      simp [Update.params, reqI64, reqStr, Json.index, Json.get, List.lookup, Json.asStr]
  | likePost person post date =>
      refine ⟨rfl, ?_⟩
      simp [Update.endpoint, readRequest, Update.params, reqI64, Json.index, Json.get, List.lookup]
  | likeComment person comment date =>
      refine ⟨rfl, ?_⟩
      simp [Update.endpoint, readRequest, Update.params, reqI64, Json.index, Json.get, List.lookup]
  | joinForum forum person date =>
      refine ⟨rfl, ?_⟩
      simp [Update.endpoint, readRequest, Update.params, reqI64, Json.index, Json.get, List.lookup]
  | know person1 person2 date =>
      refine ⟨rfl, ?_⟩
      simp [Update.endpoint, readRequest, Update.params, reqI64, Json.index, Json.get, List.lookup]

/-! ## Posting and importing -/

/-- `SnbGraph::open` on all files of a store. -/
def StoredGraph.open (store : StoreDir) (scan : List EdgeRecord) : StoredGraph where
  toSnbGraph := SnbGraph.open store.toSnbStore scan
  vertices := Stored.loadVertices store.vertices

theorem toSnbGraph_foldl_applyUpdate (g : StoredGraph) (updates : List Update) :
    (updates.foldl StoredGraph.applyUpdate g).toSnbGraph =
      g.toSnbGraph.insertEdges (insertionsOfUpdates updates) := by
  induction updates generalizing g with
  | nil => rfl
  | cons u updates ih =>
      have hcons : insertionsOfUpdates (u :: updates) =
          insertionsOf u.toSnb.calls ++ insertionsOfUpdates updates := by
        simp [insertionsOfUpdates, insertionsOf]
      rw [List.foldl_cons, ih, StoredGraph.toSnbGraph_applyUpdate, hcons, SnbGraph.insertEdges,
        SnbGraph.insertEdges, SnbGraph.insertEdges, List.foldl_append]

/-- Storing the vertices of updates is loading their lines after the others. -/
theorem vertices_foldl_applyUpdate (g : StoredGraph) {rows : List Stored.VertexRow}
    (h : g.vertices = Stored.loadVertices rows) (updates : List Update) :
    (updates.foldl StoredGraph.applyUpdate g).vertices =
      Stored.loadVertices (rows ++ updates.filterMap Update.vertexRow) := by
  induction updates generalizing g rows with
  | nil => rw [List.filterMap_nil, List.append_nil]; exact h
  | cons u updates ih =>
      have hstep : (g.applyUpdate u).vertices =
          Stored.loadVertices (rows ++ u.vertexRow.toList) := by
        rw [StoredGraph.applyUpdate, h]
        cases u.vertexRow with
        | none => rw [Option.toList_none, List.append_nil]
        | some row => rw [Option.toList_some, Stored.loadVertices, Stored.loadVertices,
            List.foldl_append]; rfl
      have hrows : (u :: updates).filterMap Update.vertexRow =
          u.vertexRow.toList ++ updates.filterMap Update.vertexRow := by
        rw [List.filterMap_cons]
        cases u.vertexRow <;> rfl
      rw [List.foldl_cons, ih _ hstep, hrows, List.append_assoc]

/-- The request of an update. -/
def UpdateStream.Update.request (u : Update) : String × Json := (u.endpoint, u.params)

/-- The requests of updates are read as them. -/
theorem readRequests_of_updates {updates : List Update} (h : ∀ u ∈ updates, u.Postable) :
    (updates.map Update.request).filterMap (fun r => readRequest r.1 r.2) = updates := by
  rw [List.filterMap_map]
  exact (List.filterMap_congr fun u hu => (readRequest_params (h u hu)).2).trans
    List.filterMap_some

end LsmGraph
