import Mathlib
import LsmGraph.Library.ErrorState
import LsmGraph.Loader.Topology
import LsmGraph.Loader.UpdateLine

/-! # Importing the update streams

`import_snb_updates` works through the lines of all streams and writes while it reads: a line is
parsed, its vertex appended to `snb_vertices.jsonl`, its edges inserted into the engine and recorded
in the builder, and so on to the next line. `importSnbUpdates_eq` says what that comes to: it is as
if all lines up to the first malformed one were read first (`readLines`), and the updates in them
applied after that. -/

namespace LsmGraph

open ErrorState Separated

namespace UpdateStream

/-! ## The import -/

/-- What the import writes to: the two files it appends to, the builder, the edges it gave the
engine, whose clock they advance, and the counters. -/
structure ImportState where
  vertices : List Stored.VertexRow
  edgeProps : List EdgePropRow
  adjacency : AdjacencyBuilder
  inserted : List EdgeInsertion
  clock : Timestamp
  stats : ImportStats

abbrev ImportM := EStateM ReadFailure ImportState

/-- `?` on a number that was parsed. -/
def orFail {α : Type} : Except ReadFailure α → ImportM α
  | .ok a => pure a
  | .error e => throw e

def writeVertex (vid : VertexId) (data : Stored.VertexData) : ImportM Unit :=
  modify fun s => { s with vertices := s.vertices ++ [⟨vid, data⟩] }

/-- `engine.insert_edge`, `record_edge` and `write_edge_prop`. -/
def insertEdge (e : EdgeInsertion) : ImportM Unit :=
  modify fun s =>
    { s with
      inserted := s.inserted ++ [e]
      clock := s.clock + 1
      adjacency := s.adjacency.recordEdge e.src e.edgeType e.dst (s.clock + 1)
      edgeProps := SnbStore.writeEdgeProp s.edgeProps e }

def insertForwardReverse (src dst : VertexId) (edgeLabel : EdgeLabel) (prop : EdgeProp)
    (includeReverse : Bool) : ImportM Unit := do
  let label := edgeLabel.asI32
  insertEdge ⟨src, dst, label, prop⟩
  if includeReverse then insertEdge ⟨dst, src, -label, prop⟩

def addDirected (n : Nat) : ImportM Unit :=
  modify fun s => { s with stats.directedEdges := s.stats.directedEdges + n }

def addInputRow : ImportM Unit :=
  modify fun s => { s with stats.inputRows := s.stats.inputRows + 1 }

/-- `insert_forward_reverse` and the count after it. -/
def insertCounted (src dst : VertexId) (edgeLabel : EdgeLabel) (prop : EdgeProp) : ImportM Unit := do
  insertForwardReverse src dst edgeLabel prop true
  addDirected 2

def applyAddPerson (p : List (List Char)) : ImportM Unit := do
  let person ← orFail (readPerson p)
  let vid := encodeVid .person person.id
  writeVertex vid (.person person)
  insertCounted vid (encodeVid .place (← orFail (parseFieldI64 p 11))) .isLocatedIn .empty
  (parseIdList (field p 14)).forM fun tag =>
    insertCounted vid (encodeVid .tag tag) .hasInterest .empty
  (parseOrgYearList (field p 15)).forM fun (org, year) =>
    insertCounted vid (encodeVid .organisation org) .studyAt (.i32 year)
  (parseOrgYearList (field p 16)).forM fun (org, year) =>
    insertCounted vid (encodeVid .organisation org) .workAt (.i32 year)

def applyAddForum (p : List (List Char)) : ImportM Unit := do
  let forum ← orFail (readForum p)
  let vid := encodeVid .forum forum.id
  writeVertex vid (.forum forum)
  insertCounted vid (encodeVid .person (← orFail (parseFieldI64 p 6))) .hasModerator .empty
  (parseIdList (field p 7)).forM fun tag => insertCounted vid (encodeVid .tag tag) .hasTag .empty

def applyAddPost (p : List (List Char)) : ImportM Unit := do
  let post ← orFail (readPost p)
  let vid := encodeVid .post post.id
  writeVertex vid (.post post)
  insertCounted vid (encodeVid .person (← orFail (parseFieldI64 p 11))) .hasCreator .empty
  insertCounted (encodeVid .forum (← orFail (parseFieldI64 p 12))) vid .containerOf .empty
  insertCounted vid (encodeVid .place (← orFail (parseFieldI64 p 13))) .isLocatedIn .empty
  (parseIdList (field p 14)).forM fun tag => insertCounted vid (encodeVid .tag tag) .hasTag .empty

def applyAddComment (p : List (List Char)) : ImportM Unit := do
  let comment ← orFail (readComment p)
  let vid := encodeVid .comment comment.id
  writeVertex vid (.comment comment)
  insertCounted vid (encodeVid .person (← orFail (parseFieldI64 p 9))) .hasCreator .empty
  insertCounted vid (encodeVid .place (← orFail (parseFieldI64 p 10))) .isLocatedIn .empty
  comment.replyOfPost.toList.forM fun post =>
    insertCounted vid (encodeVid .post post) .replyOfPost .empty
  comment.replyOfComment.toList.forM fun comment =>
    insertCounted vid (encodeVid .comment comment) .replyOfComment .empty
  (parseIdList (field p 13)).forM fun tag => insertCounted vid (encodeVid .tag tag) .hasTag .empty

def applyBinaryUpdateEdge (p : List (List Char)) (srcLabel dstLabel : VertexLabel)
    (edgeLabel : EdgeLabel) (bidirectionalPositive : Bool) : ImportM Unit := do
  let src := encodeVid srcLabel (← orFail (parseFieldI64 p 3))
  let dst := encodeVid dstLabel (← orFail (parseFieldI64 p 4))
  let prop := EdgeProp.i64 (← orFail (parseFieldI64 p 5))
  insertForwardReverse src dst edgeLabel prop true
  if bidirectionalPositive then insertForwardReverse dst src edgeLabel prop false

/-- The operation of a line with at least three columns. -/
def applyOperation (parts : List (List Char)) : ImportM Unit :=
  match String.ofList (field parts 2) with
  | "1" => applyAddPerson parts
  | "2" => do
      applyBinaryUpdateEdge parts .person .post .likesPost false
      addDirected 2
  | "3" => do
      applyBinaryUpdateEdge parts .person .comment .likesComment false
      addDirected 2
  | "4" => applyAddForum parts
  | "5" => do
      applyBinaryUpdateEdge parts .forum .person .hasMember false
      addDirected 2
  | "6" => applyAddPost parts
  | "7" => applyAddComment parts
  | "8" => do
      applyBinaryUpdateEdge parts .person .person .knows true
      addDirected 3
  | _ => pure ()

/-- The body of the loop over the lines; reading a line may fail. -/
def importLine (line : Except ReadFailure (List Char)) : ImportM Unit := do
  let line ← orFail line
  if trim line = [] then pure ()
  else do
    let parts := line.splitOn '|'
    if parts.length < 3 then pure ()
    else do
      addInputRow
      applyOperation parts

/-- A file of the directory, with what its reader yields; one that cannot be opened yields an error
first. -/
structure StreamFile where
  name : String
  lines : List (Except ReadFailure (List Char))

def importUpdateStreamFile (file : StreamFile) : ImportM Unit := file.lines.forM importLine

def isUpdateStream (name : String) : Bool :=
  let name := name.toList
  "updateStream_0_".toList.isPrefixOf name &&
    ("_person.csv".toList.isSuffixOf name || "_forum.csv".toList.isSuffixOf name)

/-- `update_stream_files`, sorted. -/
def updateStreamFiles (dir : List StreamFile) : List StreamFile :=
  KeyedSort.sortByKey StreamFile.name (dir.filter fun file => isUpdateStream file.name)

/-- A store with the lines of `snb_vertices.jsonl`. -/
structure StoreDir extends SnbStore where
  vertices : List Stored.VertexRow

/-- What an import leaves behind. -/
structure ImportOutcome where
  result : Except ReadFailure ImportStats
  store : StoreDir
  inserted : List EdgeInsertion

/-- `import_snb_updates`, when the engine's clock stands at `clock`. The cache is written at the end;
the two other files grow line by line. -/
def importSnbUpdates (dir : List StreamFile) (store : StoreDir) (clock : Timestamp) :
    ImportOutcome :=
  let start : ImportState :=
    { vertices := store.vertices, edgeProps := store.edgeProps
      adjacency := SnbStore.startBuilder store.cache clock, inserted := [], clock, stats := .zero }
  match (updateStreamFiles dir).forM importUpdateStreamFile start with
  | .ok _ s =>
      { result := .ok s.stats
        store := { vertices := s.vertices, edgeProps := s.edgeProps, cache := some s.adjacency.build }
        inserted := s.inserted }
  | .error e s =>
      { result := .error e
        store := { vertices := s.vertices, edgeProps := s.edgeProps, cache := store.cache }
        inserted := s.inserted }

/-! ## What the lines say -/

/-- The updates in the lines up to the first malformed one, the number of rows among these, and the
failure that ends the reading. -/
structure Reading where
  updates : List Update
  rows : Nat
  failure : Option ReadFailure
  deriving DecidableEq

/-- Read lines until one is malformed. A malformed line is a row, unless it could not be read at all. -/
def readLines : List (Except ReadFailure (List Char)) → Reading
  | [] => ⟨[], 0, none⟩
  | .error e :: _ => ⟨[], 0, some e⟩
  | .ok line :: lines =>
      match readLine line with
      | .error e => ⟨[], 1, some e⟩
      | .ok .uncounted => readLines lines
      | .ok (.row update) =>
          let rest := readLines lines
          ⟨update.toList ++ rest.updates, rest.rows + 1, rest.failure⟩

/-! ## Effects -/

/-- What a part of the import adds: lines of vertices, edges, rows, and what it adds to the count of
directed edges. -/
structure Effects where
  vertices : List Stored.VertexRow
  edges : List EdgeInsertion
  rows : Nat
  directed : Nat

namespace Effects

def none : Effects := ⟨[], [], 0, 0⟩

/-- One part after the other. -/
def append (e f : Effects) : Effects where
  vertices := e.vertices ++ f.vertices
  edges := e.edges ++ f.edges
  rows := e.rows + f.rows
  directed := e.directed + f.directed

theorem none_append (e : Effects) : none.append e = e := by
  simp [append, none]

theorem append_none (e : Effects) : e.append none = e := by
  simp [append, none]

theorem append_assoc (e f g : Effects) : (e.append f).append g = e.append (f.append g) := by
  simp [append, Nat.add_assoc]

/-- The effects of the parts of a list. -/
def sum {α : Type} (f : α → Effects) (l : List α) : Effects where
  vertices := l.flatMap fun a => (f a).vertices
  edges := l.flatMap fun a => (f a).edges
  rows := (l.map fun a => (f a).rows).sum
  directed := (l.map fun a => (f a).directed).sum

end Effects

def ImportState.after (s : ImportState) (e : Effects) : ImportState where
  vertices := s.vertices ++ e.vertices
  edgeProps := e.edges.foldl SnbStore.writeEdgeProp s.edgeProps
  adjacency := s.adjacency.recordEdges (s.clock + 1) e.edges
  inserted := s.inserted ++ e.edges
  clock := s.clock + UInt64.ofNat e.edges.length
  stats := ⟨s.stats.inputRows + e.rows, s.stats.directedEdges + e.directed⟩

theorem recordEdges_append (b : AdjacencyBuilder) (ts : Timestamp) (es fs : List EdgeInsertion) :
    b.recordEdges ts (es ++ fs) =
      (b.recordEdges ts es).recordEdges (ts + UInt64.ofNat es.length) fs := by
  induction es generalizing b ts with
  | nil => simp [AdjacencyBuilder.recordEdges]
  | cons e es ih =>
      rw [List.cons_append, AdjacencyBuilder.recordEdges, ih, AdjacencyBuilder.recordEdges,
        List.length_cons, Nat.add_comm es.length, UInt64.ofNat_add, ← UInt64.add_assoc]
      rfl

theorem ImportState.after_none (s : ImportState) : s.after .none = s := by
  simp [after, Effects.none, AdjacencyBuilder.recordEdges]

/-- Effects one after the other. -/
theorem ImportState.after_append (s : ImportState) (e f : Effects) :
    s.after (e.append f) = (s.after e).after f := by
  simp only [after, Effects.append, List.append_assoc, List.foldl_append, recordEdges_append,
    List.length_append, UInt64.ofNat_add, Nat.add_assoc, UInt64.add_assoc]
  rw [UInt64.add_comm 1]

/-- A part of the import that succeeds from every state, with these effects. -/
def Runs (x : ImportM Unit) (e : Effects) : Prop := ∀ s, x s = .ok () (s.after e)

/-- A part that fails from every state, with no effect. -/
def Fails (x : ImportM Unit) (err : ReadFailure) : Prop := ∀ s, x s = .error err s

theorem Runs.pure : Runs (pure ()) .none := fun s => by
  rw [ImportState.after_none]
  rfl

theorem Runs.bind {x y : ImportM Unit} {e f : Effects} (hx : Runs x e) (hy : Runs y f) :
    Runs (do x; y) (e.append f) := by
  intro s
  rw [bind_of_ok (hx s), hy, ImportState.after_append]

theorem Runs.forM {α : Type} {f : α → ImportM Unit} {e : α → Effects} (h : ∀ a, Runs (f a) (e a))
    (l : List α) : Runs (l.forM f) (Effects.sum e l) := by
  induction l with
  | nil => exact Runs.pure
  | cons a l ih => exact (h a).bind ih

theorem orFail_bind_ok {α : Type} {x : Except ReadFailure α} {a : α} (h : x = .ok a)
    (f : α → ImportM Unit) : (orFail x >>= f) = f a := by
  rw [h]
  rfl

theorem fails_orFail_bind {α : Type} {x : Except ReadFailure α} {e : ReadFailure} (h : x = .error e)
    (f : α → ImportM Unit) : Fails (orFail x >>= f) e := by
  rw [h]
  exact fun _ => rfl

/-! ## One operation -/

/-- The effects of a line of the vertex file. -/
def Effects.ofVertex (row : Stored.VertexRow) : Effects := ⟨[row], [], 0, 0⟩

/-- The effects of some calls, with their edges counted. -/
def Effects.ofCalls (calls : List EdgeCall) : Effects :=
  ⟨[], insertionsOf calls, 0, (insertionsOf calls).length⟩

theorem Effects.ofCalls_append (cs ds : List EdgeCall) :
    ofCalls (cs ++ ds) = (ofCalls cs).append (ofCalls ds) := by
  simp [ofCalls, append, insertionsOf]

theorem Effects.ofCalls_flatMap {α : Type} (f : α → List EdgeCall) (l : List α) :
    ofCalls (l.flatMap f) = sum (fun a => ofCalls (f a)) l := by
  induction l with
  | nil => rfl
  | cons a l ih =>
      rw [List.flatMap_cons, ofCalls_append, ih]
      simp [sum, append]

theorem runs_writeVertex (vid : VertexId) (data : Stored.VertexData) :
    Runs (writeVertex vid data) (.ofVertex ⟨vid, data⟩) := fun s => by
  simp [writeVertex, Effects.ofVertex, ImportState.after, AdjacencyBuilder.recordEdges, modify,
    modifyGet, MonadStateOf.modifyGet, EStateM.modifyGet]

theorem runs_insertEdge (e : EdgeInsertion) : Runs (insertEdge e) ⟨[], [e], 0, 0⟩ := fun s => by
  simp [insertEdge, ImportState.after, AdjacencyBuilder.recordEdges, modify, modifyGet,
    MonadStateOf.modifyGet, EStateM.modifyGet]

theorem runs_addDirected (n : Nat) : Runs (addDirected n) ⟨[], [], 0, n⟩ := fun s => by
  simp [addDirected, ImportState.after, AdjacencyBuilder.recordEdges, modify, modifyGet,
    MonadStateOf.modifyGet, EStateM.modifyGet]

theorem runs_addInputRow : Runs addInputRow ⟨[], [], 1, 0⟩ := fun s => by
  simp [addInputRow, ImportState.after, AdjacencyBuilder.recordEdges, modify, modifyGet,
    MonadStateOf.modifyGet, EStateM.modifyGet]

theorem runs_insertForwardReverse (src dst : VertexId) (edgeLabel : EdgeLabel) (prop : EdgeProp)
    (includeReverse : Bool) :
    Runs (insertForwardReverse src dst edgeLabel prop includeReverse)
      ⟨[], EdgeCall.insertions ⟨src, dst, edgeLabel, prop, includeReverse⟩, 0, 0⟩ := by
  cases includeReverse with
  | true => exact (runs_insertEdge _).bind (runs_insertEdge _)
  | false => exact (runs_insertEdge _).bind Runs.pure

theorem runs_insertCounted (src dst : VertexId) (edgeLabel : EdgeLabel) (prop : EdgeProp) :
    Runs (insertCounted src dst edgeLabel prop) (.ofCalls (edgeCalls src dst edgeLabel prop false)) :=
  (runs_insertForwardReverse src dst edgeLabel prop true).bind (runs_addDirected 2)

theorem runs_forM_insertCounted {α : Type} (l : List α) (src dst : α → VertexId)
    (edgeLabel : EdgeLabel) (prop : α → EdgeProp) :
    Runs (l.forM fun a => insertCounted (src a) (dst a) edgeLabel (prop a))
      (.ofCalls (l.flatMap fun a => edgeCalls (src a) (dst a) edgeLabel (prop a) false)) := by
  rw [Effects.ofCalls_flatMap]
  exact Runs.forM (fun a => runs_insertCounted _ _ _ _) l

/-- The effects of an update. -/
def Update.effects (u : Update) : Effects :=
  let es := insertionsOf u.toSnb.calls
  ⟨u.vertexRow.toList, es, 0, es.length⟩

theorem Effects.ofVertex_append_ofCalls (row : Stored.VertexRow) (calls : List EdgeCall) :
    (ofVertex row).append (ofCalls calls) =
      ⟨[row], insertionsOf calls, 0, (insertionsOf calls).length⟩ := by
  simp [ofVertex, ofCalls, append]

/-- The place of a person is parsed a second time, after the vertex is written; it cannot fail
then. -/
theorem parse_of_readPerson {p : List (List Char)} {person : Stored.PersonProps}
    (h : readPerson p = .ok person) : parseFieldI64 p 11 = .ok person.place := by
  simp only [readPerson, Base.bind_eq_ok, Except.ok.injEq] at h
  obtain ⟨id, -, birthday, -, date, -, place, hplace, rfl⟩ := h
  exact hplace

theorem runs_applyAddPerson {p : List (List Char)} {person : Stored.PersonProps}
    (h : readPerson p = .ok person) :
    Runs (applyAddPerson p) (Update.addPerson person (parseIdList (field p 14))
      (parseOrgYearList (field p 15)) (parseOrgYearList (field p 16))).effects := by
  rw [applyAddPerson, orFail_bind_ok h]
  simp only [orFail_bind_ok (parse_of_readPerson h)]
  have hruns := (runs_writeVertex (encodeVid .person person.id) (.person person)).bind
    ((runs_insertCounted (encodeVid .person person.id) (encodeVid .place person.place) .isLocatedIn
      .empty).bind
    ((runs_forM_insertCounted (parseIdList (field p 14)) (fun _ => encodeVid .person person.id)
      (encodeVid .tag) .hasInterest fun _ => .empty).bind
    ((runs_forM_insertCounted (parseOrgYearList (field p 15))
      (fun _ => encodeVid .person person.id) (fun org => encodeVid .organisation org.1) .studyAt
      fun org => .i32 org.2).bind
    (runs_forM_insertCounted (parseOrgYearList (field p 16))
      (fun _ => encodeVid .person person.id) (fun org => encodeVid .organisation org.1) .workAt
      fun org => .i32 org.2))))
  rw [← Effects.ofCalls_append, ← Effects.ofCalls_append, ← Effects.ofCalls_append,
    Effects.ofVertex_append_ofCalls, ← List.append_assoc, ← List.append_assoc] at hruns
  exact hruns

theorem parse_of_readForum {p : List (List Char)} {forum : Stored.ForumProps}
    (h : readForum p = .ok forum) : parseFieldI64 p 6 = .ok forum.moderator := by
  simp only [readForum, Base.bind_eq_ok, Except.ok.injEq] at h
  obtain ⟨id, -, date, -, moderator, hmoderator, rfl⟩ := h
  exact hmoderator

theorem runs_applyAddForum {p : List (List Char)} {forum : Stored.ForumProps}
    (h : readForum p = .ok forum) :
    Runs (applyAddForum p) (Update.addForum forum (parseIdList (field p 7))).effects := by
  rw [applyAddForum, orFail_bind_ok h]
  simp only [orFail_bind_ok (parse_of_readForum h)]
  have hruns := (runs_writeVertex (encodeVid .forum forum.id) (.forum forum)).bind
    ((runs_insertCounted (encodeVid .forum forum.id) (encodeVid .person forum.moderator)
      .hasModerator .empty).bind
    (runs_forM_insertCounted (parseIdList (field p 7)) (fun _ => encodeVid .forum forum.id)
      (encodeVid .tag) .hasTag fun _ => .empty))
  rw [← Effects.ofCalls_append, Effects.ofVertex_append_ofCalls] at hruns
  exact hruns

theorem parse_of_readPost {p : List (List Char)} {post : Stored.PostProps} (h : readPost p = .ok post) :
    parseFieldI64 p 11 = .ok post.creator ∧ parseFieldI64 p 12 = .ok post.forumId ∧
      parseFieldI64 p 13 = .ok post.place := by
  simp only [readPost, Base.bind_eq_ok, Except.ok.injEq] at h
  obtain ⟨id, -, date, -, length, -, creator, hcreator, forum, hforum, place, hplace, rfl⟩ := h
  exact ⟨hcreator, hforum, hplace⟩

theorem runs_applyAddPost {p : List (List Char)} {post : Stored.PostProps} (h : readPost p = .ok post) :
    Runs (applyAddPost p) (Update.addPost post (parseIdList (field p 14))).effects := by
  obtain ⟨hcreator, hforum, hplace⟩ := parse_of_readPost h
  rw [applyAddPost, orFail_bind_ok h]
  simp only [orFail_bind_ok hcreator, orFail_bind_ok hforum, orFail_bind_ok hplace]
  have hruns := (runs_writeVertex (encodeVid .post post.id) (.post post)).bind
    ((runs_insertCounted (encodeVid .post post.id) (encodeVid .person post.creator) .hasCreator
      .empty).bind
    ((runs_insertCounted (encodeVid .forum post.forumId) (encodeVid .post post.id) .containerOf
      .empty).bind
    ((runs_insertCounted (encodeVid .post post.id) (encodeVid .place post.place) .isLocatedIn
      .empty).bind
    (runs_forM_insertCounted (parseIdList (field p 14)) (fun _ => encodeVid .post post.id)
      (encodeVid .tag) .hasTag fun _ => .empty))))
  rw [← Effects.ofCalls_append, ← Effects.ofCalls_append, ← Effects.ofCalls_append,
    Effects.ofVertex_append_ofCalls, ← List.append_assoc, ← List.append_assoc] at hruns
  exact hruns

theorem parse_of_readComment {p : List (List Char)} {comment : Stored.CommentProps}
    (h : readComment p = .ok comment) :
    parseFieldI64 p 9 = .ok comment.creator ∧ parseFieldI64 p 10 = .ok comment.place := by
  simp only [readComment, Base.bind_eq_ok, Except.ok.injEq] at h
  obtain ⟨id, -, post, -, reply, -, date, -, length, -, creator, hcreator, place, hplace, rfl⟩ := h
  exact ⟨hcreator, hplace⟩

theorem runs_applyAddComment {p : List (List Char)} {comment : Stored.CommentProps}
    (h : readComment p = .ok comment) :
    Runs (applyAddComment p) (Update.addComment comment (parseIdList (field p 13))).effects := by
  obtain ⟨hcreator, hplace⟩ := parse_of_readComment h
  rw [applyAddComment, orFail_bind_ok h]
  simp only [orFail_bind_ok hcreator, orFail_bind_ok hplace]
  have hruns := (runs_writeVertex (encodeVid .comment comment.id) (.comment comment)).bind
    ((runs_insertCounted (encodeVid .comment comment.id) (encodeVid .person comment.creator)
      .hasCreator .empty).bind
    ((runs_insertCounted (encodeVid .comment comment.id) (encodeVid .place comment.place)
      .isLocatedIn .empty).bind
    ((runs_forM_insertCounted comment.replyOfPost.toList (fun _ => encodeVid .comment comment.id)
      (encodeVid .post) .replyOfPost fun _ => .empty).bind
    ((runs_forM_insertCounted comment.replyOfComment.toList
      (fun _ => encodeVid .comment comment.id) (encodeVid .comment) .replyOfComment
      fun _ => .empty).bind
    (runs_forM_insertCounted (parseIdList (field p 13)) (fun _ => encodeVid .comment comment.id)
      (encodeVid .tag) .hasTag fun _ => .empty)))))
  rw [← Effects.ofCalls_append, ← Effects.ofCalls_append, ← Effects.ofCalls_append,
    ← Effects.ofCalls_append, Effects.ofVertex_append_ofCalls, ← List.append_assoc,
    ← List.append_assoc, ← List.append_assoc] at hruns
  exact hruns

/-- The edges of operations 2, 3, 5 and 8; the count is the caller's. -/
theorem runs_applyBinaryUpdateEdge {p : List (List Char)} {src dst date : Int64}
    (h : readBinary p = .ok (src, dst, date)) (srcLabel dstLabel : VertexLabel)
    (edgeLabel : EdgeLabel) (bidirectionalPositive : Bool) :
    Runs (applyBinaryUpdateEdge p srcLabel dstLabel edgeLabel bidirectionalPositive)
      ⟨[], insertionsOf (LsmGraph.applyBinaryUpdateEdge srcLabel dstLabel edgeLabel
        bidirectionalPositive src dst date), 0, 0⟩ := by
  simp only [readBinary, Base.bind_eq_ok, Except.ok.injEq, Prod.mk.injEq] at h
  obtain ⟨src, hsrc, dst, hdst, date, hdate, rfl, rfl, rfl⟩ := h
  rw [applyBinaryUpdateEdge, orFail_bind_ok hsrc]
  simp only [orFail_bind_ok hdst, orFail_bind_ok hdate]
  have hforward := runs_insertForwardReverse (encodeVid srcLabel src) (encodeVid dstLabel dst)
    edgeLabel (.i64 date) true
  cases bidirectionalPositive with
  | true => exact hforward.bind (runs_insertForwardReverse _ _ edgeLabel (.i64 date) false)
  | false => exact hforward.bind Runs.pure

theorem Fails.bind {x : ImportM Unit} {e : ReadFailure} (h : Fails x e) (f : Unit → ImportM Unit) :
    Fails (x >>= f) e :=
  fun s => bind_of_error (h s)

theorem fails_applyBinaryUpdateEdge {p : List (List Char)} {e : ReadFailure}
    (h : readBinary p = .error e) (srcLabel dstLabel : VertexLabel) (edgeLabel : EdgeLabel)
    (bidirectionalPositive : Bool) :
    Fails (applyBinaryUpdateEdge p srcLabel dstLabel edgeLabel bidirectionalPositive) e := by
  rw [applyBinaryUpdateEdge]
  rw [readBinary] at h
  cases hsrc : parseFieldI64 p 3 with
  | error e' =>
      rw [hsrc] at h
      cases h
      exact fun _ => rfl
  | ok src =>
      cases hdst : parseFieldI64 p 4 with
      | error e' =>
          rw [hsrc, hdst] at h
          cases h
          exact fun _ => rfl
      | ok dst =>
          cases hdate : parseFieldI64 p 5 with
          | error e' =>
              rw [hsrc, hdst, hdate] at h
              cases h
              exact fun _ => rfl
          | ok date =>
              rw [hsrc, hdst, hdate] at h
              cases h

/-- A part of the import that does what `result` says: nothing but fail, or have the effects. -/
def Does (x : ImportM Unit) : Except ReadFailure Effects → Prop
  | .ok e => Runs x e
  | .error err => Fails x err

/-- The operations with a vertex. -/
theorem does_vertex {α : Type} {x : ImportM Unit} {read : Except ReadFailure α} {u : α → Update}
    (hok : ∀ a, read = .ok a → Runs x (u a).effects)
    (herror : ∀ e, read = .error e → Fails x e) :
    Does x ((read >>= fun a => .ok (some (u a))).map fun u => (u.map Update.effects).getD .none) := by
  cases read with
  | ok a => exact hok a rfl
  | error e => exact herror e rfl

/-- The operations without one. -/
theorem does_binary {p : List (List Char)} {srcLabel dstLabel : VertexLabel} {edgeLabel : EdgeLabel}
    {bidirectionalPositive : Bool} {directed : Nat} {u : Int64 × Int64 × Int64 → Update}
    (hrow : ∀ x, (u x).vertexRow = none)
    (hcalls : ∀ x, (u x).toSnb.calls = LsmGraph.applyBinaryUpdateEdge srcLabel dstLabel edgeLabel
      bidirectionalPositive x.1 x.2.1 x.2.2)
    (hdirected : ∀ x, (insertionsOf (u x).toSnb.calls).length = directed) :
    Does (do
        applyBinaryUpdateEdge p srcLabel dstLabel edgeLabel bidirectionalPositive
        addDirected directed)
      ((readBinary p >>= fun x => .ok (some (u x))).map fun u =>
        (u.map Update.effects).getD .none) := by
  refine does_vertex (fun x hx => ?_) fun e he => (fails_applyBinaryUpdateEdge he _ _ _ _).bind _
  have hruns := (runs_applyBinaryUpdateEdge hx srcLabel dstLabel edgeLabel
    bidirectionalPositive).bind (runs_addDirected directed)
  simpa [Update.effects, hrow, ← hcalls, Effects.append, hdirected] using hruns

/-- **One operation**: what it does is what its columns say. -/
theorem does_applyOperation (parts : List (List Char)) :
    Does (applyOperation parts)
      ((readUpdate parts).map fun u => (u.map Update.effects).getD .none) := by
  rw [readUpdate]
  split
  · rename_i hop
    rw [applyOperation, hop]
    exact does_vertex (fun _ h => runs_applyAddPerson h) fun _ h => fails_orFail_bind h _
  · rename_i hop
    rw [applyOperation, hop]
    exact does_binary (fun _ => rfl) (fun _ => rfl) fun _ => rfl
  · rename_i hop
    rw [applyOperation, hop]
    exact does_binary (fun _ => rfl) (fun _ => rfl) fun _ => rfl
  · rename_i hop
    rw [applyOperation, hop]
    exact does_vertex (fun _ h => runs_applyAddForum h) fun _ h => fails_orFail_bind h _
  · rename_i hop
    rw [applyOperation, hop]
    exact does_binary (fun _ => rfl) (fun _ => rfl) fun _ => rfl
  · rename_i hop
    rw [applyOperation, hop]
    exact does_vertex (fun _ h => runs_applyAddPost h) fun _ h => fails_orFail_bind h _
  · rename_i hop
    rw [applyOperation, hop]
    exact does_vertex (fun _ h => runs_applyAddComment h) fun _ h => fails_orFail_bind h _
  · rename_i hop
    rw [applyOperation, hop]
    exact does_binary (fun _ => rfl) (fun _ => rfl) fun _ => rfl
  · -- no other number is an operation
    rename_i h₁ h₂ h₃ h₄ h₅ h₆ h₇ h₈
    rw [applyOperation]
    split
    · exact absurd ‹_› h₁
    · exact absurd ‹_› h₂
    · exact absurd ‹_› h₃
    · exact absurd ‹_› h₄
    · exact absurd ‹_› h₅
    · exact absurd ‹_› h₆
    · exact absurd ‹_› h₇
    · exact absurd ‹_› h₈
    · exact Runs.pure

/-! ## All lines -/

/-- The edges of a list of updates. -/
def insertionsOfUpdates (updates : List Update) : List EdgeInsertion :=
  insertionsOf ((updates.map Update.toSnb).flatMap SnbUpdate.calls)

/-- The effects of what was read. -/
def Reading.effects (r : Reading) : Effects :=
  let es := insertionsOfUpdates r.updates
  ⟨r.updates.filterMap Update.vertexRow, es, r.rows, es.length⟩

/-- A part of the import that has these effects, and then fails if there is a failure. -/
def Ends (x : ImportM Unit) (e : Effects) (failure : Option ReadFailure) : Prop :=
  ∀ s, x s =
    match failure with
    | none => .ok () (s.after e)
    | some err => .error err (s.after e)

theorem Fails.ends {x : ImportM Unit} {err : ReadFailure} (h : Fails x err) :
    Ends x .none (some err) := fun s => by
  rw [ImportState.after_none]
  exact h s

theorem Ends.bind_of_failure {x : ImportM Unit} {e : Effects} {err : ReadFailure}
    (h : Ends x e (some err)) (f : Unit → ImportM Unit) : Ends (x >>= f) e (some err) :=
  fun s => bind_of_error (h s)

theorem Runs.bind_ends {x y : ImportM Unit} {e f : Effects} {failure : Option ReadFailure}
    (hx : Runs x e) (hy : Ends y f failure) : Ends (do x; y) (e.append f) failure := by
  intro s
  rw [bind_of_ok (hx s), hy, ImportState.after_append]

theorem ends_importLine_error (e : ReadFailure) : Ends (importLine (.error e)) .none (some e) :=
  (fails_orFail_bind rfl _).ends

/-- **One line**: what it does is what it is read as. -/
theorem importLine_spec (line : List Char) :
    match readLine line with
    | .ok .uncounted => Runs (importLine (.ok line)) .none
    | .ok (.row u) => Runs (importLine (.ok line))
        (Effects.append ⟨[], [], 1, 0⟩ ((u.map Update.effects).getD .none))
    | .error e => Ends (importLine (.ok line)) ⟨[], [], 1, 0⟩ (some e) := by
  rw [readLine, importLine, orFail_bind_ok rfl]
  split_ifs with hblank
  · exact Runs.pure
  · dsimp only
    split_ifs with hshort
    · exact Runs.pure
    · have hdoes := does_applyOperation (line.splitOn '|')
      cases hread : readUpdate (line.splitOn '|') with
      | ok u =>
          rw [hread] at hdoes
          exact runs_addInputRow.bind hdoes
      | error e =>
          rw [hread] at hdoes
          exact runs_addInputRow.bind_ends (Fails.ends hdoes)

/-- The effects of a row and of what is read after it. -/
theorem effects_row (u : Option Update) (r : Reading) :
    (Effects.append ⟨[], [], 1, 0⟩ ((u.map Update.effects).getD .none)).append r.effects =
      Reading.effects ⟨u.toList ++ r.updates, r.rows + 1, r.failure⟩ := by
  cases u with
  | none => simp [Effects.append, Effects.none, Reading.effects, Nat.add_comm]
  | some u =>
      have hcons : insertionsOf u.toSnb.calls ++ insertionsOfUpdates r.updates =
          insertionsOfUpdates (u :: r.updates) := by
        simp [insertionsOfUpdates, insertionsOf]
      cases hrow : u.vertexRow <;>
        simp [Effects.append, Reading.effects, Update.effects, ← hcons, hrow, Nat.add_comm]

/-- **The loop over the lines** has the effects of what is read, and fails when the reading does. -/
theorem ends_importLines (lines : List (Except ReadFailure (List Char))) :
    Ends (lines.forM importLine) (readLines lines).effects (readLines lines).failure := by
  induction lines with
  | nil => exact Runs.pure
  | cons line lines ih =>
      cases line with
      | error e => exact (ends_importLine_error e).bind_of_failure _
      | ok line =>
          have hline := importLine_spec line
          rw [readLines]
          cases hread : readLine line with
          | error e =>
              rw [hread] at hline
              exact Ends.bind_of_failure hline _
          | ok read =>
              rw [hread] at hline
              cases read with
              | uncounted =>
                  have hends := Runs.bind_ends hline ih
                  rw [Effects.none_append] at hends
                  exact hends
              | row u =>
                  have hends := Runs.bind_ends hline ih
                  rw [effects_row] at hends
                  exact hends

theorem forM_append {α : Type} (f : α → ImportM Unit) (l m : List α) :
    (l ++ m).forM f = (do l.forM f; m.forM f) :=
  List.forM_append

theorem forM_importUpdateStreamFile (files : List StreamFile) :
    files.forM importUpdateStreamFile = (files.flatMap StreamFile.lines).forM importLine := by
  induction files with
  | nil => rfl
  | cons file files ih =>
      rw [List.flatMap_cons, forM_append, ← ih]
      rfl

/-- What the streams of a directory say, one after the other. -/
def readStreams (dir : List StreamFile) : Reading :=
  readLines ((updateStreamFiles dir).flatMap StreamFile.lines)

/-- The import of streams without a malformed line. -/
theorem importSnbUpdates_of_read {dir : List StreamFile} {updates : List Update} {rows : Nat}
    (h : readStreams dir = ⟨updates, rows, none⟩) (store : StoreDir) (clock : Timestamp) :
    importSnbUpdates dir store clock =
      { result := .ok ⟨rows, (insertionsOfUpdates updates).length⟩
        store :=
          { toSnbStore := store.toSnbStore.importSnbUpdates clock (updates.map Update.toSnb)
            vertices := store.vertices ++ updates.filterMap Update.vertexRow }
        inserted := insertionsOfUpdates updates } := by
  have hends := ends_importLines ((updateStreamFiles dir).flatMap StreamFile.lines)
  rw [← forM_importUpdateStreamFile, ← readStreams, h] at hends
  simp only [importSnbUpdates, hends _]
  simp [ImportState.after, Reading.effects, ImportStats.zero, SnbStore.importSnbUpdates,
    insertionsOfUpdates]

/-- The import of streams with a malformed line. -/
theorem importSnbUpdates_of_failure {dir : List StreamFile} {updates : List Update} {rows : Nat}
    {e : ReadFailure} (h : readStreams dir = ⟨updates, rows, some e⟩) (store : StoreDir)
    (clock : Timestamp) :
    importSnbUpdates dir store clock =
      { result := .error e
        store :=
          { edgeProps := (insertionsOfUpdates updates).foldl SnbStore.writeEdgeProp store.edgeProps
            cache := store.cache
            vertices := store.vertices ++ updates.filterMap Update.vertexRow }
        inserted := insertionsOfUpdates updates } := by
  have hends := ends_importLines ((updateStreamFiles dir).flatMap StreamFile.lines)
  rw [← forM_importUpdateStreamFile, ← readStreams, h] at hends
  simp only [importSnbUpdates, hends _]
  simp [ImportState.after, Reading.effects]

/-- **The import of the update streams.** Whatever the lines hold, the import does what applying the
updates in the lines up to the first malformed one does: their vertices and properties are appended,
their edges inserted, and the counters are the number of rows and of edges. Without a malformed line
the files are those of `SnbStore.importSnbUpdates`; with one the import fails, and the cache stays as
it was. -/
theorem importSnbUpdates_eq (dir : List StreamFile) (store : StoreDir) (clock : Timestamp) :
    importSnbUpdates dir store clock =
      let r := readStreams dir
      let es := insertionsOfUpdates r.updates
      { result :=
          match r.failure with
          | none => .ok ⟨r.rows, es.length⟩
          | some e => .error e
        store :=
          { toSnbStore :=
              match r.failure with
              | none => store.toSnbStore.importSnbUpdates clock (r.updates.map Update.toSnb)
              | some _ =>
                  { edgeProps := es.foldl SnbStore.writeEdgeProp store.edgeProps
                    cache := store.cache }
            vertices := store.vertices ++ r.updates.filterMap Update.vertexRow }
        inserted := es } := by
  rcases hread : readStreams dir with ⟨updates, rows, failure⟩
  cases failure with
  | none => exact importSnbUpdates_of_read hread store clock
  | some e => exact importSnbUpdates_of_failure hread store clock

/-! ## Written streams -/

/-- `BufRead::lines` on a readable text. -/
def linesOf (text : List Char) : List (Except ReadFailure (List Char)) := (Http.lines text).map .ok

/-- A stream of updates with its file name. -/
structure WrittenStream where
  name : String
  updates : List StampedUpdate

/-- The file of a stream. -/
def WrittenStream.file (w : WrittenStream) : StreamFile where
  name := w.name
  lines := linesOf (terminate '\n' (w.updates.map StampedUpdate.render))

structure WrittenStream.Writable (w : WrittenStream) : Prop where
  name : isUpdateStream w.name = true
  update : ∀ u ∈ w.updates, u.Writable

/-- The updates of some streams, one after the other. -/
def updatesOf (streams : List WrittenStream) : List Update :=
  streams.flatMap fun w => w.updates.map StampedUpdate.update

/-- The last column of an update is a number or a list of numbers. -/
theorem notMem_getLast_columns (u : Update) : ∀ p ∈ u.columns.getLast?, '\r' ∉ p := by
  have hnum : ∀ v, '\r' ∉ textI64 v := notMem_textI64 (by decide)
  have hids : ∀ ids, '\r' ∉ textIdList ids := by
    intro ids hmem
    rcases mem_joinWith hmem with heq | ⟨p, hp, hc⟩
    · exact absurd heq (by decide)
    · obtain ⟨v, -, rfl⟩ := List.mem_map.mp hp
      exact hnum v hc
  have horgs : ∀ items, '\r' ∉ textOrgYearList items := by
    intro items hmem
    rcases mem_joinWith hmem with heq | ⟨p, hp, hc⟩
    · exact absurd heq (by decide)
    · obtain ⟨item, -, rfl⟩ := List.mem_map.mp hp
      rcases mem_numeric_or_of_mem_textOrgYear hc with h | h
      · exact absurd h (by decide)
      · exact absurd h (by decide)
  cases u <;> simp [Update.columns, hnum, hids, horgs]

/-- No line of an update ends in a carriage return. -/
theorem getLast_render_ne (u : StampedUpdate) : u.render.getLast? ≠ some '\r' := by
  obtain ⟨c, -, rest, hcons⟩ := columns_eq_cons u.update
  have hne : u.update.columns ≠ [] := hcons ▸ List.cons_ne_nil _ _
  have hlast := notMem_getLast_columns u.update (u.update.columns.getLast hne)
    (List.getLast?_eq_some_getLast hne)
  have hrender : u.render = joinWith '|' (u.date :: u.dependantDate :: u.update.columns.dropLast) ++
      '|' :: u.update.columns.getLast hne := by
    rw [← joinWith_concat (List.cons_ne_nil _ _), List.cons_append, List.cons_append,
      List.dropLast_append_getLast]
    rfl
  rw [hrender, List.getLast?_append_cons]
  intro heq
  rcases List.mem_cons.mp (List.mem_of_getLast? heq) with hbar | hmem
  · exact absurd hbar (by decide)
  · exact hlast hmem

theorem linesFrom_append {line l : List Char} (h : '\n' ∉ l) (text : List Char) :
    Http.linesFrom line (l ++ text) = Http.linesFrom (line ++ l) text := by
  induction l generalizing line with
  | nil => rw [List.nil_append, List.append_nil]
  | cons c l ih =>
      obtain ⟨hc, hl⟩ := not_or.mp (mt List.mem_cons.mpr h)
      rw [List.cons_append, Http.linesFrom, if_neg (Ne.symm hc), ih hl, List.append_assoc]
      rfl

/-- Terminated lines are read back, if none of them holds or ends in what belongs to a line's end. -/
theorem lines_terminate {pieces : List (List Char)} (hfeed : ∀ p ∈ pieces, '\n' ∉ p)
    (hreturn : ∀ p ∈ pieces, p.getLast? ≠ some '\r') :
    Http.lines (terminate '\n' pieces) = pieces := by
  induction pieces with
  | nil => rfl
  | cons p pieces ih =>
      obtain ⟨hp, hfeed⟩ := List.forall_mem_cons.mp hfeed
      obtain ⟨hpr, hreturn⟩ := List.forall_mem_cons.mp hreturn
      rw [terminate_cons, Http.lines, linesFrom_append hp, List.nil_append, Http.linesFrom, if_pos rfl,
        if_neg hpr, ← Http.lines, ih hfeed hreturn]

/-- The lines of a written stream. -/
theorem WrittenStream.Writable.lines_file {w : WrittenStream} (h : w.Writable) :
    w.file.lines = w.updates.map fun u => .ok u.render := by
  have hfeed : ∀ p ∈ w.updates.map StampedUpdate.render, '\n' ∉ p := by
    intro p hp
    obtain ⟨u, hu, rfl⟩ := List.mem_map.mp hp
    exact (h.update u hu).splitOn_render.2
  have hreturn : ∀ p ∈ w.updates.map StampedUpdate.render, p.getLast? ≠ some '\r' := by
    intro p hp
    obtain ⟨u, -, rfl⟩ := List.mem_map.mp hp
    exact getLast_render_ne u
  rw [file, linesOf, lines_terminate hfeed hreturn, List.map_map]
  rfl

/-- Written lines are read as their updates. -/
theorem readLines_render {updates : List StampedUpdate} (h : ∀ u ∈ updates, u.Writable) :
    readLines (updates.map fun u => .ok u.render) =
      ⟨updates.map StampedUpdate.update, updates.length, none⟩ := by
  induction updates with
  | nil => rfl
  | cons u updates ih =>
      obtain ⟨hu, hupdates⟩ := List.forall_mem_cons.mp h
      rw [List.map_cons, readLines, readLine_render hu, ih hupdates]
      rfl

/-- The streams of a directory in which they stand in any order among other files. -/
theorem updateStreamFiles_of_perm {streams : List WrittenStream} {others dir : List StreamFile}
    (hsorted : streams.Pairwise fun v w => v.name < w.name) (hwritable : ∀ w ∈ streams, w.Writable)
    (hothers : ∀ file ∈ others, isUpdateStream file.name = false)
    (hdir : dir.Perm (streams.map WrittenStream.file ++ others)) :
    updateStreamFiles dir = streams.map WrittenStream.file := by
  have hfilter : (dir.filter fun file => isUpdateStream file.name).Perm
      (streams.map WrittenStream.file) := by
    refine (hdir.filter _).trans ?_
    rw [List.filter_append, List.filter_eq_self.mpr, List.filter_eq_nil_iff.mpr, List.append_nil]
    · exact fun file hfile => Bool.not_eq_true _ ▸ hothers file hfile
    · intro file hfile
      obtain ⟨w, hw, rfl⟩ := List.mem_map.mp hfile
      exact (hwritable w hw).name
  have hstrict : (streams.map WrittenStream.file).Pairwise fun a b => a.name < b.name :=
    List.pairwise_map.mpr hsorted
  have hdistinct : (dir.filter fun file => isUpdateStream file.name).Pairwise
      fun a b => a.name ≠ b.name :=
    (hfilter.pairwise_iff fun hab => hab.symm).mpr (hstrict.imp fun hab => hab.ne)
  refine KeyedSort.eq_of_ascending_of_mem_iff (KeyedSort.pairwise_lt_sortByKey hdistinct) hstrict
    fun file => ?_
  rw [updateStreamFiles, KeyedSort.mem_sortByKey]
  exact hfilter.mem_iff

/-- What the written streams of a directory say. -/
theorem readStreams_written {streams : List WrittenStream} {others dir : List StreamFile}
    (hsorted : streams.Pairwise fun v w => v.name < w.name) (hwritable : ∀ w ∈ streams, w.Writable)
    (hothers : ∀ file ∈ others, isUpdateStream file.name = false)
    (hdir : dir.Perm (streams.map WrittenStream.file ++ others)) :
    readStreams dir = ⟨updatesOf streams, (updatesOf streams).length, none⟩ := by
  have hlines : (streams.map WrittenStream.file).flatMap StreamFile.lines =
      (streams.flatMap WrittenStream.updates).map fun u => .ok u.render := by
    rw [List.flatMap_map, List.map_flatMap]
    exact List.flatMap_congr fun w hw => (hwritable w hw).lines_file
  have hall : ∀ u ∈ streams.flatMap WrittenStream.updates, u.Writable := by
    intro u hu
    obtain ⟨w, hw, hmem⟩ := List.mem_flatMap.mp hu
    exact (hwritable w hw).update u hmem
  have hupdates : (streams.flatMap WrittenStream.updates).map StampedUpdate.update =
      updatesOf streams := List.map_flatMap
  rw [readStreams, updateStreamFiles_of_perm hsorted hwritable hothers hdir, hlines,
    readLines_render hall, hupdates, ← hupdates, List.length_map]

/-- **A written stream is imported as its updates.** -/
theorem importSnbUpdates_written {streams : List WrittenStream} {others dir : List StreamFile}
    (hsorted : streams.Pairwise fun v w => v.name < w.name) (hwritable : ∀ w ∈ streams, w.Writable)
    (hothers : ∀ file ∈ others, isUpdateStream file.name = false)
    (hdir : dir.Perm (streams.map WrittenStream.file ++ others)) (store : StoreDir)
    (clock : Timestamp) :
    importSnbUpdates dir store clock =
      let updates := updatesOf streams
      { result := .ok ⟨updates.length, (insertionsOfUpdates updates).length⟩
        store :=
          { toSnbStore := store.toSnbStore.importSnbUpdates clock (updates.map Update.toSnb)
            vertices := store.vertices ++ updates.filterMap Update.vertexRow }
        inserted := insertionsOfUpdates updates } :=
  importSnbUpdates_of_read (readStreams_written hsorted hwritable hothers hdir) store clock

/-- A forum with two tags, joined by a person. -/
def twoUpdates : WrittenStream where
  name := "updateStream_0_0_forum.csv"
  updates :=
    [ ⟨['7'], ['0'], .addForum ⟨5, "a;b", 7, 3⟩ [10, 11]⟩,
      ⟨['8'], ['7'], .joinForum 5 4 8⟩ ]

theorem writable_twoUpdates : ∀ w ∈ [twoUpdates], w.Writable := by
  intro w hw
  rw [List.mem_singleton.mp hw]
  refine ⟨by decide, fun u hu => ?_⟩
  rcases List.mem_cons.mp hu with rfl | hu
  · exact ⟨by decide, by simp [Update.listedIds]⟩
  · rw [List.mem_singleton.mp hu]
    exact ⟨by decide, by simp [Update.listedIds]⟩

/-- A file that is no stream. -/
def noStream : StreamFile := ⟨"person_0_0.csv", [.error .error]⟩

theorem importSnbUpdates_written_two :
    (importSnbUpdates [noStream, twoUpdates.file] ⟨SnbStore.new, []⟩ 0).result = .ok ⟨2, 8⟩ := by
  have hothers : ∀ file ∈ [noStream], isUpdateStream file.name = false := by decide
  rw [importSnbUpdates_written (List.pairwise_singleton _ _) writable_twoUpdates hothers
    (List.Perm.swap _ _ _)]
  rfl

end UpdateStream

end LsmGraph
