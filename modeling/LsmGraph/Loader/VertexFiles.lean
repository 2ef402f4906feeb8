import LsmGraph.Snb.HttpUpdates

/-! # The vertex files of a full import

`import_vertices` makes a line of `snb_vertices.jsonl` of every record of the eight vertex files. With
it a full import makes a whole store, and so do imports of update streams, complete or not, on top of
it. Every graph that is opened from such a store and served any requests is mirrored and has every vertex
under its own id (`reached_serve`). -/

namespace LsmGraph

open UpdateStream

namespace VertexFiles

/-- `get`: the text of a named column, empty if there is none. -/
def get (headers record : List String) (name : String) : String := (ColRef.name name).text headers record

def getI64 (headers record : List String) (name : String) : Except ReadFailure Int64 :=
  parseI64 (get headers record name).toList

/-- The arguments of `import_vertex_file`. -/
structure VertexFile where
  path : String
  label : VertexLabel
  build : List String → List String → Except ReadFailure Stored.VertexData

def buildPlace (headers record : List String) : Except ReadFailure Stored.VertexData := do
  let id ← getI64 headers record "id"
  let isPartOf ← parseOptionalI64 (get headers record "isPartOf")
  return .place ⟨⟨id, get headers record "name"⟩, get headers record "type", isPartOf⟩

def buildOrganisation (headers record : List String) : Except ReadFailure Stored.VertexData := do
  let id ← getI64 headers record "id"
  let place ← getI64 headers record "place"
  return .organisation ⟨⟨id, get headers record "name"⟩, get headers record "type", place⟩

def buildTag (headers record : List String) : Except ReadFailure Stored.VertexData := do
  let id ← getI64 headers record "id"
  let hasType ← getI64 headers record "hasType"
  return .tag ⟨id, get headers record "name", hasType⟩

def buildTagClass (headers record : List String) : Except ReadFailure Stored.VertexData := do
  let id ← getI64 headers record "id"
  let isSubclassOf ← parseOptionalI64 (get headers record "isSubclassOf")
  return .tagClass ⟨id, get headers record "name", isSubclassOf⟩

def buildPerson (headers record : List String) : Except ReadFailure Stored.VertexData := do
  let id ← getI64 headers record "id"
  let birthday ← getI64 headers record "birthday"
  let creationDate ← getI64 headers record "creationDate"
  let place ← getI64 headers record "place"
  return .person
    { id
      firstName := get headers record "firstName"
      lastName := get headers record "lastName"
      gender := get headers record "gender"
      birthday
      creationDate
      locationIp := get headers record "locationIP"
      browserUsed := get headers record "browserUsed"
      place
      language := get headers record "language"
      email := get headers record "email" }

def buildForum (headers record : List String) : Except ReadFailure Stored.VertexData := do
  let id ← getI64 headers record "id"
  let creationDate ← getI64 headers record "creationDate"
  let moderator ← getI64 headers record "moderator"
  return .forum ⟨id, get headers record "title", creationDate, moderator⟩

def buildPost (headers record : List String) : Except ReadFailure Stored.VertexData := do
  let id ← getI64 headers record "id"
  let creationDate ← getI64 headers record "creationDate"
  let length ← getI64 headers record "length"
  let creator ← getI64 headers record "creator"
  let forumId ← getI64 headers record "Forum.id"
  let place ← getI64 headers record "place"
  return .post
    { id
      imageFile := get headers record "imageFile"
      creationDate
      locationIp := get headers record "locationIP"
      browserUsed := get headers record "browserUsed"
      language := get headers record "language"
      content := get headers record "content"
      length
      creator
      forumId
      place }

def buildComment (headers record : List String) : Except ReadFailure Stored.VertexData := do
  let id ← getI64 headers record "id"
  let creationDate ← getI64 headers record "creationDate"
  let length ← getI64 headers record "length"
  let creator ← getI64 headers record "creator"
  let place ← getI64 headers record "place"
  let replyOfPost ← parseOptionalI64 (get headers record "replyOfPost")
  let replyOfComment ← parseOptionalI64 (get headers record "replyOfComment")
  return .comment
    { id
      creationDate
      locationIp := get headers record "locationIP"
      browserUsed := get headers record "browserUsed"
      content := get headers record "content"
      length
      creator
      place
      replyOfPost
      replyOfComment }

/-- The calls of `import_vertices`, in order. -/
def vertexFiles : List VertexFile :=
  [ ⟨"static/place_0_0.csv", .place, buildPlace⟩,
    ⟨"static/organisation_0_0.csv", .organisation, buildOrganisation⟩,
    ⟨"static/tag_0_0.csv", .tag, buildTag⟩,
    ⟨"static/tagclass_0_0.csv", .tagClass, buildTagClass⟩,
    ⟨"dynamic/person_0_0.csv", .person, buildPerson⟩,
    ⟨"dynamic/forum_0_0.csv", .forum, buildForum⟩,
    ⟨"dynamic/post_0_0.csv", .post, buildPost⟩,
    ⟨"dynamic/comment_0_0.csv", .comment, buildComment⟩ ]

/-- What the reader yields next, and the line that is written for it. -/
def VertexFile.readRow (f : VertexFile) (headers : List String)
    (record : Except Base.BuildError (List String)) : Except ReadFailure Stored.VertexRow :=
  match record with
  | .error _ => .error .error
  | .ok record => do
      let data ← f.build headers record
      return ⟨encodeVid f.label data.externalId, data⟩

def importVertexFile (root : CsvRoot) (f : VertexFile) : Except ReadFailure (List Stored.VertexRow) :=
  match root.file f.path with
  | none => .error .error
  | some file => file.records.mapM (f.readRow file.header)

def importVertices (root : CsvRoot) : Except ReadFailure (List Stored.VertexRow) := do
  let files ← vertexFiles.mapM (importVertexFile root)
  return files.flatten

end VertexFiles

open VertexFiles

/-- `import_snb_full` with its vertex files, when the engine's clock stands at `clock`. -/
def importSnbFullDir (clock : Timestamp) (root : CsvRoot) : Except ReadFailure StoreDir := do
  let vertices ← importVertices root
  let store ← SnbStore.importSnbFullCsv clock root
  return ⟨store, vertices⟩

/-- The stores that imports make: a full import makes one anew, and a stream import goes on from one,
whether it succeeds or not. -/
inductive UpdateStream.StoreDir.Reached : StoreDir → Prop
  | full {clock : Timestamp} {root : CsvRoot} {store : StoreDir}
      (h : importSnbFullDir clock root = .ok store) : Reached store
  | updates {store : StoreDir} (h : Reached store) (dir : List StreamFile) (clock : Timestamp) :
      Reached (importSnbUpdates dir store clock).store

/-! ## Edges of a full import -/

/-- The rows of a file that can be read. -/
def rowsOf (root : CsvRoot) (spec : EdgeFileSpec) : List EdgeRow :=
  match fullImportFiles.find? fun c => c.toEdgeFileSpec = spec with
  | none => []
  | some c =>
      match c.readRows root with
      | .ok rows => rows
      | .error _ => []

theorem rowsOf_eq {root : CsvRoot} {c : EdgeFileCall} {rows : List EdgeRow}
    (hc : c ∈ fullImportFiles) (hrows : c.readRows root = .ok rows) :
    rowsOf root c.toEdgeFileSpec = rows := by
  have hfind : ∀ c ∈ fullImportFiles,
      fullImportFiles.find? (fun c' => c'.toEdgeFileSpec = c.toEdgeFileSpec) = some c := by
    decide +kernel
  rw [rowsOf, hfind c hc]
  dsimp only
  rw [hrows]

/-- The files of an import that succeeds can all be read. -/
theorem edgeInsertions_ok {root : CsvRoot} {files : List EdgeFileCall}
    {lists : List (List EdgeInsertion)} (hfiles : ∀ c ∈ files, c ∈ fullImportFiles)
    (hread : (files.mapM fun c => do
      let rows ← c.readRows root
      .ok (insertionsOf (rows.flatMap c.rowCalls))) = .ok lists) :
    (∀ c ∈ files, c.readRows root = .ok (rowsOf root c.toEdgeFileSpec)) ∧
      lists.flatten = insertionsOf ((files.map EdgeFileCall.toEdgeFileSpec).flatMap fun spec =>
        (rowsOf root spec).flatMap spec.rowCalls) := by
  induction files generalizing lists with
  | nil =>
      obtain rfl : [] = lists := Except.ok.inj hread
      exact ⟨fun c hc => absurd hc List.not_mem_nil, rfl⟩
  | cons c files ih =>
      obtain ⟨hc, hrest⟩ := List.forall_mem_cons.mp hfiles
      rw [List.mapM_cons] at hread
      obtain ⟨es, hes, hread⟩ := Base.bind_eq_ok.mp hread
      obtain ⟨rows, hrows, hes⟩ := Base.bind_eq_ok.mp hes
      obtain ⟨lists, hlists, hread⟩ := Base.bind_eq_ok.mp hread
      cases hes
      cases hread
      obtain ⟨hall, hflatten⟩ := ih hrest hlists
      rw [List.forall_mem_cons, rowsOf_eq hc hrows, List.flatten_cons, hflatten, List.map_cons,
        List.flatMap_cons, rowsOf_eq hc hrows]
      exact ⟨⟨hrows, hall⟩, (List.flatMap_append ..).symm⟩

/-- A full import of CSV files is one of their rows. -/
theorem importSnbFullCsv_eq {clock : Timestamp} {root : CsvRoot} {store : SnbStore}
    (h : SnbStore.importSnbFullCsv clock root = .ok store) :
    store = SnbStore.importSnbFull clock (rowsOf root) ∧
      ∀ c ∈ fullImportFiles, c.readRows root = .ok (rowsOf root c.toEdgeFileSpec) := by
  obtain ⟨es, hes, hstore⟩ := Base.bind_eq_ok.mp h
  obtain ⟨lists, hlists, hes⟩ := Base.bind_eq_ok.mp hes
  cases hes
  cases hstore
  obtain ⟨hall, hflatten⟩ := edgeInsertions_ok (fun c hc => hc) hlists
  refine ⟨?_, hall⟩
  rw [SnbStore.importSnbFull, fullImportCalls, ← edgeFiles_eq, ← hflatten]

/-! ## Vertices of a full import -/

/-- A builder makes vertices of the label of its file. -/
theorem label_build {f : VertexFile} (hf : f ∈ vertexFiles) {headers record : List String}
    {data : Stored.VertexData} (h : f.build headers record = .ok data) : data.label = f.label := by
  simp only [vertexFiles, List.mem_cons, List.not_mem_nil, or_false] at hf
  rcases hf with rfl | rfl | rfl | rfl | rfl | rfl | rfl | rfl
  · obtain ⟨_, -, h⟩ := Base.bind_eq_ok.mp h
    obtain ⟨_, -, h⟩ := Base.bind_eq_ok.mp h
    exact Except.ok.inj h ▸ rfl
  · obtain ⟨_, -, h⟩ := Base.bind_eq_ok.mp h
    obtain ⟨_, -, h⟩ := Base.bind_eq_ok.mp h
    exact Except.ok.inj h ▸ rfl
  · obtain ⟨_, -, h⟩ := Base.bind_eq_ok.mp h
    obtain ⟨_, -, h⟩ := Base.bind_eq_ok.mp h
    exact Except.ok.inj h ▸ rfl
  · obtain ⟨_, -, h⟩ := Base.bind_eq_ok.mp h
    obtain ⟨_, -, h⟩ := Base.bind_eq_ok.mp h
    exact Except.ok.inj h ▸ rfl
  · simp only [buildPerson, Base.bind_eq_ok] at h
    obtain ⟨_, -, _, -, _, -, _, -, h⟩ := h
    exact Except.ok.inj h ▸ rfl
  · simp only [buildForum, Base.bind_eq_ok] at h
    obtain ⟨_, -, _, -, _, -, h⟩ := h
    exact Except.ok.inj h ▸ rfl
  · simp only [buildPost, Base.bind_eq_ok] at h
    obtain ⟨_, -, _, -, _, -, _, -, _, -, _, -, h⟩ := h
    exact Except.ok.inj h ▸ rfl
  · simp only [buildComment, Base.bind_eq_ok] at h
    obtain ⟨_, -, _, -, _, -, _, -, _, -, _, -, _, -, h⟩ := h
    exact Except.ok.inj h ▸ rfl

/-- What a loop that succeeds returns is what its steps return. -/
theorem mem_of_mapM_ok {α β ε : Type} {f : α → Except ε β} {l : List α} {bs : List β}
    (h : l.mapM f = .ok bs) (b : β) : b ∈ bs ↔ ∃ a ∈ l, f a = .ok b := by
  induction l generalizing bs with
  | nil =>
      obtain rfl : [] = bs := Except.ok.inj h
      simp
  | cons a l ih =>
      rw [List.mapM_cons] at h
      obtain ⟨b', hb', h⟩ := Base.bind_eq_ok.mp h
      obtain ⟨bs', hbs', h⟩ := Base.bind_eq_ok.mp h
      obtain rfl := Except.ok.inj h
      rw [List.mem_cons, ih hbs', List.exists_mem_cons_iff, hb', Except.ok.injEq]
      exact or_congr_left eq_comm

/-- Every line stands for a record of a vertex file. -/
theorem record_of_importVertices {root : CsvRoot} {rows : List Stored.VertexRow}
    (h : importVertices root = .ok rows) : ∀ row ∈ rows, ∃ f ∈ vertexFiles, ∃ file,
      root.file f.path = some file ∧ ∃ record, .ok record ∈ file.records ∧
        f.build file.header record = .ok row.data ∧ row.vid = encodeVid f.label row.data.externalId := by
  obtain ⟨files, hfiles, h⟩ := Base.bind_eq_ok.mp h
  obtain rfl := Except.ok.inj h
  intro row hrow
  obtain ⟨fileRows, hin, hrow⟩ := List.mem_flatten.mp hrow
  obtain ⟨f, hf, hread⟩ := (mem_of_mapM_ok hfiles fileRows).mp hin
  rw [importVertexFile] at hread
  split at hread
  · cases hread
  · rename_i file hfile
    obtain ⟨record, hmem, hrecord⟩ := (mem_of_mapM_ok hread row).mp hrow
    unfold VertexFile.readRow at hrecord
    split at hrecord
    · cases hrecord
    · obtain ⟨data, hdata, hrecord⟩ := Base.bind_eq_ok.mp hrecord
      obtain rfl := Except.ok.inj hrecord
      exact ⟨f, hf, file, hfile, _, hmem, hdata, rfl⟩

/-- The lines of the vertex files have the ids of their vertices. -/
theorem vid_of_importVertices {root : CsvRoot} {rows : List Stored.VertexRow}
    (h : importVertices root = .ok rows) : ∀ row ∈ rows, row.vid = row.data.vid := by
  intro row hrow
  obtain ⟨f, hf, file, -, record, -, hbuild, hvid⟩ := record_of_importVertices h row hrow
  rw [hvid, Stored.VertexData.vid, label_build hf hbuild]

/-! ## Stores that imports reach -/

/-- What imports keep. -/
structure UpdateStream.StoreDir.Consistent (store : StoreDir) : Prop where
  mirrored : store.toSnbStore.Mirrored
  cached : store.cache ≠ none
  vid_eq : ∀ row ∈ store.vertices, row.vid = row.data.vid

theorem UpdateStream.StoreDir.consistent_full {clock : Timestamp} {root : CsvRoot} {store : StoreDir}
    (h : importSnbFullDir clock root = .ok store) : store.Consistent := by
  obtain ⟨vertices, hvertices, h⟩ := Base.bind_eq_ok.mp h
  obtain ⟨edges, hedges, h⟩ := Base.bind_eq_ok.mp h
  obtain rfl := Except.ok.inj h
  obtain ⟨rfl, -⟩ := importSnbFullCsv_eq hedges
  exact ⟨SnbStore.mirrored_new.afterRun (.full clock (rowsOf root)), Option.some_ne_none _,
    vid_of_importVertices hvertices⟩

theorem balanced_insertionsOfUpdates (updates : List Update) :
    Balanced (insertionsOfUpdates updates) := by
  rw [insertionsOfUpdates, insertionsOf_flatMap]
  exact Balanced.flatMap fun update _ => balanced_update update

/-- **Step lemma.** An import of streams that fails leaves the cache, and the lines that it has
appended until then are those of whole updates. -/
theorem UpdateStream.StoreDir.Consistent.updates {store : StoreDir} (h : store.Consistent) (dir : List StreamFile)
    (clock : Timestamp) : (importSnbUpdates dir store clock).store.Consistent := by
  rcases hread : readStreams dir with ⟨updates, rows, failure⟩
  have hvertices : ∀ row ∈ store.vertices ++ updates.filterMap Update.vertexRow,
      row.vid = row.data.vid := by
    intro row hrow
    rcases List.mem_append.mp hrow with hold | hnew
    · exact h.vid_eq row hold
    · obtain ⟨u, -, hu⟩ := List.mem_filterMap.mp hnew
      exact StoredGraph.vid_of_vertexRow hu
  cases failure with
  | none =>
      rw [importSnbUpdates_of_read hread]
      exact ⟨h.mirrored.afterRun (.updates clock (updates.map Update.toSnb)),
        Option.some_ne_none _, hvertices⟩
  | some e =>
      rw [importSnbUpdates_of_failure hread]
      have hprops : MirroredMap (loadEdgeProps
          ((insertionsOfUpdates updates).foldl SnbStore.writeEdgeProp store.edgeProps)) := by
        rw [loadEdgeProps_foldl]
        exact (balanced_insertionsOfUpdates updates).props h.mirrored.props
      exact ⟨⟨h.mirrored.edges, hprops, h.mirrored.nodup⟩, h.cached, hvertices⟩

theorem UpdateStream.StoreDir.Reached.consistent {store : StoreDir} (h : store.Reached) : store.Consistent := by
  induction h with
  | full h => exact consistent_full h
  | updates _ dir clock ih => exact ih.updates dir clock

theorem UpdateStream.StoreDir.Reached.served {store : StoreDir} (h : store.Reached)
    (scan : List EdgeRecord) (requests : List (String × Json)) :
    ((StoredGraph.open store scan).serve requests).Mirrored ∧
      Stored.WellKeyed ((StoredGraph.open store scan).serve requests).vertices := by
  have hstore := h.consistent
  have hextends := StoredGraph.extends_foldl_applyUpdate (StoredGraph.open store scan)
    (requests.filterMap fun r => readRequest r.1 r.2)
  rw [← StoredGraph.serve_eq] at hextends
  exact ⟨hextends.mirrored (SnbGraph.mirrored_open hstore.mirrored hstore.cached scan),
    hextends.wellKeyed (Stored.wellKeyed_loadVertices hstore.vid_eq)⟩

/-- **Any graph that is served.** A store is made by a full import and any imports of streams after it,
of which some may fail on a malformed line; a graph is opened from it and serves any requests. Then the
graph is mirrored, and every vertex in it is stored under the id that its label and external id make. -/
theorem reached_serve {store : StoreDir} (h : store.Reached) (scan : List EdgeRecord)
    (requests : List (String × Json)) :
    let g := (StoredGraph.open store scan).serve requests
    g.Mirrored ∧ Stored.WellKeyed g.vertices :=
  h.served scan requests

/-- A directory with one tag. -/
def oneTag : CsvRoot where
  file path :=
    if path = "static/tag_0_0.csv" then some ⟨["id", "name", "hasType"], [.ok ["3", "Cello", "5"]]⟩
    else some ⟨[], []⟩
  updates := []

/-- A stream that cannot be read, and a like after it. -/
theorem reached_serve_oneTag :
    ∃ store, importSnbFullDir 0 oneTag = .ok store ∧
      let failed := importSnbUpdates [⟨"updateStream_0_0_forum.csv", [.error .error]⟩] store 2
      failed.result = .error .error ∧
        let g := (StoredGraph.open failed.store []).serve [(Update.likePost 1 7 3).request]
        g.Mirrored ∧ Stored.WellKeyed g.vertices := by
  obtain ⟨store, hstore⟩ : ∃ store, importSnbFullDir 0 oneTag = .ok store := ⟨_, rfl⟩
  exact ⟨store, hstore, rfl, reached_serve ((StoreDir.Reached.full hstore).updates _ 2) _ _⟩

end LsmGraph
