import LsmGraph.Loader.VertexFiles

/-! # Fields of vertices and their edges

Some fields of a vertex name other vertices: a comment names its creator, its place and the message it
answers. Imports and updates write such a field twice, into the line of the vertex and as an edge, and
they read it in two ways: `get_i64` takes any number, while for the edge `-1` stands for no id. A
successful import keeps the two together, and so does every request; what a stored vertex names is then
found by a walk over edges, in both directions (`fieldEdge_listed`). A failed import does not: it leaves
lines of vertices behind, and the cache without their edges. -/

namespace LsmGraph

open UpdateStream VertexFiles

/-- An edge that the fields of a vertex name. -/
structure FieldEdge where
  srcLabel : VertexLabel
  dstLabel : VertexLabel
  edgeLabel : EdgeLabel
  src : Int64
  dst : Int64

def FieldEdge.triple (e : FieldEdge) : EdgeTriple :=
  (encodeVid e.srcLabel e.src, e.edgeLabel.asI32, encodeVid e.dstLabel e.dst)

/-- The edges a vertex names, its own id among them. -/
def Stored.VertexData.fieldEdges : VertexData → List FieldEdge
  | person p => [⟨.person, .place, .isLocatedIn, p.id, p.place⟩]
  | place p => p.isPartOf.toList.map fun place => ⟨.place, .place, .isPartOf, p.id, place⟩
  | organisation p => [⟨.organisation, .place, .isLocatedIn, p.id, p.place⟩]
  | post p =>
      [ ⟨.post, .person, .hasCreator, p.id, p.creator⟩,
        ⟨.forum, .post, .containerOf, p.forumId, p.id⟩,
        ⟨.post, .place, .isLocatedIn, p.id, p.place⟩ ]
  | comment c =>
      [ ⟨.comment, .person, .hasCreator, c.id, c.creator⟩,
        ⟨.comment, .place, .isLocatedIn, c.id, c.place⟩ ] ++
      c.replyOfPost.toList.map (fun post => ⟨.comment, .post, .replyOfPost, c.id, post⟩) ++
      c.replyOfComment.toList.map fun parent => ⟨.comment, .comment, .replyOfComment, c.id, parent⟩
  | forum f => [⟨.forum, .person, .hasModerator, f.id, f.moderator⟩]
  | tag t => [⟨.tag, .tagClass, .hasType, t.id, t.hasType⟩]
  | tagClass t =>
      t.isSubclassOf.toList.map fun parent => ⟨.tagClass, .tagClass, .isSubclassOf, t.id, parent⟩

/-- Every edge that the vertex names is there; `-1` names nothing. -/
def Stored.VertexData.BackedBy (data : VertexData) (E : Set EdgeTriple) : Prop :=
  ∀ e ∈ data.fieldEdges, e.src ≠ -1 → e.dst ≠ -1 → e.triple ∈ E

theorem Stored.VertexData.BackedBy.mono {data : VertexData} {E F : Set EdgeTriple}
    (h : data.BackedBy E) (hsub : ∀ a ∈ E, a ∈ F) : data.BackedBy F :=
  fun e he hsrc hdst => hsub _ (h e he hsrc hdst)

/-! ## One record -/

theorem not_isWhitespace_of_parseDigits {digits : List Char} {n : Nat}
    (h : Base.parseDigits digits = some n) : ∀ c ∈ digits, isWhitespace c = false := by
  intro c hc
  rw [Base.parseDigits] at h
  split at h
  · cases h
  · rename_i hdigits
    have hdigit : c.isDigit = true := by
      by_contra hnot
      exact hdigits (Or.inr (List.any_eq_true.mpr ⟨c, hc, by simpa using hnot⟩))
    exact isWhitespace_of_mem_numeric c (mem_numeric_of_isDigit hdigit)

/-- A number is digits, after a sign or without one. -/
theorem digits_of_parseI64Text {raw : List Char} {v : Int} (h : Base.parseI64Text raw = some v) :
    ∃ sign ∈ [[], ['-'], ['+']], ∃ digits n, raw = sign ++ digits ∧
      Base.parseDigits digits = some n := by
  obtain ⟨hsigned, -⟩ := Option.filter_eq_some_iff.mp h
  split at hsigned
  · rename_i digits
    cases hdigits : Base.parseDigits digits with
    | none => simp [hdigits] at hsigned
    | some n => exact ⟨['-'], by decide, digits, n, rfl, hdigits⟩
  · rename_i digits
    cases hdigits : Base.parseDigits digits with
    | none => simp [hdigits] at hsigned
    | some n => exact ⟨['+'], by decide, digits, n, rfl, hdigits⟩
  · cases hdigits : Base.parseDigits raw with
    | none => simp [hdigits] at hsigned
    | some n => exact ⟨[], by decide, raw, n, rfl, hdigits⟩

/-- Nothing of a number is trimmed away. -/
theorem trim_of_parseI64 {raw : List Char} {v : Int64} (h : parseI64 raw = .ok v) :
    trim raw = raw ∧ raw ≠ [] := by
  rw [parseI64] at h
  split at h
  · rename_i n hn
    obtain ⟨sign, hsign, digits, n, rfl, hdigits⟩ := digits_of_parseI64Text hn
    have hblank : ∀ sign ∈ [[], ['-'], ['+']], ∀ c ∈ sign, isWhitespace c = false := by
      simp [isWhitespace]
    refine ⟨trim_eq_self fun c hc => ?_, fun hnil => ?_⟩
    · rcases List.mem_append.mp hc with hc | hc
      · exact hblank sign hsign c hc
      · exact not_isWhitespace_of_parseDigits hdigits c hc
    · rw [(List.append_eq_nil_iff.mp hnil).2] at hdigits
      cases hdigits
  · cases h

/-- What a vertex reads from a column, its edges read too, unless it is `-1`. -/
theorem get_of_getI64 {headers record : List String} {name : String} {v : Int64}
    (h : getI64 headers record name = .ok v) (hv : v ≠ -1) :
    (ColRef.name name).get headers record = .ok (some v) := by
  have hparse : parseI64 ((ColRef.name name).text headers record).toList = .ok v := h
  obtain ⟨htrim, hne⟩ := trim_of_parseI64 hparse
  have hminus : ((ColRef.name name).text headers record).toList ≠ ['-', '1'] := by
    intro heq
    rw [heq] at hparse
    exact hv (Except.ok.inj hparse).symm
  rw [ColRef.get, parseOptionalI64, htrim, if_neg (not_or.mpr ⟨hne, hminus⟩), hparse]
  rfl

/-- The full import makes the edge of the record. -/
def ReadBy (path : String) (headers record : List String) (e : FieldEdge) : Prop :=
  ∃ srcCol dstCol,
    namedEdge path e.srcLabel e.dstLabel e.edgeLabel srcCol dstCol ∈ fullImportFiles ∧
      (ColRef.name srcCol).get headers record = .ok (some e.src) ∧
      (ColRef.name dstCol).get headers record = .ok (some e.dst)

theorem readBy_of_get {path : String} {headers record : List String} {e : FieldEdge}
    {srcCol dstCol : String}
    (hc : namedEdge path e.srcLabel e.dstLabel e.edgeLabel srcCol dstCol ∈ fullImportFiles)
    (hsrc : (ColRef.name srcCol).get headers record = .ok (some e.src))
    (hdst : (ColRef.name dstCol).get headers record = .ok (some e.dst)) :
    ReadBy path headers record e :=
  ⟨srcCol, dstCol, hc, hsrc, hdst⟩

/-- **One record**: the edges that its vertex names are those of named edge files of the same path. -/
theorem readBy_of_build {f : VertexFile} (hf : f ∈ vertexFiles) {headers record : List String}
    {data : Stored.VertexData} (h : f.build headers record = .ok data) {e : FieldEdge}
    (he : e ∈ data.fieldEdges) (hsrc : e.src ≠ -1) (hdst : e.dst ≠ -1) :
    ReadBy f.path headers record e := by
  simp only [vertexFiles, List.mem_cons, List.not_mem_nil, or_false] at hf
  rcases hf with rfl | rfl | rfl | rfl | rfl | rfl | rfl | rfl
  · simp only [buildPlace, Base.bind_eq_ok] at h
    obtain ⟨id, hid, isPartOf, hpart, h⟩ := h
    obtain rfl := Except.ok.inj h
    obtain ⟨place, hplace, rfl⟩ := List.mem_map.mp he
    obtain rfl := Option.mem_toList.mp hplace
    exact readBy_of_get (by decide :
        namedEdge "static/place_0_0.csv" .place .place .isPartOf "id" "isPartOf" ∈ _)
      (get_of_getI64 hid hsrc) hpart
  · simp only [buildOrganisation, Base.bind_eq_ok] at h
    obtain ⟨id, hid, place, hplace, h⟩ := h
    obtain rfl := Except.ok.inj h
    obtain rfl := List.mem_singleton.mp he
    exact readBy_of_get (by decide :
        namedEdge "static/organisation_0_0.csv" .organisation .place .isLocatedIn "id" "place" ∈ _)
      (get_of_getI64 hid hsrc) (get_of_getI64 hplace hdst)
  · simp only [buildTag, Base.bind_eq_ok] at h
    obtain ⟨id, hid, hasType, htype, h⟩ := h
    obtain rfl := Except.ok.inj h
    obtain rfl := List.mem_singleton.mp he
    exact readBy_of_get (by decide :
        namedEdge "static/tag_0_0.csv" .tag .tagClass .hasType "id" "hasType" ∈ _)
      (get_of_getI64 hid hsrc) (get_of_getI64 htype hdst)
  · simp only [buildTagClass, Base.bind_eq_ok] at h
    obtain ⟨id, hid, parent, hparent, h⟩ := h
    obtain rfl := Except.ok.inj h
    obtain ⟨parent, hmem, rfl⟩ := List.mem_map.mp he
    obtain rfl := Option.mem_toList.mp hmem
    exact readBy_of_get (by decide :
        namedEdge "static/tagclass_0_0.csv" .tagClass .tagClass .isSubclassOf "id" "isSubclassOf" ∈ _)
      (get_of_getI64 hid hsrc) hparent
  · simp only [buildPerson, Base.bind_eq_ok] at h
    obtain ⟨id, hid, _, -, _, -, place, hplace, h⟩ := h
    obtain rfl := Except.ok.inj h
    obtain rfl := List.mem_singleton.mp he
    exact readBy_of_get (by decide :
        namedEdge "dynamic/person_0_0.csv" .person .place .isLocatedIn "id" "place" ∈ _)
      (get_of_getI64 hid hsrc) (get_of_getI64 hplace hdst)
  · simp only [buildForum, Base.bind_eq_ok] at h
    obtain ⟨id, hid, _, -, moderator, hmoderator, h⟩ := h
    obtain rfl := Except.ok.inj h
    obtain rfl := List.mem_singleton.mp he
    exact readBy_of_get (by decide :
        namedEdge "dynamic/forum_0_0.csv" .forum .person .hasModerator "id" "moderator" ∈ _)
      (get_of_getI64 hid hsrc) (get_of_getI64 hmoderator hdst)
  · simp only [buildPost, Base.bind_eq_ok] at h
    obtain ⟨id, hid, _, -, _, -, creator, hcreator, forum, hforum, place, hplace, h⟩ := h
    obtain rfl := Except.ok.inj h
    simp only [Stored.VertexData.fieldEdges, List.mem_cons, List.not_mem_nil, or_false] at he
    rcases he with rfl | rfl | rfl
    · exact readBy_of_get (by decide :
          namedEdge "dynamic/post_0_0.csv" .post .person .hasCreator "id" "creator" ∈ _)
        (get_of_getI64 hid hsrc) (get_of_getI64 hcreator hdst)
    · exact readBy_of_get (by decide :
          namedEdge "dynamic/post_0_0.csv" .forum .post .containerOf "Forum.id" "id" ∈ _)
        (get_of_getI64 hforum hsrc) (get_of_getI64 hid hdst)
    · exact readBy_of_get (by decide :
          namedEdge "dynamic/post_0_0.csv" .post .place .isLocatedIn "id" "place" ∈ _)
        (get_of_getI64 hid hsrc) (get_of_getI64 hplace hdst)
  · simp only [buildComment, Base.bind_eq_ok] at h
    obtain ⟨id, hid, _, -, _, -, creator, hcreator, place, hplace, post, hpost, parent, hparent, h⟩ := h
    obtain rfl := Except.ok.inj h
    simp only [Stored.VertexData.fieldEdges, List.mem_append, List.mem_cons, List.not_mem_nil, or_false,
      List.mem_map, Option.mem_toList] at he
    rcases he with ((rfl | rfl) | ⟨v, rfl, rfl⟩) | ⟨v, rfl, rfl⟩
    · exact readBy_of_get (by decide :
          namedEdge "dynamic/comment_0_0.csv" .comment .person .hasCreator "id" "creator" ∈ _)
        (get_of_getI64 hid hsrc) (get_of_getI64 hcreator hdst)
    · exact readBy_of_get (by decide :
          namedEdge "dynamic/comment_0_0.csv" .comment .place .isLocatedIn "id" "place" ∈ _)
        (get_of_getI64 hid hsrc) (get_of_getI64 hplace hdst)
    · exact readBy_of_get (by decide :
          namedEdge "dynamic/comment_0_0.csv" .comment .post .replyOfPost "id" "replyOfPost" ∈ _)
        (get_of_getI64 hid hsrc) hpost
    · exact readBy_of_get (by decide :
          namedEdge "dynamic/comment_0_0.csv" .comment .comment .replyOfComment "id" "replyOfComment" ∈ _)
        (get_of_getI64 hid hsrc) hparent

/-! ## A full import -/

theorem triple_mem_insertionsOf {calls : List EdgeCall} {c : EdgeCall} (h : c ∈ calls) :
    (c.src, c.edgeLabel.asI32, c.dst) ∈ (insertionsOf calls).map EdgeInsertion.triple :=
  List.mem_map.mpr
    ⟨⟨c.src, c.dst, c.edgeLabel.asI32, c.prop⟩, List.mem_flatMap.mpr ⟨c, h, List.mem_cons_self⟩, rfl⟩

/-- The edge is among the insertions of the import. -/
theorem ReadBy.triple_mem {root : CsvRoot}
    (hread : ∀ c ∈ fullImportFiles, c.readRows root = .ok (rowsOf root c.toEdgeFileSpec))
    {path : String} {file : Base.CsvFile} (hfile : root.file path = some file) {record : List String}
    (hrecord : .ok record ∈ file.records) {e : FieldEdge} (h : ReadBy path file.header record e) :
    e.triple ∈ (insertionsOf (fullImportCalls (rowsOf root))).map EdgeInsertion.triple := by
  obtain ⟨srcCol, dstCol, hc, hsrc, hdst⟩ := h
  let c := namedEdge path e.srcLabel e.dstLabel e.edgeLabel srcCol dstCol
  have hrow : c.readRow file.header (.ok record) = .ok ⟨some e.src, some e.dst, .empty⟩ := by
    have hsrc' : c.srcCol.get file.header record = .ok (some e.src) := hsrc
    have hdst' : c.dstCol.get file.header record = .ok (some e.dst) := hdst
    show c.readRecord file.header record = _
    rw [EdgeFileCall.readRecord, hsrc']
    show (c.dstCol.get file.header record >>= _) = _
    rw [hdst']
    rfl
  have hrows : (⟨some e.src, some e.dst, .empty⟩ : EdgeRow) ∈ rowsOf root c.toEdgeFileSpec := by
    have hall := hread c hc
    have hopen : root.file c.path = some file := hfile
    rw [EdgeFileCall.readRows, hopen] at hall
    exact (mem_of_mapM_ok hall _).mpr ⟨_, hrecord, hrow⟩
  have hspec : c.toEdgeFileSpec ∈ edgeFiles := edgeFiles_eq ▸ List.mem_map_of_mem hc
  exact triple_mem_insertionsOf (c := ⟨encodeVid e.srcLabel e.src, encodeVid e.dstLabel e.dst,
    e.edgeLabel, .empty, true⟩) (List.mem_flatMap.mpr ⟨c.toEdgeFileSpec, hspec,
      List.mem_flatMap.mpr ⟨_, hrows, List.mem_cons_self⟩⟩)

/-! ## Updates -/

/-- **One update** makes the edges that its vertex names. -/
theorem triple_mem_of_vertexRow {u : Update} {row : Stored.VertexRow} (hu : u.vertexRow = some row)
    {e : FieldEdge} (he : e ∈ row.data.fieldEdges) :
    e.triple ∈ (insertionsOf u.toSnb.calls).map EdgeInsertion.triple := by
  have hcall : ⟨encodeVid e.srcLabel e.src, encodeVid e.dstLabel e.dst, e.edgeLabel, .empty, true⟩ ∈
      u.toSnb.calls := by
    cases u with
    | addPerson p tags studyAt workAt =>
        cases hu
        obtain rfl := List.mem_singleton.mp he
        simp [Update.toSnb, SnbUpdate.calls, applyAddPerson, ownEdge, edgeCalls]
    | addForum f tags =>
        cases hu
        obtain rfl := List.mem_singleton.mp he
        simp [Update.toSnb, SnbUpdate.calls, applyAddForum, ownEdge, edgeCalls]
    | addPost p tags =>
        cases hu
        simp only [Stored.VertexData.fieldEdges, List.mem_cons, List.not_mem_nil, or_false] at he
        rcases he with rfl | rfl | rfl <;>
          simp [Update.toSnb, SnbUpdate.calls, applyAddPost, ownEdge, edgeCalls]
    | addComment c tags =>
        cases hu
        simp only [Stored.VertexData.fieldEdges, List.mem_append, List.mem_cons, List.not_mem_nil,
          or_false, List.mem_map, Option.mem_toList] at he
        rcases he with ((rfl | rfl) | ⟨v, hv, rfl⟩) | ⟨v, hv, rfl⟩ <;>
          simp [Update.toSnb, SnbUpdate.calls, applyAddComment, ownEdge, edgeCalls, *]
    | likePost person post date => cases hu
    | likeComment person comment date => cases hu
    | joinForum forum person date => cases hu
    | know person1 person2 date => cases hu
  exact triple_mem_insertionsOf hcall

theorem mem_insertionsOfUpdates {updates : List Update} {u : Update} (hu : u ∈ updates)
    {a : EdgeTriple} (ha : a ∈ (insertionsOf u.toSnb.calls).map EdgeInsertion.triple) :
    a ∈ (insertionsOfUpdates updates).map EdgeInsertion.triple := by
  obtain ⟨e, he, rfl⟩ := List.mem_map.mp ha
  rw [insertionsOfUpdates, insertionsOf_flatMap, List.flatMap_map]
  exact List.mem_map_of_mem (List.mem_flatMap.mpr ⟨u, hu, he⟩)

/-! ## Stores and graphs -/

/-- Every vertex in the file is backed by the edges of the cache. -/
def UpdateStream.StoreDir.Backed (store : StoreDir) : Prop :=
  ∃ adjacency, store.cache = some adjacency ∧
    ∀ row ∈ store.vertices, row.data.BackedBy (adjacencyEdges adjacency)

/-- Every stored vertex is backed by the edges of the graph. -/
def StoredGraph.Backed (g : StoredGraph) : Prop :=
  ∀ vid data, g.vertices.get vid = some data → data.BackedBy (adjacencyEdges g.adjacency)

/-- The stores that imports make when they succeed. -/
inductive UpdateStream.StoreDir.Complete : StoreDir → Prop
  | full {clock : Timestamp} {root : CsvRoot} {store : StoreDir}
      (h : importSnbFullDir clock root = .ok store) : Complete store
  | updates {store : StoreDir} (h : Complete store) {dir : List StreamFile} {clock : Timestamp}
      {stats : ImportStats} (hok : (importSnbUpdates dir store clock).result = .ok stats) :
      Complete (importSnbUpdates dir store clock).store

theorem UpdateStream.StoreDir.Complete.reached {store : StoreDir} (h : store.Complete) :
    store.Reached := by
  induction h with
  | full h => exact .full h
  | updates _ _ ih => exact ih.updates _ _

theorem UpdateStream.StoreDir.backed_full {clock : Timestamp} {root : CsvRoot} {store : StoreDir}
    (h : importSnbFullDir clock root = .ok store) : store.Backed := by
  obtain ⟨vertices, hvertices, h⟩ := Base.bind_eq_ok.mp h
  obtain ⟨edges, hedges, h⟩ := Base.bind_eq_ok.mp h
  obtain rfl := Except.ok.inj h
  obtain ⟨rfl, hread⟩ := importSnbFullCsv_eq hedges
  refine ⟨_, rfl, fun row hrow e he hsrc hdst => ?_⟩
  obtain ⟨f, hf, file, hfile, record, hrecord, hbuild, -⟩ := record_of_importVertices hvertices row hrow
  exact (mem_adjacencyEdges_build _ _ _ _).mpr
    (Or.inr (ReadBy.triple_mem hread hfile hrecord (readBy_of_build hf hbuild he hsrc hdst)))

/-- **Step lemma** for an import of streams. -/
theorem UpdateStream.StoreDir.Backed.updates {store : StoreDir} (h : store.Backed)
    {dir : List StreamFile} {clock : Timestamp} {stats : ImportStats}
    (hok : (importSnbUpdates dir store clock).result = .ok stats) :
    (importSnbUpdates dir store clock).store.Backed := by
  obtain ⟨adjacency, hcache, hrows⟩ := h
  rcases hread : readStreams dir with ⟨updates, rows, failure⟩
  cases failure with
  | some e =>
      rw [importSnbUpdates_of_failure hread] at hok
      cases hok
  | none =>
      rw [importSnbUpdates_of_read hread]
      refine ⟨_, rfl, fun row hrow => ?_⟩
      rcases List.mem_append.mp hrow with hold | hnew
      · -- the builder starts from the cache
        refine (hrows row hold).mono fun a ha => (mem_adjacencyEdges_build _ _ _ _).mpr (Or.inl ?_)
        exact (mem_startBuilder _ _ _).mpr ⟨adjacency, hcache, ha⟩
      · obtain ⟨u, hu, hrow⟩ := List.mem_filterMap.mp hnew
        exact fun e he _ _ => (mem_adjacencyEdges_build _ _ _ _).mpr
          (Or.inr (mem_insertionsOfUpdates hu (triple_mem_of_vertexRow hrow he)))

theorem UpdateStream.StoreDir.Complete.backed {store : StoreDir} (h : store.Complete) :
    store.Backed := by
  induction h with
  | full h => exact backed_full h
  | updates _ hok ih => exact ih.updates hok

namespace StoredGraph

theorem backed_open {store : StoreDir} (h : store.Backed) (scan : List EdgeRecord) :
    (StoredGraph.open store scan).Backed := by
  obtain ⟨adjacency, hcache, hrows⟩ := h
  have hopen : (StoredGraph.open store scan).adjacency = adjacency := by
    show (SnbGraph.open store.toSnbStore scan).adjacency = adjacency
    rw [SnbGraph.open, hcache]
  intro vid data hget
  obtain ⟨row, hrow, rfl⟩ := Stored.row_of_loadVertices hget
  rw [hopen]
  exact hrows row hrow

/-- **Step lemma** for a request. -/
theorem Backed.applyUpdate {g : StoredGraph} (h : g.Backed) (u : Update) : (g.applyUpdate u).Backed := by
  have hedges : ∀ a, a ∈ adjacencyEdges (g.applyUpdate u).adjacency ↔
      a ∈ adjacencyEdges g.adjacency ∨
        a ∈ (insertionsOf u.toSnb.calls).map EdgeInsertion.triple := by
    intro a
    rw [toSnbGraph_applyUpdate]
    exact mem_adjacencyEdges_insertEdges _ _ a
  have hold : ∀ vid data, g.vertices.get vid = some data →
      data.BackedBy (adjacencyEdges (g.applyUpdate u).adjacency) := fun vid data hget =>
    (h vid data hget).mono fun a ha => (hedges a).mpr (Or.inl ha)
  intro vid data hget
  cases hrow : u.vertexRow with
  | none =>
      rw [StoredGraph.applyUpdate, hrow] at hget
      exact hold vid data hget
  | some row =>
      rw [StoredGraph.applyUpdate, hrow] at hget
      dsimp only at hget
      rw [Tally.Table.get_insert] at hget
      split at hget
      · cases hget
        exact fun e he _ _ => (hedges _).mpr (Or.inr (triple_mem_of_vertexRow hrow he))
      · exact hold vid data hget

theorem Backed.foldl_applyUpdate {g : StoredGraph} (h : g.Backed) (updates : List Update) :
    (updates.foldl StoredGraph.applyUpdate g).Backed := by
  induction updates generalizing g with
  | nil => exact h
  | cons u updates ih => exact ih (h.applyUpdate u)

end StoredGraph

theorem edgeLabel_ne_knows (data : Stored.VertexData) :
    ∀ e ∈ data.fieldEdges, e.edgeLabel ≠ .knows := by
  cases data <;> simp [Stored.VertexData.fieldEdges, or_imp, forall_and]

/-- **What a vertex names is found over its edges.** A store is made by imports that all succeed; a graph
is opened from it and serves any requests. Whatever vertex is stored then, and whatever vertex its fields
name, the two are neighbours, one among the out-neighbours and the other among the in-neighbours. -/
theorem fieldEdge_listed {store : StoreDir} (h : store.Complete) (scan : List EdgeRecord)
    (requests : List (String × Json)) :
    let g := (StoredGraph.open store scan).serve requests
    ∀ vid data, g.vertices.get vid = some data → ∀ e ∈ data.fieldEdges, e.src ≠ -1 → e.dst ≠ -1 →
      encodeVid e.dstLabel e.dst ∈ g.outNeighborsCached (encodeVid e.srcLabel e.src) e.edgeLabel ∧
        encodeVid e.srcLabel e.src ∈ g.inNeighborsCached (encodeVid e.dstLabel e.dst) e.edgeLabel := by
  intro g vid data hget e he hsrc hdst
  have hg : g = (requests.filterMap fun r => readRequest r.1 r.2).foldl StoredGraph.applyUpdate
      (StoredGraph.open store scan) := StoredGraph.serve_eq _ _
  have hmirrored : g.Mirrored := (h.reached.served scan requests).1
  have hbacked : g.Backed := by
    rw [hg]
    exact (StoredGraph.backed_open h.backed scan).foldl_applyUpdate _
  have hforward := hbacked vid data hget e he hsrc hdst
  exact ⟨hforward, (hmirrored.edges _ _ (.reverse _ _ _ (edgeLabel_ne_knows data e he))).mp hforward⟩

theorem fieldEdge_listed_oneTag :
    ∃ store, importSnbFullDir 0 oneTag = .ok store ∧
      let g := (StoredGraph.open store []).serve [(Update.likePost 1 7 3).request]
      g.vertices.get (encodeVid .tag 3) = some (.tag ⟨3, "Cello", 5⟩) ∧
        encodeVid .tagClass 5 ∈ g.outNeighborsCached (encodeVid .tag 3) .hasType ∧
          encodeVid .tag 3 ∈ g.inNeighborsCached (encodeVid .tagClass 5) .hasType := by
  obtain ⟨store, hstore, hvertices⟩ : ∃ store, importSnbFullDir 0 oneTag = .ok store ∧
      store.vertices = [⟨encodeVid .tag 3, .tag ⟨3, "Cello", 5⟩⟩] := ⟨_, rfl, rfl⟩
  have hget : ((StoredGraph.open store []).serve [(Update.likePost 1 7 3).request]).vertices.get
      (encodeVid .tag 3) = some (.tag ⟨3, "Cello", 5⟩) := by
    show (Stored.loadVertices store.vertices).get (encodeVid .tag 3) = _
    rw [hvertices]
    rfl
  have hlisted := fieldEdge_listed (.full hstore) [] [(Update.likePost 1 7 3).request]
    (encodeVid .tag 3) (.tag ⟨3, "Cello", 5⟩) hget ⟨.tag, .tagClass, .hasType, 3, 5⟩
    List.mem_cons_self (by decide) (by decide)
  exact ⟨store, hstore, hget, hlisted⟩

end LsmGraph
