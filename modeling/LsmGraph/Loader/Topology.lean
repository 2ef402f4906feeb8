import LsmGraph.Snb.EdgeProps
import LsmGraph.Snb.UpdateCache

/-! # The topology loader

`loader/snb.rs` reads the edge files of a benchmark directory into an engine, with the ids as they
stand in the files. Columns are found by position (`importIndexEdgeFile`) or by name
(`importNamedEdgeFile`); a record that cannot be read ends the import, and what was inserted before
stays. `topology_lookup` says what the engine returns after a successful import, whatever maintenance,
I/O faults and crashes follow it. -/

namespace LsmGraph

open ErrorState Transition

structure ImportStats where
  inputRows : Nat
  directedEdges : Nat
  deriving DecidableEq, Repr

def ImportStats.zero : ImportStats := ⟨0, 0⟩

def ImportStats.add (stats other : ImportStats) : ImportStats where
  inputRows := stats.inputRows + other.inputRows
  directedEdges := stats.directedEdges + other.directedEdges

/-- The edges inserted so far, and how the import ended. -/
structure FileImport where
  insertions : List EdgeInsertion
  result : Except ReadFailure ImportStats

/-! ## Reading a file -/

/-- `str::parse::<u64>`. -/
def parseVertexId (raw : List Char) : Except ReadFailure VertexId :=
  let digits :=
    match raw with
    | '+' :: digits => digits
    | digits => digits
  match (Base.parseDigits digits).filter fun n => n < 2 ^ 64 with
  | some n => .ok (UInt64.ofNat n)
  | none => .error .error

/-- The edges of one record, and by how much it raises `directed_edges`. -/
structure RecordEdges where
  edges : List EdgeInsertion
  directed : Nat

/-- An edge, and the opposite one if it is `bidirectional`. -/
def recordEdges (edgeType : EdgeType) (bidirectional : Bool) (src dst : VertexId) : RecordEdges :=
  if bidirectional then
    ⟨[⟨src, dst, edgeType, .empty⟩, ⟨dst, src, edgeType, .empty⟩], 2⟩
  else ⟨[⟨src, dst, edgeType, .empty⟩], 1⟩

/-- The record of an edge file with columns by position. -/
def indexRecord (edgeType : EdgeType) (bidirectional : Bool) (srcIdx dstIdx : Nat)
    (record : List String) : Except ReadFailure RecordEdges := do
  let src ← column record srcIdx >>= parseVertexId
  let dst ← column record dstIdx >>= parseVertexId
  .ok (recordEdges edgeType bidirectional src dst)

/-- The record of an edge file with columns by name; a record without one of the ids has no edge. -/
def namedRecord (edgeType : EdgeType) (srcIdx dstIdx : Nat) (record : List String) :
    Except ReadFailure RecordEdges :=
  let srcRaw := trim (record.getD srcIdx "").toList
  let dstRaw := trim (record.getD dstIdx "").toList
  if srcRaw = [] ∨ dstRaw = [] then .ok ⟨[], 0⟩
  else do
    let src ← parseVertexId srcRaw
    let dst ← parseVertexId dstRaw
    .ok (recordEdges edgeType false src dst)

/-- The loop over the records of a file. -/
def importRecords (read : List String → Except ReadFailure RecordEdges) (stats : ImportStats) :
    List (Except Base.BuildError (List String)) → FileImport
  | [] => ⟨[], .ok stats⟩
  | record :: records =>
      match record with
      | .error _ => ⟨[], .error .error⟩
      | .ok record =>
          match read record with
          | .error e => ⟨[], .error e⟩
          | .ok row =>
              let rest := importRecords read
                ⟨stats.inputRows + 1, stats.directedEdges + row.directed⟩ records
              ⟨row.edges ++ rest.insertions, rest.result⟩

def importIndexEdgeFile (file : Option Base.CsvFile) (edgeType : EdgeType) (bidirectional : Bool)
    (srcIdx dstIdx : Nat) : FileImport :=
  match file with
  | none => ⟨[], .error .error⟩
  | some file =>
      importRecords (indexRecord edgeType bidirectional srcIdx dstIdx) .zero file.records

/-- `import_named_edge_file_inner`, which is never called with `bidirectional`. -/
def importNamedEdgeFile (file : Option Base.CsvFile) (srcCol dstCol : String) (edgeType : EdgeType) :
    FileImport :=
  match file with
  | none => ⟨[], .error .error⟩
  | some file =>
      match file.header.findIdx? (· = srcCol), file.header.findIdx? (· = dstCol) with
      | some srcIdx, some dstIdx =>
          importRecords (namedRecord edgeType srcIdx dstIdx) .zero file.records
      | _, _ => ⟨[], .error .error⟩

/-! ## Reading a directory -/

/-- The arguments of one call of `import_index_edge_file`, with the columns 0 and 1, or of
`import_named_edge_file`. -/
inductive TopologyFile
  | index (path : String) (edgeLabel : EdgeLabel) (bidirectional : Bool)
  | named (path : String) (srcCol dstCol : String) (edgeLabel : EdgeLabel)
  deriving DecidableEq, Repr

def TopologyFile.edgeLabel : TopologyFile → EdgeLabel
  | index _ edgeLabel _ => edgeLabel
  | named _ _ _ edgeLabel => edgeLabel

def TopologyFile.run (root : String → Option Base.CsvFile) : TopologyFile → FileImport
  | index path edgeLabel bidirectional =>
      importIndexEdgeFile (root path) edgeLabel.asI32 bidirectional 0 1
  | named path srcCol dstCol edgeLabel =>
      importNamedEdgeFile (root path) srcCol dstCol edgeLabel.asI32

def personKnowsFile : TopologyFile := .index "dynamic/person_knows_person_0_0.csv" .knows true

/-- The calls of `import_snb_topology`, in order. -/
def topologyFiles : List TopologyFile :=
  [ personKnowsFile,
    .index "dynamic/person_likes_comment_0_0.csv" .likesComment false,
    .index "dynamic/person_likes_post_0_0.csv" .likesPost false,
    .index "dynamic/person_hasInterest_tag_0_0.csv" .hasInterest false,
    .index "dynamic/person_studyAt_organisation_0_0.csv" .studyAt false,
    .index "dynamic/person_workAt_organisation_0_0.csv" .workAt false,
    .index "dynamic/forum_hasMember_person_0_0.csv" .hasMember false,
    .index "dynamic/forum_hasTag_tag_0_0.csv" .hasTag false,
    .index "dynamic/comment_hasTag_tag_0_0.csv" .hasTag false,
    .index "dynamic/post_hasTag_tag_0_0.csv" .hasTag false,
    .named "dynamic/person_0_0.csv" "id" "place" .isLocatedIn,
    .named "dynamic/forum_0_0.csv" "id" "moderator" .hasModerator,
    .named "dynamic/post_0_0.csv" "id" "creator" .hasCreator,
    .named "dynamic/post_0_0.csv" "Forum.id" "id" .containerOf,
    .named "dynamic/post_0_0.csv" "id" "place" .isLocatedIn,
    .named "dynamic/comment_0_0.csv" "id" "creator" .hasCreator,
    .named "dynamic/comment_0_0.csv" "id" "place" .isLocatedIn,
    .named "dynamic/comment_0_0.csv" "id" "replyOfPost" .replyOfPost,
    .named "dynamic/comment_0_0.csv" "id" "replyOfComment" .replyOfComment,
    .named "static/organisation_0_0.csv" "id" "place" .isLocatedIn,
    .named "static/place_0_0.csv" "id" "isPartOf" .isPartOf,
    .named "static/tag_0_0.csv" "id" "hasType" .hasType,
    .named "static/tagclass_0_0.csv" "id" "isSubclassOf" .isSubclassOf ]

/-- Import files one after the other, until one fails. -/
def importFiles (root : String → Option Base.CsvFile) (stats : ImportStats) :
    List TopologyFile → FileImport
  | [] => ⟨[], .ok stats⟩
  | file :: files =>
      let done := file.run root
      match done.result with
      | .error e => ⟨done.insertions, .error e⟩
      | .ok fileStats =>
          let rest := importFiles root (stats.add fileStats) files
          ⟨done.insertions ++ rest.insertions, rest.result⟩

/-- `import_snb_topology`, up to its flush. -/
def importSnbTopology (root : String → Option Base.CsvFile) : FileImport :=
  importFiles root .zero topologyFiles

/-- `import_person_knows`, up to its flush. -/
def importPersonKnows (root : String → Option Base.CsvFile) : FileImport := personKnowsFile.run root

/-! ## What an import inserts -/

/-- `(src, dst)` are the ids of a record of the file, in this order or, for a file that is read in both
directions, the other. -/
def TopologyFile.Yields (root : String → Option Base.CsvFile) (src dst : VertexId) :
    TopologyFile → Prop
  | index path _ bidirectional =>
      ∃ file record a b, root path = some file ∧ .ok record ∈ file.records ∧
        (column record 0 >>= parseVertexId) = .ok a ∧ (column record 1 >>= parseVertexId) = .ok b ∧
        ((src = a ∧ dst = b) ∨ (bidirectional = true ∧ src = b ∧ dst = a))
  | named path srcCol dstCol _ =>
      ∃ file record i j, root path = some file ∧ .ok record ∈ file.records ∧
        file.header.findIdx? (· = srcCol) = some i ∧ file.header.findIdx? (· = dstCol) = some j ∧
        trim (record.getD i "").toList ≠ [] ∧ trim (record.getD j "").toList ≠ [] ∧
        parseVertexId (trim (record.getD i "").toList) = .ok src ∧
        parseVertexId (trim (record.getD j "").toList) = .ok dst

/-- **The loop over the records**: when it succeeds, every record was read, and the counters count. -/
theorem importRecords_ok {read : List String → Except ReadFailure RecordEdges} {stats stats' : ImportStats}
    {records : List (Except Base.BuildError (List String))}
    (h : (importRecords read stats records).result = .ok stats') :
    (∀ e, e ∈ (importRecords read stats records).insertions ↔
      ∃ record row, .ok record ∈ records ∧ read record = .ok row ∧ e ∈ row.edges) ∧
    ((∀ record row, read record = .ok row → row.directed = row.edges.length) →
      stats'.directedEdges =
        stats.directedEdges + (importRecords read stats records).insertions.length) ∧
    stats'.inputRows = stats.inputRows + records.length := by
  induction records generalizing stats with
  | nil =>
      rw [importRecords] at h ⊢
      cases h
      exact ⟨by simp, fun _ => rfl, rfl⟩
  | cons record records ih =>
      cases record with
      | error e =>
          rw [importRecords] at h
          cases h
      | ok record =>
          rw [importRecords] at h ⊢
          cases hread : read record with
          | error e =>
              rw [hread] at h
              cases h
          | ok row =>
              rw [hread] at h
              obtain ⟨hmem, hdirected, hrows⟩ := ih h
              dsimp only
              refine ⟨fun e => ?_, fun hcount => ?_, ?_⟩
              · rw [List.mem_append, hmem]
                constructor
                · rintro (he | ⟨record', row', hrecord', hread', he⟩)
                  · exact ⟨record, row, List.mem_cons_self, hread, he⟩
                  · exact ⟨record', row', List.mem_cons_of_mem _ hrecord', hread', he⟩
                · rintro ⟨record', row', hrecord', hread', he⟩
                  rcases List.mem_cons.mp hrecord' with heq | hrecord'
                  · cases heq
                    rw [hread] at hread'
                    cases hread'
                    exact Or.inl he
                  · exact Or.inr ⟨record', row', hrecord', hread', he⟩
              · rw [hdirected hcount, hcount record row hread, List.length_append, Nat.add_assoc]
              · rw [hrows, List.length_cons, ← Nat.add_assoc]
                exact Nat.add_right_comm _ _ _

/-- A successful loop has read every record. -/
theorem read_of_importRecords {read : List String → Except ReadFailure RecordEdges}
    {stats stats' : ImportStats} {records : List (Except Base.BuildError (List String))}
    (h : (importRecords read stats records).result = .ok stats') :
    ∀ record ∈ records, ∃ columns row, record = .ok columns ∧ read columns = .ok row := by
  induction records generalizing stats with
  | nil => exact fun record hrecord => absurd hrecord List.not_mem_nil
  | cons record records ih =>
      cases record with
      | error e =>
          rw [importRecords] at h
          cases h
      | ok columns =>
          rw [importRecords] at h
          cases hread : read columns with
          | error e =>
              rw [hread] at h
              cases h
          | ok row =>
              rw [hread] at h
              exact List.forall_mem_cons.mpr ⟨⟨columns, row, rfl, hread⟩, ih h⟩

theorem mem_recordEdges {edgeType : EdgeType} {bidirectional : Bool} {a b : VertexId}
    {e : EdgeInsertion} :
    e ∈ (recordEdges edgeType bidirectional a b).edges ↔ (e.edgeType = edgeType ∧ e.prop = .empty) ∧
      ((e.src = a ∧ e.dst = b) ∨ (bidirectional = true ∧ e.src = b ∧ e.dst = a)) := by
  have hedge : ∀ src dst : VertexId, e = ⟨src, dst, edgeType, .empty⟩ ↔
      (e.edgeType = edgeType ∧ e.prop = .empty) ∧ e.src = src ∧ e.dst = dst := by
    intro src dst
    rcases e with ⟨src', dst', t, prop⟩
    simp only [EdgeInsertion.mk.injEq]
    tauto
  cases bidirectional with
  | true => simp [recordEdges, hedge, and_or_left]
  | false => simp [recordEdges, hedge]

theorem directed_recordEdges (edgeType : EdgeType) (bidirectional : Bool) (a b : VertexId) :
    (recordEdges edgeType bidirectional a b).directed =
      (recordEdges edgeType bidirectional a b).edges.length := by
  cases bidirectional <;> rfl

/-- What a record with columns by position holds. -/
theorem indexRecord_eq_ok {edgeType : EdgeType} {bidirectional : Bool} {i j : Nat}
    {record : List String} {row : RecordEdges} :
    indexRecord edgeType bidirectional i j record = .ok row ↔
      ∃ a b, (column record i >>= parseVertexId) = .ok a ∧
        (column record j >>= parseVertexId) = .ok b ∧ recordEdges edgeType bidirectional a b = row := by
  rw [indexRecord, Base.bind_eq_ok]
  simp only [Base.bind_eq_ok (x := column record j >>= parseVertexId), Except.ok.injEq]
  tauto

/-- What a record with columns by name holds. -/
theorem namedRecord_eq_ok {edgeType : EdgeType} {i j : Nat} {record : List String}
    {row : RecordEdges} :
    namedRecord edgeType i j record = .ok row ↔
      ((trim (record.getD i "").toList = [] ∨ trim (record.getD j "").toList = []) ∧ ⟨[], 0⟩ = row) ∨
      (trim (record.getD i "").toList ≠ [] ∧ trim (record.getD j "").toList ≠ []) ∧
        ∃ a b, parseVertexId (trim (record.getD i "").toList) = .ok a ∧
          parseVertexId (trim (record.getD j "").toList) = .ok b ∧
          recordEdges edgeType false a b = row := by
  rw [namedRecord]
  split
  · rename_i hempty
    rw [Except.ok.injEq]
    constructor
    · exact fun hrow => Or.inl ⟨hempty, hrow⟩
    · rintro (⟨-, hrow⟩ | ⟨hboth, -⟩)
      · exact hrow
      · exact absurd hempty (not_or.mpr hboth)
  · rename_i hboth
    simp only [Base.bind_eq_ok, Except.ok.injEq]
    constructor
    · rintro ⟨a, ha, b, hb, hrow⟩
      exact Or.inr ⟨not_or.mp hboth, a, b, ha, hb, hrow⟩
    · rintro (⟨hempty, -⟩ | ⟨-, a, b, ha, hb, hrow⟩)
      · exact absurd hempty hboth
      · exact ⟨a, ha, b, hb, hrow⟩

/-- **One file**: it inserts the edges that its records yield, and counts them. -/
theorem TopologyFile.run_ok {root : String → Option Base.CsvFile} {file : TopologyFile}
    {stats : ImportStats} (h : (file.run root).result = .ok stats) :
    (∀ e, e ∈ (file.run root).insertions ↔
      (e.edgeType = file.edgeLabel.asI32 ∧ e.prop = .empty) ∧ file.Yields root e.src e.dst) ∧
      stats.directedEdges = (file.run root).insertions.length := by
  cases file with
  | index path edgeLabel bidirectional =>
      cases hfile : root path with
      | none =>
          rw [run, hfile, importIndexEdgeFile] at h
          cases h
      | some csv =>
          rw [run, hfile, importIndexEdgeFile] at h ⊢
          obtain ⟨hmem, hdirected, -⟩ := importRecords_ok h
          refine ⟨fun e => ?_, ?_⟩
          · rw [hmem]
            constructor
            · rintro ⟨record, row, hrecord, hread, he⟩
              obtain ⟨a, b, ha, hb, rfl⟩ := indexRecord_eq_ok.mp hread
              obtain ⟨htype, hids⟩ := mem_recordEdges.mp he
              exact ⟨htype, csv, record, a, b, hfile, hrecord, ha, hb, hids⟩
            · rintro ⟨htype, csv', record, a, b, hcsv, hrecord, ha, hb, hids⟩
              cases hfile.symm.trans hcsv
              exact ⟨record, _, hrecord, indexRecord_eq_ok.mpr ⟨a, b, ha, hb, rfl⟩,
                mem_recordEdges.mpr ⟨htype, hids⟩⟩
          · refine (hdirected fun record row hread => ?_).trans (Nat.zero_add _)
            obtain ⟨a, b, -, -, rfl⟩ := indexRecord_eq_ok.mp hread
            exact directed_recordEdges _ _ a b
  | named path srcCol dstCol edgeLabel =>
      cases hfile : root path with
      | none =>
          rw [run, hfile, importNamedEdgeFile] at h
          cases h
      | some csv =>
          rw [run, hfile, importNamedEdgeFile] at h ⊢
          split at h
          · rename_i i j hi hj
            obtain ⟨hmem, hdirected, -⟩ := importRecords_ok h
            refine ⟨fun e => ?_, ?_⟩
            · rw [hmem]
              constructor
              · rintro ⟨record, row, hrecord, hread, he⟩
                rcases namedRecord_eq_ok.mp hread with ⟨-, rfl⟩ | ⟨hboth, a, b, ha, hb, rfl⟩
                · exact absurd he List.not_mem_nil
                · obtain ⟨htype, hids⟩ := mem_recordEdges.mp he
                  obtain ⟨rfl, rfl⟩ := hids.resolve_right fun hrev => Bool.false_ne_true hrev.1
                  exact ⟨htype, csv, record, i, j, hfile, hrecord, hi, hj, hboth.1, hboth.2, ha, hb⟩
              · rintro ⟨htype, csv', record, i', j', hcsv, hrecord, hi', hj', hsrc, hdst, ha, hb⟩
                cases hfile.symm.trans hcsv
                cases hi.symm.trans hi'
                cases hj.symm.trans hj'
                exact ⟨record, _, hrecord,
                  namedRecord_eq_ok.mpr (Or.inr ⟨⟨hsrc, hdst⟩, e.src, e.dst, ha, hb, rfl⟩),
                  mem_recordEdges.mpr ⟨htype, Or.inl ⟨rfl, rfl⟩⟩⟩
            · refine (hdirected fun record row hread => ?_).trans (Nat.zero_add _)
              rcases namedRecord_eq_ok.mp hread with ⟨-, rfl⟩ | ⟨-, a, b, -, -, rfl⟩
              · rfl
              · exact directed_recordEdges _ _ a b
          · cases h

/-- **Many files**, when all of them are imported. -/
theorem importFiles_ok {root : String → Option Base.CsvFile} {files : List TopologyFile}
    {stats stats' : ImportStats} (h : (importFiles root stats files).result = .ok stats') :
    (∀ e, e ∈ (importFiles root stats files).insertions ↔ ∃ file ∈ files,
      (e.edgeType = file.edgeLabel.asI32 ∧ e.prop = .empty) ∧ file.Yields root e.src e.dst) ∧
      stats'.directedEdges =
        stats.directedEdges + (importFiles root stats files).insertions.length := by
  induction files generalizing stats with
  | nil =>
      rw [importFiles] at h ⊢
      cases h
      exact ⟨by simp, rfl⟩
  | cons file files ih =>
      rw [importFiles] at h ⊢
      dsimp only at h ⊢
      cases hrun : (file.run root).result with
      | error e =>
          rw [hrun] at h
          cases h
      | ok fileStats =>
          rw [hrun] at h
          obtain ⟨hmem, hdirected⟩ := ih h
          obtain ⟨hfile, hcount⟩ := TopologyFile.run_ok hrun
          dsimp only
          refine ⟨fun e => ?_, ?_⟩
          · rw [List.mem_append, hmem, hfile, List.exists_mem_cons_iff]
          · rw [hdirected, ImportStats.add, hcount, List.length_append, Nat.add_assoc]

end LsmGraph
