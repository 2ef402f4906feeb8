import LsmGraph.BaseGraph.Relations
import LsmGraph.Csr.Bytes
import LsmGraph.Snb.Import

/-! # The edge property file and its rebuild

`snb_edge_props.jsonl` is written by a full import, appended to by update imports, and written anew
by `rebuild_snb_edge_props`, which has its own list of files. This module adds to `Snb/Import` how
`import_edge_file` and `write_edge_prop_file` read a CSV record (`ColRef`, `PropSpec`), so that the
two lists of files can be compared. The rebuild writes what the full import wrote
(`rebuild_fullImport`); what an update import appended is in none of its files, and
`rebuild_keeps_iff` says when that loses nothing. -/

namespace LsmGraph

/-! ## Reading a record -/

/-- `char::is_whitespace`. -/
def isWhitespace (c : Char) : Bool :=
  c.val ∈ [0x20, 0x85, 0xa0, 0x1680, 0x2028, 0x2029, 0x202f, 0x205f, 0x3000] ||
    0x9 ≤ c.val && c.val ≤ 0xd || 0x2000 ≤ c.val && c.val ≤ 0x200a

/-- `str::trim`. -/
def trim (raw : List Char) : List Char :=
  ((raw.dropWhile isWhitespace).reverse.dropWhile isWhitespace).reverse

/-- `str::parse::<i64>`; a failure ends the import. -/
def parseI64 (raw : List Char) : Except ReadFailure Int64 :=
  match Base.parseI64Text raw with
  | some v => .ok (Int64.ofInt v)
  | none => .error .error

/-- `str::parse::<i32>`. -/
def parseI32 (raw : List Char) : Except ReadFailure Int32 :=
  match (Base.parseI64Text raw).filter fun v => -2 ^ 31 ≤ v && v < 2 ^ 31 with
  | some v => .ok (Int32.ofInt v)
  | none => .error .error

/-- A column that may be empty or `-1`. -/
def parseOptionalI64 (raw : String) : Except ReadFailure (Option Int64) :=
  let raw := trim raw.toList
  if raw = [] ∨ raw = ['-', '1'] then .ok none
  else do
    let v ← parseI64 raw
    .ok (some v)

inductive ColRef
  | index (i : Nat)
  | name (s : String)
  deriving DecidableEq, Repr

/-- The text of the column, empty if there is none. -/
def ColRef.text (headers record : List String) : ColRef → String
  | index i => record.getD i ""
  | name s => ((headers.findIdx? (· = s)).bind fun i => record[i]?).getD ""

def ColRef.get (headers record : List String) (col : ColRef) : Except ReadFailure (Option Int64) :=
  parseOptionalI64 (col.text headers record)

inductive PropSpec
  | none
  | i32Col (i : Nat)
  | i64Col (i : Nat)
  deriving DecidableEq, Repr

/-- `rec[i]`: a missing column is out of bounds. -/
def column (record : List String) (i : Nat) : Except ReadFailure (List Char) :=
  match record[i]? with
  | some raw => .ok raw.toList
  | none => .error .panic

def PropSpec.read (record : List String) : PropSpec → Except ReadFailure EdgeProp
  | none => .ok .empty
  | i32Col i => do
      let v ← parseI32 (← column record i)
      .ok (.i32 v)
  | i64Col i => do
      let v ← parseI64 (← column record i)
      .ok (.i64 v)

/-! ## The files of the two imports -/

/-- The arguments of `import_edge_file` and `write_edge_prop_file`. -/
structure EdgeFileCall extends EdgeFileSpec where
  srcCol : ColRef := .index 0
  dstCol : ColRef := .index 1
  propSpec : PropSpec := .none
  deriving DecidableEq, Repr

/-- `import_named_edge`. -/
def namedEdge (path : String) (srcLabel dstLabel : VertexLabel) (edgeLabel : EdgeLabel)
    (srcCol dstCol : String) : EdgeFileCall :=
  { path, srcLabel, dstLabel, edgeLabel, srcCol := .name srcCol, dstCol := .name dstCol }

/-- The calls of `import_snb_full`, in order. -/
def fullImportFiles : List EdgeFileCall :=
  [ { path := "dynamic/person_knows_person_0_0.csv", srcLabel := .person, dstLabel := .person
      edgeLabel := .knows, bidirectionalPositive := true, propSpec := .i64Col 2 },
    { path := "dynamic/person_likes_comment_0_0.csv", srcLabel := .person, dstLabel := .comment
      edgeLabel := .likesComment, propSpec := .i64Col 2 },
    { path := "dynamic/person_likes_post_0_0.csv", srcLabel := .person, dstLabel := .post
      edgeLabel := .likesPost, propSpec := .i64Col 2 },
    { path := "dynamic/person_hasInterest_tag_0_0.csv", srcLabel := .person, dstLabel := .tag
      edgeLabel := .hasInterest },
    { path := "dynamic/person_studyAt_organisation_0_0.csv", srcLabel := .person
      dstLabel := .organisation, edgeLabel := .studyAt, propSpec := .i32Col 2 },
    { path := "dynamic/person_workAt_organisation_0_0.csv", srcLabel := .person
      dstLabel := .organisation, edgeLabel := .workAt, propSpec := .i32Col 2 },
    { path := "dynamic/forum_hasMember_person_0_0.csv", srcLabel := .forum, dstLabel := .person
      edgeLabel := .hasMember, propSpec := .i64Col 2 },
    { path := "dynamic/forum_hasTag_tag_0_0.csv", srcLabel := .forum, dstLabel := .tag
      edgeLabel := .hasTag },
    { path := "dynamic/comment_hasTag_tag_0_0.csv", srcLabel := .comment, dstLabel := .tag
      edgeLabel := .hasTag },
    { path := "dynamic/post_hasTag_tag_0_0.csv", srcLabel := .post, dstLabel := .tag
      edgeLabel := .hasTag },
    namedEdge "dynamic/person_0_0.csv" .person .place .isLocatedIn "id" "place",
    namedEdge "dynamic/forum_0_0.csv" .forum .person .hasModerator "id" "moderator",
    namedEdge "dynamic/post_0_0.csv" .post .person .hasCreator "id" "creator",
    namedEdge "dynamic/post_0_0.csv" .forum .post .containerOf "Forum.id" "id",
    namedEdge "dynamic/post_0_0.csv" .post .place .isLocatedIn "id" "place",
    namedEdge "dynamic/comment_0_0.csv" .comment .person .hasCreator "id" "creator",
    namedEdge "dynamic/comment_0_0.csv" .comment .place .isLocatedIn "id" "place",
    namedEdge "dynamic/comment_0_0.csv" .comment .post .replyOfPost "id" "replyOfPost",
    namedEdge "dynamic/comment_0_0.csv" .comment .comment .replyOfComment "id" "replyOfComment",
    namedEdge "static/organisation_0_0.csv" .organisation .place .isLocatedIn "id" "place",
    namedEdge "static/place_0_0.csv" .place .place .isPartOf "id" "isPartOf",
    namedEdge "static/tag_0_0.csv" .tag .tagClass .hasType "id" "hasType",
    namedEdge "static/tagclass_0_0.csv" .tagClass .tagClass .isSubclassOf "id" "isSubclassOf" ]

/-- The calls of `rebuild_snb_edge_props`, in order. -/
def rebuildFiles : List EdgeFileCall :=
  [ { path := "dynamic/person_knows_person_0_0.csv", srcLabel := .person, dstLabel := .person
      edgeLabel := .knows, bidirectionalPositive := true, propSpec := .i64Col 2 },
    { path := "dynamic/person_likes_comment_0_0.csv", srcLabel := .person, dstLabel := .comment
      edgeLabel := .likesComment, propSpec := .i64Col 2 },
    { path := "dynamic/person_likes_post_0_0.csv", srcLabel := .person, dstLabel := .post
      edgeLabel := .likesPost, propSpec := .i64Col 2 },
    { path := "dynamic/person_studyAt_organisation_0_0.csv", srcLabel := .person
      dstLabel := .organisation, edgeLabel := .studyAt, propSpec := .i32Col 2 },
    { path := "dynamic/person_workAt_organisation_0_0.csv", srcLabel := .person
      dstLabel := .organisation, edgeLabel := .workAt, propSpec := .i32Col 2 },
    { path := "dynamic/forum_hasMember_person_0_0.csv", srcLabel := .forum, dstLabel := .person
      edgeLabel := .hasMember, propSpec := .i64Col 2 } ]

theorem edgeFiles_eq : fullImportFiles.map EdgeFileCall.toEdgeFileSpec = edgeFiles := rfl

/-- The rebuild reads the files of the full import that have a property column. -/
theorem rebuildFiles_eq : rebuildFiles = fullImportFiles.filter fun c => c.propSpec ≠ .none := by
  decide

/-- What an import reads: the CSV files by path, and the update streams, decoded, in the order of
their sorted names. -/
structure CsvRoot where
  file : String → Option Base.CsvFile
  updates : List SnbUpdate

namespace EdgeFileCall

/-- One record; its property is only read when both ids are there. -/
def readRecord (c : EdgeFileCall) (headers record : List String) : Except ReadFailure EdgeRow := do
  match ← c.srcCol.get headers record with
  | none => .ok ⟨none, none, .empty⟩
  | some src =>
      match ← c.dstCol.get headers record with
      | none => .ok ⟨some src, none, .empty⟩
      | some dst => do
          let prop ← c.propSpec.read record
          .ok ⟨some src, some dst, prop⟩

/-- What the reader yields next, and the row in it. -/
def readRow (c : EdgeFileCall) (headers : List String)
    (record : Except Base.BuildError (List String)) : Except ReadFailure EdgeRow :=
  match record with
  | .ok record => c.readRecord headers record
  | .error _ => .error .error

/-- The rows of the file; a missing file is an error. -/
def readRows (c : EdgeFileCall) (root : CsvRoot) : Except ReadFailure (List EdgeRow) :=
  match root.file c.path with
  | none => .error .error
  | some file => file.records.mapM (c.readRow file.header)

/-- The lines `write_edge_prop_file` writes for a row. -/
def writeRow (c : EdgeFileCall) (rows : List EdgePropRow) (row : EdgeRow) : List EdgePropRow :=
  match row.src, row.dst with
  | some src, some dst =>
      let src := encodeVid c.srcLabel src
      let dst := encodeVid c.dstLabel dst
      let label := c.edgeLabel.asI32
      let rows := SnbStore.writeEdgeProp rows ⟨src, dst, label, row.prop⟩
      let rows := SnbStore.writeEdgeProp rows ⟨dst, src, -label, row.prop⟩
      if c.bidirectionalPositive then SnbStore.writeEdgeProp rows ⟨dst, src, label, row.prop⟩
      else rows
  | _, _ => rows

/-- `write_edge_prop_file`. -/
def writeEdgePropFile (c : EdgeFileCall) (root : CsvRoot) (rows : List EdgePropRow) :
    Except ReadFailure (List EdgePropRow) := do
  let read ← c.readRows root
  .ok (read.foldl c.writeRow rows)

end EdgeFileCall

namespace SnbStore

/-- The edges `import_snb_full` inserts, in order. -/
def edgeInsertions (root : CsvRoot) : Except ReadFailure (List EdgeInsertion) := do
  let files ← fullImportFiles.mapM fun c => do
    let rows ← c.readRows root
    .ok (insertionsOf (rows.flatMap c.rowCalls))
  .ok files.flatten

/-- `import_snb_full`, when the engine's clock stands at `clock`. -/
def importSnbFullCsv (clock : Timestamp) (root : CsvRoot) : Except ReadFailure SnbStore := do
  let es ← edgeInsertions root
  .ok { edgeProps := es.foldl writeEdgeProp []
        cache := some (AdjacencyBuilder.empty.recordEdges (clock + 1) es).build }

/-- Runs of `import_snb_updates`, one for each of the clocks the engine stands at. -/
def updateRuns (root : CsvRoot) (clocks : List Timestamp) (s : SnbStore) : SnbStore :=
  clocks.foldl (fun s clock => s.importSnbUpdates clock root.updates) s

/-- `rebuild_snb_edge_props`; the old file is replaced when the new one is complete. -/
def rebuildSnbEdgeProps (root : CsvRoot) (s : SnbStore) : Except ReadFailure SnbStore := do
  let rows ← rebuildFiles.foldlM (fun rows c => c.writeEdgePropFile root rows) []
  .ok { s with edgeProps := rows }

end SnbStore

/-! ## What the two imports write -/

/-- Row by row the rebuild writes what the insertions of the import write. -/
theorem foldl_writeRow (c : EdgeFileCall) (read : List EdgeRow) (rows : List EdgePropRow) :
    read.foldl c.writeRow rows =
      (insertionsOf (read.flatMap c.rowCalls)).foldl SnbStore.writeEdgeProp rows := by
  have hrow : ∀ rows row, c.writeRow rows row =
      (insertionsOf (c.rowCalls row)).foldl SnbStore.writeEdgeProp rows := by
    intro rows row
    unfold EdgeFileCall.writeRow EdgeFileSpec.rowCalls
    -- only a row with both ids makes calls
    rcases row with ⟨src | src, dst | dst, prop⟩
    · rfl
    · rfl
    · rfl
    · cases hpositive : c.bidirectionalPositive <;>
        simp [edgeCalls, insertionsOf, EdgeCall.insertions]
  induction read generalizing rows with
  | nil => rfl
  | cons row read ih =>
      have happend : insertionsOf ((row :: read).flatMap c.rowCalls) =
          insertionsOf (c.rowCalls row) ++ insertionsOf (read.flatMap c.rowCalls) := by
        rw [List.flatMap_cons, insertionsOf, List.flatMap_append]
        rfl
      rw [List.foldl_cons, hrow, ih, happend, List.foldl_append]

/-- Without a property column every row has the empty property. -/
theorem prop_of_readRows {c : EdgeFileCall} (hnone : c.propSpec = .none) {root : CsvRoot}
    {read : List EdgeRow} (hread : c.readRows root = .ok read) : ∀ row ∈ read, row.prop = .empty := by
  have hrecord : ∀ headers record row, c.readRow headers record = .ok row → row.prop = .empty := by
    intro headers record row hrow
    unfold EdgeFileCall.readRow at hrow
    split at hrow
    · obtain ⟨src, -, hrow⟩ := Base.bind_eq_ok.mp hrow
      cases src with
      | none =>
          cases hrow
          rfl
      | some src =>
          -- the property is read after both ids
          obtain ⟨dst, -, hrow⟩ := Base.bind_eq_ok.mp hrow
          cases dst with
          | none =>
              cases hrow
              rfl
          | some dst =>
              rw [hnone] at hrow
              cases hrow
              rfl
    · cases hrow
  unfold EdgeFileCall.readRows at hread
  split at hread
  · cases hread
  rename_i file hfile
  clear hfile
  -- the file is read if every record is
  generalize file.records = records at hread
  induction records generalizing read with
  | nil =>
      cases hread
      exact fun row hrow => absurd hrow List.not_mem_nil
  | cons record records ih =>
      rw [List.mapM_cons] at hread
      obtain ⟨first, hfirst, hread⟩ := Base.bind_eq_ok.mp hread
      obtain ⟨rest, hrest, hread⟩ := Base.bind_eq_ok.mp hread
      cases hread
      intro row hrow
      rcases List.mem_cons.mp hrow with rfl | hrow
      · exact hrecord _ _ _ hfirst
      · exact ih hrest row hrow

/-- Without a property column nothing is written. -/
theorem foldl_writeEdgeProp_of_none {c : EdgeFileCall} (hnone : c.propSpec = .none) {root : CsvRoot}
    {read : List EdgeRow} (hread : c.readRows root = .ok read) (rows : List EdgePropRow) :
    (insertionsOf (read.flatMap c.rowCalls)).foldl SnbStore.writeEdgeProp rows = rows := by
  have hempty := prop_of_readRows hnone hread
  have hrow : ∀ row ∈ read, ∀ rows, c.writeRow rows row = rows := by
    intro row hmem rows
    unfold EdgeFileCall.writeRow
    split
    · simp [SnbStore.writeEdgeProp, hempty row hmem]
    · rfl
  rw [← foldl_writeRow]
  clear hread hempty
  induction read generalizing rows with
  | nil => rfl
  | cons row read ih =>
      rw [List.foldl_cons, hrow row List.mem_cons_self]
      exact ih rows fun row' hmem => hrow row' (List.mem_cons_of_mem _ hmem)

/-- **The rebuild after a full import writes the same lines.** -/
theorem rebuild_files {root : CsvRoot} {files : List EdgeFileCall} {lists : List (List EdgeInsertion)}
    (hread : (files.mapM fun c => do
      let rows ← c.readRows root
      .ok (insertionsOf (rows.flatMap c.rowCalls))) = .ok lists) (rows : List EdgePropRow) :
    (files.filter fun c => c.propSpec ≠ .none).foldlM
        (fun rows c => c.writeEdgePropFile root rows) rows =
      .ok (lists.flatten.foldl SnbStore.writeEdgeProp rows) := by
  induction files generalizing lists rows with
  | nil =>
      cases hread
      rfl
  | cons c files ih =>
      rw [List.mapM_cons] at hread
      obtain ⟨es, hes, hread⟩ := Base.bind_eq_ok.mp hread
      obtain ⟨read, hrows, hes⟩ := Base.bind_eq_ok.mp hes
      obtain ⟨rest, hrest, hread⟩ := Base.bind_eq_ok.mp hread
      cases hes
      cases hread
      rw [List.flatten_cons, List.foldl_append]
      by_cases hprop : c.propSpec = .none
      · rw [List.filter_cons_of_neg (by simp [hprop]), ih hrest,
          foldl_writeEdgeProp_of_none hprop hrows]
      · have hwrite : c.writeEdgePropFile root rows =
            .ok ((insertionsOf (read.flatMap c.rowCalls)).foldl SnbStore.writeEdgeProp rows) := by
          rw [EdgeFileCall.writeEdgePropFile, hrows, ← foldl_writeRow]
          rfl
        rw [List.filter_cons_of_pos (by simp [hprop]), List.foldlM_cons, hwrite]
        exact ih hrest _

namespace SnbStore

/-- The property of the last edge in the list that has one for this key. -/
def lastProp (es : List EdgeInsertion) (key : VertexId × EdgeType × VertexId) : Option EdgeProp :=
  (es.reverse.find? fun e => (e.src, e.edgeType, e.dst) = key ∧ e.prop ≠ .empty).map
    EdgeInsertion.prop

/-- Inserting a list of edges: the last property of each key counts. -/
theorem foldl_insertProp (props : EdgePropMap) (es : List EdgeInsertion)
    (key : VertexId × EdgeType × VertexId) :
    es.foldl (fun props e => insertProp props e.src e.edgeType e.dst e.prop) props key =
      (lastProp es key).or (props key) := by
  induction es using List.reverseRecOn with
  | nil => rfl
  | append_singleton es e ih =>
      rw [List.foldl_append, List.foldl_cons, List.foldl_nil, insertProp, lastProp,
        List.reverse_append, List.reverse_singleton, List.singleton_append, List.find?_cons]
      by_cases hempty : e.prop = .empty
      · rw [if_pos hempty, ih]
        simp [hempty, lastProp]
      · rw [if_neg hempty]
        by_cases hkey : (e.src, e.edgeType, e.dst) = key
        · subst hkey
          simp [hempty]
        · rw [Function.update_of_ne fun heq => hkey heq.symm, ih]
          simp [hkey, lastProp]

/-- The map of a store written by a full import. -/
theorem loadEdgeProps_import {clock : Timestamp} {root : CsvRoot} {s : SnbStore}
    (himport : importSnbFullCsv clock root = .ok s) :
    ∃ es, edgeInsertions root = .ok es ∧ loadEdgeProps s.edgeProps = lastProp es ∧
      s.edgeProps = es.foldl writeEdgeProp [] := by
  obtain ⟨es, hes, hs⟩ := Base.bind_eq_ok.mp himport
  cases hs
  refine ⟨es, hes, funext fun key => ?_, rfl⟩
  rw [loadEdgeProps_foldl, foldl_insertProp]
  exact Option.or_none

/-- **A rebuild right after a full import** finds all files readable and writes the same lines. -/
theorem rebuild_fullImport {root : CsvRoot} {es : List EdgeInsertion}
    (hes : edgeInsertions root = .ok es) (s : SnbStore) :
    rebuildSnbEdgeProps root s = .ok { s with edgeProps := es.foldl writeEdgeProp [] } := by
  obtain ⟨lists, hlists, hes⟩ := Base.bind_eq_ok.mp hes
  cases hes
  rw [rebuildSnbEdgeProps, rebuildFiles_eq, rebuild_files hlists]
  rfl

/-- Update runs put the properties of the streams over the old ones, however often they are made. -/
theorem loadEdgeProps_updateRuns (root : CsvRoot) (clocks : List Timestamp) (s : SnbStore)
    (key : VertexId × EdgeType × VertexId) :
    loadEdgeProps (updateRuns root clocks s).edgeProps key =
      if clocks = [] then loadEdgeProps s.edgeProps key
      else (lastProp (insertionsOf (root.updates.flatMap SnbUpdate.calls)) key).or
        (loadEdgeProps s.edgeProps key) := by
  induction clocks using List.reverseRecOn with
  | nil => rfl
  | append_singleton clocks clock ih =>
      have hrun : updateRuns root (clocks ++ [clock]) s =
          (updateRuns root clocks s).importSnbUpdates clock root.updates := by
        rw [updateRuns, List.foldl_append]
        rfl
      have hne : clocks ++ [clock] ≠ [] := by simp
      rw [hrun, importSnbUpdates, loadEdgeProps_foldl, foldl_insertProp, ih, if_neg hne]
      split
      · rfl
      · rw [← Option.or_assoc, Option.or_self]

/-- **A rebuild keeps the property map iff** no update import was run, or every property that the
update streams give an edge last is the one that the CSV files give it last. -/
theorem rebuild_keeps_iff {clock : Timestamp} {root : CsvRoot} {s : SnbStore}
    (himport : importSnbFullCsv clock root = .ok s) (clocks : List Timestamp) :
    (∃ s', rebuildSnbEdgeProps root (updateRuns root clocks s) = .ok s' ∧
        loadEdgeProps s'.edgeProps = loadEdgeProps (updateRuns root clocks s).edgeProps) ↔
      clocks = [] ∨ ∃ es, edgeInsertions root = .ok es ∧ ∀ key prop,
        lastProp (insertionsOf (root.updates.flatMap SnbUpdate.calls)) key = some prop →
          lastProp es key = some prop := by
  obtain ⟨es, hes, hfull, hrows⟩ := loadEdgeProps_import himport
  have hrebuild := rebuild_fullImport hes (updateRuns root clocks s)
  have hmap : loadEdgeProps (es.foldl writeEdgeProp []) = lastProp es := hrows ▸ hfull
  have hleft : (∃ s', rebuildSnbEdgeProps root (updateRuns root clocks s) = .ok s' ∧
      loadEdgeProps s'.edgeProps = loadEdgeProps (updateRuns root clocks s).edgeProps) ↔
      ∀ key, lastProp es key = if clocks = [] then lastProp es key
        else (lastProp (insertionsOf (root.updates.flatMap SnbUpdate.calls)) key).or
          (lastProp es key) := by
    simp only [← hfull, ← loadEdgeProps_updateRuns]
    constructor
    · rintro ⟨s', hs', heq⟩ key
      rw [hrebuild] at hs'
      cases hs'
      rw [hfull, ← heq, hmap]
    · intro hall
      exact ⟨_, hrebuild, funext fun key => by rw [← hall, hmap, hfull]⟩
  rw [hleft]
  by_cases hclocks : clocks = []
  · simp [hclocks]
  · simp only [hclocks, if_false, false_or]
    constructor
    · intro hall
      refine ⟨es, hes, fun key prop hprop => ?_⟩
      rw [hall key, hprop]
      rfl
    · rintro ⟨es', hes', hall⟩ key
      cases hes.symm.trans hes'
      cases hlast : lastProp (insertionsOf (root.updates.flatMap SnbUpdate.calls)) key with
      | none => rfl
      | some prop =>
          rw [hall key prop hlast]
          rfl

/-- Edge files without records, and an update stream with one like. -/
def streamedLike : CsvRoot where
  file _ := some ⟨[], []⟩
  updates := [.likePost 2 7 4]

theorem rebuild_keeps_iff_streamedLike :
    ∃ s, importSnbFullCsv 0 streamedLike = .ok s ∧
      ((∃ s', rebuildSnbEdgeProps streamedLike (updateRuns streamedLike [] s) = .ok s' ∧
        loadEdgeProps s'.edgeProps = loadEdgeProps (updateRuns streamedLike [] s).edgeProps) ↔
      ([] : List Timestamp) = [] ∨ ∃ es, edgeInsertions streamedLike = .ok es ∧ ∀ key prop,
        lastProp (insertionsOf (streamedLike.updates.flatMap SnbUpdate.calls)) key = some prop →
          lastProp es key = some prop) :=
  ⟨_, rfl, rebuild_keeps_iff rfl []⟩

/-- **A rebuild after an update import loses the streamed properties.** -/
theorem rebuild_loses :
    ∃ s, importSnbFullCsv 0 streamedLike = .ok s ∧
      ¬ ∃ s', rebuildSnbEdgeProps streamedLike (updateRuns streamedLike [0] s) = .ok s' ∧
        loadEdgeProps s'.edgeProps = loadEdgeProps (updateRuns streamedLike [0] s).edgeProps := by
  refine ⟨_, rfl, ?_⟩
  rintro ⟨s', hs', heq⟩
  cases hs'
  have hlike := congrFun heq (encodeVid .person 2, EdgeLabel.likesPost.asI32, encodeVid .post 7)
  revert hlike
  decide +kernel

end SnbStore

end LsmGraph
