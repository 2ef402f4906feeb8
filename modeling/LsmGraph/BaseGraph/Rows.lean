import LsmGraph.BaseGraph.Builder
import LsmGraph.Library.Column

/-! # What the passes over a file read

The columns and the indexes of a base graph come from two passes over the files of the posts and of the
comments. Both decode the same rows (`posts_spec`, `comments_spec`): the columns are filled row by row
and the pairs of the indexes are collected in the order of the rows. Where the ids of a file are
distinct, the local id of a row is its number, cut to 32 bits (`map_key_of_rows`). -/

namespace LsmGraph

open Column

namespace Base

/-! ## Local ids -/

/-- The external id of a row. -/
def externalOf (header record : List String) : Except BuildError Int := do
  parseI64 record (← idx header "id")

/-- The ids of the rows are pairwise distinct. -/
def CsvFile.DistinctIds (file : CsvFile) : Prop :=
  ∃ externals, file.Rows (externalOf file.header) externals ∧ externals.Nodup

namespace IdMap

theorem foldl_push_concat (externals : List Int) (external : Int) :
    (externals ++ [external]).foldl push empty = (externals.foldl push empty).push external := by
  rw [List.foldl_append, List.foldl_cons, List.foldl_nil]

theorem len_foldl_push (externals : List Int) :
    (externals.foldl push empty).len = externals.length := by
  induction externals using List.reverseRecOn with
  | nil => rfl
  | append_singleton externals external ih =>
      rw [foldl_push_concat, len, push, List.length_append, List.length_append]
      exact congrArg (· + 1) ih

/-- **Local ids are row numbers**, as 32-bit numbers. -/
theorem get_foldl_push {externals : List Int} (hnodup : externals.Nodup) {i : Nat} {external : Int}
    (h : externals[i]? = some external) :
    (externals.foldl push empty).get external = .ok (UInt32.ofNat i) := by
  induction externals using List.reverseRecOn with
  | nil => cases h
  | append_singleton externals last ih =>
      obtain ⟨hnodup', -, hdisjoint⟩ := List.nodup_append.mp hnodup
      rw [foldl_push_concat, get, push]
      rcases Nat.lt_or_ge i externals.length with hi | hi
      · -- an earlier row has another id, which the last row leaves alone
        rw [List.getElem?_append_left hi] at h
        have hne : external ≠ last :=
          hdisjoint external (List.mem_of_getElem? h) last (List.mem_singleton_self _)
        rw [AList.lookup_insert_ne hne]
        exact ih hnodup' h
      · rw [List.getElem?_append_right hi, List.getElem?_singleton] at h
        split at h
        · rename_i hzero
          cases h
          rw [AList.lookup_insert]
          have hlen : (externals.foldl push empty).orderedPairs.length = externals.length :=
            len_foldl_push externals
          rw [hlen, le_antisymm (Nat.le_of_sub_eq_zero hzero) hi]
        · cases h

end IdMap

/-- The map of a label's file. -/
theorem loadIdMap_eq_ok {file : CsvFile} {m : IdMap} :
    loadIdMap file "id" = .ok m ↔ ∃ externals, file.Rows (externalOf file.header) externals ∧
      externals.foldl IdMap.push IdMap.empty = m := by
  refine scanCsv_eq_ok fun record out => ?_
  rw [externalOf, bind_assoc]

/-- **Numbered rows.** Where the ids of a file are distinct, the local id of each row is its number. -/
theorem map_key_of_rows {β : Type} {file : CsvFile} {m : IdMap}
    (hm : loadIdMap file "id" = .ok m) (hids : file.DistinctIds)
    {decode : List String → Except BuildError β} {rows : List β} (hrows : file.Rows decode rows)
    {key : β → UInt32}
    (hkey : ∀ record row, decode record = .ok row →
      externalOf file.header record >>= m.get = .ok (key row)) :
    rows.length = m.len ∧ rows.map key = (List.range m.len).map UInt32.ofNat := by
  obtain ⟨externals, hexternals, rfl⟩ := loadIdMap_eq_ok.mp hm
  obtain ⟨externals', hexternals', hnodup⟩ := hids
  cases hexternals'.unique hexternals
  have hlength : rows.length = externals.length :=
    (List.Forall₂.length_eq hrows).symm.trans (List.Forall₂.length_eq hexternals)
  rw [IdMap.len_foldl_push]
  refine ⟨hlength, List.ext_getElem (by simp [hlength]) fun i hi hi' => ?_⟩
  rw [List.length_map] at hi
  have hi₁ : i < file.records.length := (List.Forall₂.length_eq hrows) ▸ hi
  have hi₂ : i < externals.length := hlength ▸ hi
  -- row `i` and id `i` come from one record
  have hrow := hrows.get hi₁ hi
  have hexternal := hexternals.get hi₁ hi₂
  obtain ⟨record, hrecord, hdecode⟩ := bind_eq_ok.mp hrow
  obtain ⟨record', hrecord', hid⟩ := bind_eq_ok.mp hexternal
  cases hrecord.symm.trans hrecord'
  have hlocal := hkey record _ hdecode
  obtain ⟨external, hid', hget⟩ := bind_eq_ok.mp hlocal
  cases hid'.symm.trans hid
  have hnumber := IdMap.get_foldl_push hnodup (List.getElem?_eq_getElem hi₂)
  rw [List.getElem_map, List.getElem_map, List.getElem_range]
  exact Except.ok.inj (hget.symm.trans hnumber)

/-- The local id in a column of a row. -/
def localOf (m : IdMap) (header : List String) (col : String) (record : List String) :
    Except BuildError UInt32 := do
  m.get (← parseI64 record (← idx header col))

theorem lt_len_of_localOf {m : IdMap} {header record : List String} {col : String} {id : UInt32}
    (h : localOf m header col record = .ok id) : id.toNat < m.len := by
  obtain ⟨i, -, h⟩ := bind_eq_ok.mp h
  obtain ⟨external, -, hget⟩ := bind_eq_ok.mp h
  exact IdMap.lt_len_of_get hget

theorem externalOf_bind_get (m : IdMap) (header record : List String) :
    externalOf header record >>= m.get = localOf m header "id" record := by
  rw [externalOf, bind_assoc]
  rfl

/-! ## The rows of the posts -/

structure PostRow where
  post : UInt32
  creator : UInt32
  forum : UInt32
  place : UInt32

def postRow (maps : AllIdMaps) (header record : List String) : Except BuildError PostRow := do
  let post ← localOf maps.post header "id" record
  let creator ← localOf maps.person header "creator" record
  let forum ← localOf maps.forum header "Forum.id" record
  let place ← localOf maps.place header "place" record
  .ok { post, creator, forum, place }

/-- A row as the second pass reads it, without its place. -/
def postEdgesRow (maps : AllIdMaps) (header record : List String) :
    Except BuildError (UInt32 × UInt32 × UInt32) := do
  let post ← localOf maps.post header "id" record
  let creator ← localOf maps.person header "creator" record
  let forum ← localOf maps.forum header "Forum.id" record
  .ok (post, creator, forum)

section Posts

variable {file : CsvFile} {maps : AllIdMaps} {header record : List String}

theorem buildPostColumns_eq_ok {columns : PostColumns} :
    buildPostColumns file maps = .ok columns ↔ ∃ rows, file.Rows (postRow maps file.header) rows ∧
      rows.foldl
        (fun columns row => {
          postCreator := columns.postCreator.set row.post.toNat row.creator
          postForum := columns.postForum.set row.post.toNat row.forum
          postPlace := columns.postPlace.set row.post.toNat row.place : PostColumns })
        { postCreator := List.replicate maps.post.len u32Max
          postForum := List.replicate maps.post.len u32Max
          postPlace := List.replicate maps.post.len u32Max } = columns := by
  refine scanCsv_eq_ok fun record columns => ?_
  simp only [postRow, localOf, bind_assoc]
  rfl

/-- The pairs of one row of the posts. -/
def PostEdges.push (edges : PostEdges) (row : UInt32 × UInt32 × UInt32) : PostEdges where
  personPosts := edges.personPosts ++ [(row.2.1, row.1)]
  forumPosts := edges.forumPosts ++ [(row.2.2, row.1)]

theorem collectPosts_eq_ok {edges : PostEdges} :
    collectPosts file maps = .ok edges ↔ ∃ rows, file.Rows (postEdgesRow maps file.header) rows ∧
      rows.foldl PostEdges.push { personPosts := [], forumPosts := [] } = edges := by
  refine scanCsv_eq_ok fun record edges => ?_
  simp only [postEdgesRow, localOf, bind_assoc]
  rfl

theorem PostEdges.foldl_push (edges : PostEdges) (rows : List (UInt32 × UInt32 × UInt32)) :
    rows.foldl push edges =
      { personPosts := edges.personPosts ++ rows.map fun row => (row.2.1, row.1)
        forumPosts := edges.forumPosts ++ rows.map fun row => (row.2.2, row.1) } := by
  induction rows generalizing edges with
  | nil => simp
  | cons row rows ih => rw [List.foldl_cons, ih, push]; simp

/-- What a row of the posts consists of. -/
theorem postRow_eq_ok {row : PostRow} :
    postRow maps header record = .ok row ↔
      localOf maps.post header "id" record = .ok row.post ∧
        localOf maps.person header "creator" record = .ok row.creator ∧
        localOf maps.forum header "Forum.id" record = .ok row.forum ∧
        localOf maps.place header "place" record = .ok row.place := by
  simp only [postRow, bind_eq_ok]
  constructor
  · rintro ⟨post, hpost, creator, hcreator, forum, hforum, place, hplace, h⟩
    cases h
    exact ⟨hpost, hcreator, hforum, hplace⟩
  · rintro ⟨hpost, hcreator, hforum, hplace⟩
    exact ⟨_, hpost, _, hcreator, _, hforum, _, hplace, rfl⟩

/-- The second pass reads what the first one reads. -/
theorem postEdgesRow_of_postRow {row : PostRow} (h : postRow maps header record = .ok row) :
    postEdgesRow maps header record = .ok (row.post, row.creator, row.forum) := by
  obtain ⟨hpost, hcreator, hforum, -⟩ := postRow_eq_ok.mp h
  simp only [postEdgesRow, bind_eq_ok]
  exact ⟨_, hpost, _, hcreator, _, hforum, rfl⟩

/-- **The two passes over the posts**: the columns and the pairs of one list of rows. -/
theorem posts_spec {columns : PostColumns} {edges : PostEdges}
    (hcolumns : buildPostColumns file maps = .ok columns) (hedges : collectPosts file maps = .ok edges) :
    ∃ rows, file.Rows (postRow maps file.header) rows ∧
      columns.postCreator = fill (·.post.toNat) (fun row => some row.creator)
        (List.replicate maps.post.len u32Max) rows ∧
      columns.postForum = fill (·.post.toNat) (fun row => some row.forum)
        (List.replicate maps.post.len u32Max) rows ∧
      edges.personPosts = rows.map (fun row => (row.creator, row.post)) ∧
      edges.forumPosts = rows.map (fun row => (row.forum, row.post)) := by
  obtain ⟨rows, hrows, rfl⟩ := buildPostColumns_eq_ok.mp hcolumns
  obtain ⟨rows', hrows', rfl⟩ := collectPosts_eq_ok.mp hedges
  cases hrows'.unique (hrows.map fun record row => postEdgesRow_of_postRow)
  rw [PostEdges.foldl_push]
  refine ⟨rows, hrows, ?_, ?_, ?_, ?_⟩
  · exact (List.foldl_hom PostColumns.postCreator fun _ _ => rfl).symm
  · exact (List.foldl_hom PostColumns.postForum fun _ _ => rfl).symm
  · exact List.map_map
  · exact List.map_map

end Posts

/-! ## The rows of the comments -/

def MessageId.kind : MessageId → UInt8
  | post _ => 0
  | comment _ => 1

def MessageId.id : MessageId → UInt32
  | post id => id
  | comment id => id

/-- The message a comment replies to: the post, if one is named, else the comment. -/
def parentOf (maps : AllIdMaps) (header record : List String) :
    Except BuildError (Option MessageId) := do
  let replyPost := record.getD (← idx header "replyOfPost") ""
  let replyComment := record.getD (← idx header "replyOfComment") ""
  if replyPost ≠ "" then do
    let post ← maps.post.get (← parseText replyPost)
    .ok (some (.post post))
  else if replyComment ≠ "" then do
    let parent ← maps.comment.get (← parseText replyComment)
    .ok (some (.comment parent))
  else .ok none

/-- The local ids among which a message has its own. -/
def MessageId.idMap (maps : AllIdMaps) : MessageId → IdMap
  | post _ => maps.post
  | comment _ => maps.comment

/-- A message that a comment names exists. -/
theorem lt_len_of_parentOf {maps : AllIdMaps} {header record : List String} {m : MessageId}
    (h : parentOf maps header record = .ok (some m)) : m.id.toNat < (m.idMap maps).len := by
  simp only [parentOf, bind_eq_ok] at h
  obtain ⟨i, -, j, -, h⟩ := h
  split at h
  · simp only [bind_eq_ok] at h
    obtain ⟨external, -, post, hget, h⟩ := h
    cases h
    exact IdMap.lt_len_of_get hget
  · split at h
    · simp only [bind_eq_ok] at h
      obtain ⟨external, -, parent, hget, h⟩ := h
      cases h
      exact IdMap.lt_len_of_get hget
    · cases h

structure CommentRow where
  comment : UInt32
  creator : UInt32
  place : UInt32
  parent : Option MessageId

def commentRow (maps : AllIdMaps) (header record : List String) : Except BuildError CommentRow := do
  let comment ← localOf maps.comment header "id" record
  let creator ← localOf maps.person header "creator" record
  let place ← localOf maps.place header "place" record
  let parent ← parentOf maps header record
  .ok { comment, creator, place, parent }

/-- A row as the second pass reads it, without its place. -/
def commentEdgesRow (maps : AllIdMaps) (header record : List String) :
    Except BuildError (UInt32 × UInt32 × Option MessageId) := do
  let comment ← localOf maps.comment header "id" record
  let creator ← localOf maps.person header "creator" record
  let parent ← parentOf maps header record
  .ok (comment, creator, parent)

section Comments

variable {file : CsvFile} {maps : AllIdMaps} {header record : List String}

theorem buildCommentColumns_eq_ok {columns : CommentColumns} :
    buildCommentColumns file maps = .ok columns ↔
      ∃ rows, file.Rows (commentRow maps file.header) rows ∧
        rows.foldl
          (fun columns row => {
            commentCreator := columns.commentCreator.set row.comment.toNat row.creator
            commentPlace := columns.commentPlace.set row.comment.toNat row.place
            parentKind := match row.parent.map MessageId.kind with
              | some kind => columns.parentKind.set row.comment.toNat kind
              | none => columns.parentKind
            parentId := match row.parent.map MessageId.id with
              | some id => columns.parentId.set row.comment.toNat id
              | none => columns.parentId : CommentColumns })
          { commentCreator := List.replicate maps.comment.len u32Max
            commentPlace := List.replicate maps.comment.len u32Max
            parentKind := List.replicate maps.comment.len u8Max
            parentId := List.replicate maps.comment.len u32Max } = columns := by
  refine scanCsv_eq_ok fun record columns => ?_
  simp only [commentRow, parentOf, localOf, bind_assoc]
  iterate 11 refine bind_congr fun _ => ?_
  split
  · simp only [bind_assoc]
    rfl
  · split
    · simp only [bind_assoc]
      rfl
    · rfl

/-- The pairs of one row of the comments. -/
def CommentEdges.push (edges : CommentEdges) (row : UInt32 × UInt32 × Option MessageId) :
    CommentEdges :=
  let edges := { edges with personComments := edges.personComments ++ [(row.2.1, row.1)] }
  match row.2.2 with
  | some (.post post) => { edges with
      parentKind := edges.parentKind.set row.1.toNat 0
      parentId := edges.parentId.set row.1.toNat post
      postChildren := edges.postChildren ++ [(post, row.1)] }
  | some (.comment parent) => { edges with
      parentKind := edges.parentKind.set row.1.toNat 1
      parentId := edges.parentId.set row.1.toNat parent
      commentChildren := edges.commentChildren ++ [(parent, row.1)] }
  | none => edges

theorem collectComments_eq_ok {edges : CommentEdges} :
    collectComments file maps = .ok edges ↔
      ∃ rows, file.Rows (commentEdgesRow maps file.header) rows ∧
        rows.foldl CommentEdges.push
          { personComments := [], postChildren := [], commentChildren := []
            parentKind := List.replicate maps.comment.len u8Max
            parentId := List.replicate maps.comment.len u32Max } = edges := by
  refine scanCsv_eq_ok fun record edges => ?_
  simp only [commentEdgesRow, parentOf, localOf, bind_assoc]
  iterate 8 refine bind_congr fun _ => ?_
  split
  · simp only [bind_assoc]
    rfl
  · split
    · simp only [bind_assoc]
      rfl
    · rfl

/-- The pairs of a comment with the post it replies to. -/
def CommentRow.postChild (row : CommentRow) : Option Edge :=
  match row.parent with
  | some (.post post) => some (post, row.comment)
  | _ => none

/-- The pairs of a comment with the comment it replies to. -/
def CommentRow.commentChild (row : CommentRow) : Option Edge :=
  match row.parent with
  | some (.comment parent) => some (parent, row.comment)
  | _ => none

/-- A row without its place. -/
def CommentRow.edges (row : CommentRow) : UInt32 × UInt32 × Option MessageId :=
  (row.comment, row.creator, row.parent)

theorem CommentEdges.foldl_push (edges : CommentEdges) (rows : List CommentRow) :
    ((rows.map CommentRow.edges).foldl push edges).personComments =
        edges.personComments ++ rows.map (fun row => (row.creator, row.comment)) ∧
      ((rows.map CommentRow.edges).foldl push edges).postChildren =
        edges.postChildren ++ rows.filterMap CommentRow.postChild ∧
      ((rows.map CommentRow.edges).foldl push edges).commentChildren =
        edges.commentChildren ++ rows.filterMap CommentRow.commentChild := by
  induction rows generalizing edges with
  | nil => simp
  | cons row rows ih =>
      obtain ⟨hperson, hpost, hcomment⟩ := ih (edges.push row.edges)
      rw [List.map_cons, List.foldl_cons, hperson, hpost, hcomment, List.map_cons,
        List.filterMap_cons, List.filterMap_cons, push, CommentRow.edges, CommentRow.postChild,
        CommentRow.commentChild]
      cases row.parent with
      | none => simp
      | some m => cases m <;> simp

theorem commentRow_eq_ok {row : CommentRow} :
    commentRow maps header record = .ok row ↔
      localOf maps.comment header "id" record = .ok row.comment ∧
        localOf maps.person header "creator" record = .ok row.creator ∧
        localOf maps.place header "place" record = .ok row.place ∧
        parentOf maps header record = .ok row.parent := by
  simp only [commentRow, bind_eq_ok]
  constructor
  · rintro ⟨comment, hcomment, creator, hcreator, place, hplace, parent, hparent, h⟩
    cases h
    exact ⟨hcomment, hcreator, hplace, hparent⟩
  · rintro ⟨hcomment, hcreator, hplace, hparent⟩
    exact ⟨_, hcomment, _, hcreator, _, hplace, _, hparent, rfl⟩

/-- The second pass reads what the first one reads. -/
theorem commentEdgesRow_of_commentRow {row : CommentRow}
    (h : commentRow maps header record = .ok row) :
    commentEdgesRow maps header record = .ok row.edges := by
  obtain ⟨hcomment, hcreator, -, hparent⟩ := commentRow_eq_ok.mp h
  simp only [commentEdgesRow, bind_eq_ok]
  exact ⟨_, hcomment, _, hcreator, _, hparent, rfl⟩

/-- **The two passes over the comments**: the columns and the pairs of one list of rows. -/
theorem comments_spec {columns : CommentColumns} {edges : CommentEdges}
    (hcolumns : buildCommentColumns file maps = .ok columns)
    (hedges : collectComments file maps = .ok edges) :
    ∃ rows, file.Rows (commentRow maps file.header) rows ∧
      columns.commentCreator = fill (·.comment.toNat) (fun row => some row.creator)
        (List.replicate maps.comment.len u32Max) rows ∧
      columns.parentKind = fill (·.comment.toNat) (fun row => row.parent.map MessageId.kind)
        (List.replicate maps.comment.len u8Max) rows ∧
      columns.parentId = fill (·.comment.toNat) (fun row => row.parent.map MessageId.id)
        (List.replicate maps.comment.len u32Max) rows ∧
      edges.personComments = rows.map (fun row => (row.creator, row.comment)) ∧
      edges.postChildren = rows.filterMap CommentRow.postChild ∧
      edges.commentChildren = rows.filterMap CommentRow.commentChild := by
  obtain ⟨rows, hrows, rfl⟩ := buildCommentColumns_eq_ok.mp hcolumns
  obtain ⟨rows', hrows', rfl⟩ := collectComments_eq_ok.mp hedges
  -- the rows of the second pass are those of the first, without a column
  cases hrows'.unique (hrows.map fun record row => commentEdgesRow_of_commentRow)
  obtain ⟨hperson, hpost, hcomment⟩ := CommentEdges.foldl_push
    { personComments := [], postChildren := [], commentChildren := []
      parentKind := List.replicate maps.comment.len u8Max
      parentId := List.replicate maps.comment.len u32Max } rows
  refine ⟨rows, hrows, ?_, ?_, ?_, hperson, hpost, hcomment⟩
  · exact (List.foldl_hom CommentColumns.commentCreator fun _ _ => rfl).symm
  · refine (List.foldl_hom CommentColumns.parentKind fun columns row => ?_).symm
    dsimp only
    cases row.parent.map MessageId.kind <;> rfl
  · refine (List.foldl_hom CommentColumns.parentId fun columns row => ?_).symm
    dsimp only
    cases row.parent.map MessageId.id <;> rfl

end Comments

end Base

end LsmGraph
