import LsmGraph.BaseGraph.Rows
import Mathlib.Data.List.NodupEquivFin

/-! # Derived indexes against the columns

The columns of a base graph give for each post its creator and its forum and for each comment its
creator and the message it replies to; the derived indexes are meant to be their inverses
(`BuiltGraph.Inverse`). They are as long as local ids are row numbers: the length of the map is cut to
32 bits without a check, so beyond `2 ^ 32` posts or comments two rows share a local id, and a reply to
the message with the largest local id is listed below it although the column says that it replies to
nothing (`derived_inverse_iff`). -/

namespace LsmGraph

open Column

namespace Base

/-! ## Inverse indexes -/

/-- Read back, the index is the inverse of the column: a row is listed once under its value, and under
nothing else. -/
def Inverts (index : CsrFiles) (numSrc numRows : Nat) (column : List UInt32) : Prop :=
  ∀ c : UInt32, c.toNat < numSrc → ∃ ps, ReadsAs index c ps ∧
    ∀ p : UInt32, p.toNat < numRows → ps.count p = if column[p.toNat]? = some c then 1 else 0

section Numbering

variable {ρ : Type} {rows : List ρ} {key : ρ → UInt32} {n : Nat}

/-- Row `i` has the local id `i`, as a 32-bit number. -/
theorem key_getElem (hkeys : rows.map key = (List.range n).map UInt32.ofNat) {i : Nat}
    (hi : i < rows.length) : key rows[i] = UInt32.ofNat i := by
  have h := congrArg (fun keys => keys[i]?) hkeys
  simp only [List.getElem?_map, List.getElem?_eq_getElem hi, Option.map_some] at h
  obtain ⟨j, hj, heq⟩ := Option.map_eq_some_iff.mp h.symm
  rw [List.getElem?_eq_some_iff] at hj
  obtain ⟨_, rfl⟩ := hj
  rw [List.getElem_range] at heq
  exact heq.symm

/-- Up to `2 ^ 32` rows have different local ids. -/
theorem numbered_of_le (hkeys : rows.map key = (List.range n).map UInt32.ofNat)
    (hlength : rows.length = n) (hle : n ≤ 2 ^ 32) : Numbered (fun row => (key row).toNat) rows := by
  intro i hi
  change (key rows[i]).toNat = i
  rw [key_getElem hkeys hi, UInt32.toNat_ofNat', Nat.mod_eq_of_lt]
  omega

theorem nodup_of_numbered (h : Numbered (fun row => (key row).toNat) rows) :
    (rows.map key).Nodup := by
  rw [List.nodup_iff_injective_get]
  intro a b hab
  have ha : a.val < rows.length := by simpa using a.isLt
  have hb : b.val < rows.length := by simpa using b.isLt
  have hkey : key rows[a.val] = key rows[b.val] := by simpa using hab
  have hnumber : a.val = b.val :=
    (h a.val ha).symm.trans ((congrArg UInt32.toNat hkey).trans (h b.val hb))
  exact Fin.ext hnumber

/-- The row with a local id. -/
theorem exists_row_iff (h : Numbered (fun row => (key row).toNat) rows) {P : ρ → Prop} {p : UInt32} :
    (∃ row ∈ rows, P row ∧ key row = p) ↔ ∃ row, rows[p.toNat]? = some row ∧ P row := by
  constructor
  · rintro ⟨row, hrow, hP, rfl⟩
    obtain ⟨i, hi, rfl⟩ := List.getElem_of_mem hrow
    have hnumber : (key rows[i]).toNat = i := h i hi
    exact ⟨rows[i], by rw [hnumber, List.getElem?_eq_getElem hi], hP⟩
  · rintro ⟨row, hrow, hP⟩
    obtain ⟨hlt, rfl⟩ := List.getElem?_eq_some_iff.mp hrow
    exact ⟨_, List.getElem_mem hlt, hP, UInt32.toNat_inj.mp (h _ hlt)⟩

/-- **Up to `2 ^ 32` rows**, the index is the inverse of the column. -/
theorem inverts_of_le (hkeys : rows.map key = (List.range n).map UInt32.ofNat)
    (hlength : rows.length = n) (hle : n ≤ 2 ^ 32) (value : ρ → UInt32) (numSrc : Nat) :
    Inverts (writeCsr numSrc (rows.map fun row => (value row, key row))).1 numSrc n
      (fill (fun row => (key row).toNat) (fun row => some (value row)) (List.replicate n u32Max)
        rows) := by
  intro c hc
  have hnumbered := numbered_of_le hkeys hlength hle
  have hsize : 8 * (rows.map fun row => (value row, key row)).length < 2 ^ 63 := by
    rw [List.length_map]
    omega
  refine ⟨_, readsAs_writeCsr hsize hc, fun p _ => ?_⟩
  have hcolumn := fill_replicate hnumbered (fun row => some (value row)) u32Max 0
  rw [Nat.add_zero, hlength, List.replicate_zero, List.append_nil] at hcolumn
  rw [count_destinations, count_pairs (nodup_of_numbered hnumbered), hcolumn, List.getElem?_map]
  refine if_congr ?_ rfl rfl
  rw [exists_row_iff hnumbered, Option.map_eq_some_iff]
  rfl

/-- **Beyond `2 ^ 32` rows** the first local id is that of two rows, and no column has an index with
both as its inverse. -/
theorem not_inverts_of_lt (hkeys : rows.map key = (List.range n).map UInt32.ofNat)
    (hlength : rows.length = n) (hlt : 2 ^ 32 < n) (hsize : 8 * n < 2 ^ 63) {value : ρ → UInt32}
    {numSrc : Nat} (hvalue : ∀ row ∈ rows, (value row).toNat < numSrc) (column : List UInt32) :
    ¬ Inverts (writeCsr numSrc (rows.map fun row => (value row, key row))).1 numSrc n column := by
  intro h
  have hfirst : 0 < rows.length := by omega
  have hlast : 2 ^ 32 < rows.length := by omega
  have hkey₀ : key rows[0] = 0 := key_getElem hkeys hfirst
  have hkey₁ : key rows[2 ^ 32] = 0 := key_getElem hkeys hlast
  have hsize' : 8 * (rows.map fun row => (value row, key row)).length < 2 ^ 63 := by
    rw [List.length_map]
    omega
  -- the column has at 0 the value of every row with this local id
  have hcount : ∀ row ∈ rows, key row = 0 →
      (rows.map fun row => (value row, key row)).count (value row, 0) =
        if column[0]? = some (value row) then 1 else 0 := by
    intro row hrow hkey
    obtain ⟨ps, hps, hcounts⟩ := h (value row) (hvalue row hrow)
    rw [← count_destinations, ← hps.unique (readsAs_writeCsr hsize' (hvalue row hrow))]
    exact hcounts 0 (by rw [UInt32.toNat_zero]; omega)
  have hcolumn : ∀ row ∈ rows, key row = 0 → column[0]? = some (value row) := by
    intro row hrow hkey
    have hpos : 0 < (rows.map fun row => (value row, key row)).count (value row, 0) :=
      List.count_pos_iff.mpr (List.mem_map.mpr ⟨row, hrow, by rw [hkey]⟩)
    rw [hcount row hrow hkey] at hpos
    by_contra hne
    rw [if_neg hne] at hpos
    exact Nat.lt_irrefl 0 hpos
  have hmem₀ : rows[0] ∈ rows := List.getElem_mem hfirst
  have hmem₁ : rows[2 ^ 32] ∈ rows := List.getElem_mem hlast
  have hvalues : value rows[2 ^ 32] = value rows[0] :=
    Option.some.inj ((hcolumn _ hmem₁ hkey₁).symm.trans (hcolumn _ hmem₀ hkey₀))
  -- so the pair of both rows is the same one, which is listed twice
  have htwice : (rows.map fun row => (value row, key row)).Duplicate (value rows[0], 0) := by
    refine List.duplicate_iff_exists_distinct_get.mpr ⟨⟨0, by simpa using hfirst⟩,
      ⟨2 ^ 32, by simpa using hlast⟩, ?_, ?_, ?_⟩
    · exact Fin.mk_lt_mk.mpr (by omega)
    · rw [List.get_eq_getElem, List.getElem_map]
      exact Prod.ext rfl hkey₀.symm
    · rw [List.get_eq_getElem, List.getElem_map]
      exact Prod.ext hvalues.symm hkey₁.symm
  have htwo := (List.duplicate_iff_sublist.mp htwice).count_le (value rows[0], 0)
  rw [hcount _ hmem₀ hkey₀, List.count_cons_self, List.count_cons_self, List.count_nil] at htwo
  split at htwo <;> omega

end Numbering

/-! ## Replies -/

namespace BuiltGraph

/-- A message of the graph. -/
def Has (g : BuiltGraph) : MessageId → Prop
  | .post id => id.toNat < g.maps.post.len
  | .comment id => id.toNat < g.maps.comment.len

/-- The index that lists the comments on a message. -/
def childIndex (g : BuiltGraph) : MessageId → CsrFiles
  | .post _ => g.derived.postChildComments
  | .comment _ => g.derived.commentChildComments

/-- Read back from its index, the comment is a child of the message. -/
def Child (g : BuiltGraph) (m : MessageId) (k : UInt32) : Prop :=
  ∃ ks, ReadsAs (g.childIndex m) m.id ks ∧ k ∈ ks

/-- **The derived indexes are the inverses of the columns.** -/
structure Inverse (g : BuiltGraph) : Prop where
  personCreatedPost : Inverts g.derived.personCreatedPost g.maps.person.len g.maps.post.len
    g.columns.postCreator
  forumContainerOfPost : Inverts g.derived.forumContainerOfPost g.maps.forum.len g.maps.post.len
    g.columns.postForum
  personCreatedComment : Inverts g.derived.personCreatedComment g.maps.person.len
    g.maps.comment.len g.columns.commentCreator
  children : ∀ m, g.Has m → ∃ ks, ReadsAs (g.childIndex m) m.id ks ∧
    ∀ k : UInt32, k.toNat < g.maps.comment.len → (k ∈ ks ↔ g.commentReplyOf k = some m)
  child_unique : ∀ k : UInt32, k.toNat < g.maps.comment.len → ∀ m m', g.Has m → g.Has m' →
    g.Child m k → g.Child m' k → m = m'

/-- What a build consists of, as far as the columns and their inverses are concerned. -/
structure BuiltFrom (g : BuiltGraph) (csvRoot : String → CsvFile) (posts : List PostRow)
    (comments : List CommentRow) : Prop where
  loadPost : loadIdMap (csvRoot LabelId.post.path) "id" = .ok g.maps.post
  loadComment : loadIdMap (csvRoot LabelId.comment.path) "id" = .ok g.maps.comment
  postRows : (csvRoot LabelId.post.path).Rows
    (postRow g.maps (csvRoot LabelId.post.path).header) posts
  commentRows : (csvRoot LabelId.comment.path).Rows
    (commentRow g.maps (csvRoot LabelId.comment.path).header) comments
  postCreator : g.columns.postCreator = fill (·.post.toNat) (fun row => some row.creator)
    (List.replicate g.maps.post.len u32Max) posts
  postForum : g.columns.postForum = fill (·.post.toNat) (fun row => some row.forum)
    (List.replicate g.maps.post.len u32Max) posts
  commentCreator : g.columns.commentCreator = fill (·.comment.toNat) (fun row => some row.creator)
    (List.replicate g.maps.comment.len u32Max) comments
  parentKind : g.columns.parentKind = fill (·.comment.toNat)
    (fun row => row.parent.map MessageId.kind) (List.replicate g.maps.comment.len u8Max) comments
  parentId : g.columns.parentId = fill (·.comment.toNat) (fun row => row.parent.map MessageId.id)
    (List.replicate g.maps.comment.len u32Max) comments
  personCreatedPost : g.derived.personCreatedPost =
    (writeCsr g.maps.person.len (posts.map fun row => (row.creator, row.post))).1
  forumContainerOfPost : g.derived.forumContainerOfPost =
    (writeCsr g.maps.forum.len (posts.map fun row => (row.forum, row.post))).1
  personCreatedComment : g.derived.personCreatedComment =
    (writeCsr g.maps.person.len (comments.map fun row => (row.creator, row.comment))).1
  postChildComments : g.derived.postChildComments =
    (writeCsr g.maps.post.len (comments.filterMap CommentRow.postChild)).1
  commentChildComments : g.derived.commentChildComments =
    (writeCsr g.maps.comment.len (comments.filterMap CommentRow.commentChild)).1

end BuiltGraph

theorem buildIdMaps_loads {csvRoot : String → CsvFile} {maps : AllIdMaps}
    (h : buildIdMaps csvRoot = .ok maps) :
    loadIdMap (csvRoot LabelId.post.path) "id" = .ok maps.post ∧
      loadIdMap (csvRoot LabelId.comment.path) "id" = .ok maps.comment := by
  simp only [buildIdMaps, bind_eq_ok] at h
  obtain ⟨person, -, post, hpost, comment, hcomment, forum, -, place, -, organisation, -, tag, -,
    tagClass, -, h⟩ := h
  cases h
  exact ⟨hpost, hcomment⟩

/-- **A build that succeeds** read its columns and its indexes off the same rows. -/
theorem builtFrom_of_buildFromSnb {csvRoot : String → CsvFile} {g : BuiltGraph}
    (h : buildFromSnb csvRoot = .ok g) : ∃ posts comments, g.BuiltFrom csvRoot posts comments := by
  simp only [buildFromSnb, bind_eq_ok] at h
  obtain ⟨maps, hmaps, columns, hcolumns, relations, -, derived, hderived, h⟩ := h
  cases h
  obtain ⟨hloadPost, hloadComment⟩ := buildIdMaps_loads hmaps
  simp only [buildSingleEdges, bind_eq_ok] at hcolumns
  obtain ⟨personPlace, -, postColumns, hpost, commentColumns, hcomment, forumModerator, -,
    organisationPlace, -, tagTagclass, -, h⟩ := hcolumns
  cases h
  simp only [buildDerivedIndexes, bind_eq_ok] at hderived
  obtain ⟨posts, hposts, comments, hcomments, h⟩ := hderived
  cases h
  obtain ⟨postRows, hpostRows, hcreator, hforum, hpersonPosts, hforumPosts⟩ := posts_spec hpost hposts
  obtain ⟨commentRows, hcommentRows, hcommentCreator, hkind, hid, hpersonComments, hpostChildren,
    hcommentChildren⟩ := comments_spec hcomment hcomments
  refine ⟨postRows, commentRows, hloadPost, hloadComment, hpostRows, hcommentRows, hcreator, hforum,
    hcommentCreator, hkind, hid, ?_, ?_, ?_, ?_, ?_⟩
  · rw [hpersonPosts]
  · rw [hforumPosts]
  · rw [hpersonComments]
  · rw [hpostChildren]
  · rw [hcommentChildren]

/-- Kind and id make up the message. -/
theorem MessageId.ofKind_eq (m : MessageId) :
    (if m.kind = 0 then some (post m.id) else if m.kind = 1 then some (comment m.id) else none) =
      some m := by
  cases m <;> rfl

namespace BuiltGraph

variable {g : BuiltGraph} {csvRoot : String → CsvFile} {posts : List PostRow}
  {comments : List CommentRow}

/-- The children of a message are the comments whose rows name it. -/
theorem BuiltFrom.mem_children (h : g.BuiltFrom csvRoot posts comments)
    (hsize : 8 * comments.length < 2 ^ 63) {m : MessageId} (hm : g.Has m) :
    ∃ ks, ReadsAs (g.childIndex m) m.id ks ∧
      ∀ k, k ∈ ks ↔ ∃ row ∈ comments, row.parent = some m ∧ row.comment = k := by
  have hread : ∀ (f : CommentRow → Option Edge) {numSrc : Nat} {src : UInt32}, src.toNat < numSrc →
      ReadsAs (writeCsr numSrc (comments.filterMap f)).1 src
        (destinations (comments.filterMap f) src) := by
    intro f numSrc src hsrc
    refine readsAs_writeCsr (lt_of_le_of_lt ?_ hsize) hsrc
    exact Nat.mul_le_mul_left 8 (List.length_filterMap_le f comments)
  cases m with
  | post id =>
      refine ⟨_, (congrArg (ReadsAs · id _) h.postChildComments).mpr (hread _ hm), fun k => ?_⟩
      rw [mem_destinations, List.mem_filterMap]
      refine exists_congr fun row => and_congr_right fun _ => ?_
      rw [CommentRow.postChild]
      cases row.parent with
      | none => simp
      | some m => cases m <;> simp
  | comment id =>
      refine ⟨_, (congrArg (ReadsAs · id _) h.commentChildComments).mpr (hread _ hm), fun k => ?_⟩
      rw [mem_destinations, List.mem_filterMap]
      refine exists_congr fun row => and_congr_right fun _ => ?_
      rw [CommentRow.commentChild]
      cases row.parent with
      | none => simp
      | some m => cases m <;> simp

/-- **The parent of a comment** is the one its row names, unless its local id is the one that stands
for no value. -/
theorem BuiltFrom.commentReplyOf_eq (h : g.BuiltFrom csvRoot posts comments)
    (hnumbered : Numbered (fun row : CommentRow => row.comment.toNat) comments)
    (hlength : comments.length = g.maps.comment.len) (k : UInt32) :
    g.commentReplyOf k =
      comments[k.toNat]?.bind fun row => row.parent.filter fun m => m.id ≠ u32Max := by
  have hkind := fill_replicate hnumbered (fun row => row.parent.map MessageId.kind) u8Max 0
  have hid := fill_replicate hnumbered (fun row => row.parent.map MessageId.id) u32Max 0
  rw [Nat.add_zero, hlength, List.replicate_zero, List.append_nil] at hkind hid
  rw [commentReplyOf, singleValue, h.parentKind, h.parentId, hkind, hid, List.getElem?_map,
    List.getElem?_map]
  cases comments[k.toNat]? with
  | none => rfl
  | some row =>
      simp only [Option.map_some, Option.bind_eq_bind, Option.bind_some]
      cases row.parent with
      | none => rfl
      | some m =>
          rw [Option.filter_some, Option.map_some, Option.map_some, Option.getD_some,
            Option.getD_some]
          by_cases hmax : m.id = u32Max
          · simp [hmax]
          · simp [hmax, m.ofKind_eq]

/-- A message that a comment names exists. -/
theorem has_of_parentOf {header record : List String} {m : MessageId}
    (h : parentOf g.maps header record = .ok (some m)) : g.Has m := by
  have hlt := lt_len_of_parentOf h
  cases m with
  | post id => exact hlt
  | comment id => exact hlt

/-- Nobody replies to the message whose local id stands for no value. -/
def NoReplyToMax (maps : AllIdMaps) (file : CsvFile) : Prop :=
  ∀ record, .ok record ∈ file.records → ∀ m, parentOf maps file.header record = .ok (some m) →
    m.id ≠ u32Max

theorem noReplyToMax_iff {maps : AllIdMaps} {file : CsvFile} {comments : List CommentRow}
    (hrows : file.Rows (commentRow maps file.header) comments) :
    NoReplyToMax maps file ↔ ∀ row ∈ comments, ∀ m, row.parent = some m → m.id ≠ u32Max := by
  constructor
  · intro h row hrow m hm
    obtain ⟨record, hrecord, hdecode⟩ := hrows.exists_mem_record hrow
    exact h record hrecord m (hm ▸ (commentRow_eq_ok.mp hdecode).2.2.2)
  · intro h record hrecord m hm
    obtain ⟨row, hrow, hdecode⟩ := hrows.exists_mem_row hrecord
    exact h row hrow m (Except.ok.inj ((commentRow_eq_ok.mp hdecode).2.2.2.symm.trans hm))

theorem BuiltFrom.postCreator_lt (h : g.BuiltFrom csvRoot posts comments) {row : PostRow}
    (hrow : row ∈ posts) : row.creator.toNat < g.maps.person.len := by
  obtain ⟨record, -, hdecode⟩ := h.postRows.exists_mem_record hrow
  exact lt_len_of_localOf (postRow_eq_ok.mp hdecode).2.1

theorem BuiltFrom.commentCreator_lt (h : g.BuiltFrom csvRoot posts comments) {row : CommentRow}
    (hrow : row ∈ comments) : row.creator.toNat < g.maps.person.len := by
  obtain ⟨record, -, hdecode⟩ := h.commentRows.exists_mem_record hrow
  exact lt_len_of_localOf (commentRow_eq_ok.mp hdecode).2.1

theorem BuiltFrom.post_keys (h : g.BuiltFrom csvRoot posts comments)
    (hids : (csvRoot LabelId.post.path).DistinctIds) :
    posts.length = g.maps.post.len ∧
      posts.map PostRow.post = (List.range g.maps.post.len).map UInt32.ofNat :=
  map_key_of_rows h.loadPost hids h.postRows fun _ _ hrow =>
    (externalOf_bind_get ..).trans (postRow_eq_ok.mp hrow).1

theorem BuiltFrom.comment_keys (h : g.BuiltFrom csvRoot posts comments)
    (hids : (csvRoot LabelId.comment.path).DistinctIds) :
    comments.length = g.maps.comment.len ∧
      comments.map CommentRow.comment = (List.range g.maps.comment.len).map UInt32.ofNat :=
  map_key_of_rows h.loadComment hids h.commentRows fun _ _ hrow =>
    (externalOf_bind_get ..).trans (commentRow_eq_ok.mp hrow).1

/-- Beyond `2 ^ 32` posts the persons' posts are not the inverse of the creators. -/
theorem BuiltFrom.not_inverse_of_lt_posts (h : g.BuiltFrom csvRoot posts comments)
    (hids : (csvRoot LabelId.post.path).DistinctIds) (hlt : 2 ^ 32 < g.maps.post.len)
    (hsize : 8 * g.maps.post.len < 2 ^ 63) : ¬ g.Inverse := by
  intro hinverse
  obtain ⟨hlength, hkeys⟩ := h.post_keys hids
  have hcreated := hinverse.personCreatedPost
  rw [h.personCreatedPost] at hcreated
  exact not_inverts_of_lt hkeys hlength hlt hsize (fun row hrow => h.postCreator_lt hrow) _ hcreated

/-- Beyond `2 ^ 32` comments the persons' comments are not the inverse of the creators. -/
theorem BuiltFrom.not_inverse_of_lt_comments (h : g.BuiltFrom csvRoot posts comments)
    (hids : (csvRoot LabelId.comment.path).DistinctIds) (hlt : 2 ^ 32 < g.maps.comment.len)
    (hsize : 8 * g.maps.comment.len < 2 ^ 63) : ¬ g.Inverse := by
  intro hinverse
  obtain ⟨hlength, hkeys⟩ := h.comment_keys hids
  have hcreated := hinverse.personCreatedComment
  rw [h.personCreatedComment] at hcreated
  exact not_inverts_of_lt hkeys hlength hlt hsize (fun row hrow => h.commentCreator_lt hrow) _
    hcreated

/-- A reply to the message with the largest local id is listed but not found. -/
theorem BuiltFrom.ne_max (h : g.BuiltFrom csvRoot posts comments)
    (hcommentKeys : comments.map CommentRow.comment =
      (List.range g.maps.comment.len).map UInt32.ofNat)
    (hcommentLength : comments.length = g.maps.comment.len)
    (hcomments : g.maps.comment.len ≤ 2 ^ 32) (hinverse : g.Inverse) :
    ∀ row ∈ comments, ∀ m, row.parent = some m → m.id ≠ u32Max := by
  intro row hrow m hm hmax
  have hnumbered := numbered_of_le hcommentKeys hcommentLength hcomments
  have hsize : 8 * comments.length < 2 ^ 63 := by omega
  obtain ⟨record, -, hdecode⟩ := h.commentRows.exists_mem_record hrow
  have hhas : g.Has m := has_of_parentOf (hm ▸ (commentRow_eq_ok.mp hdecode).2.2.2)
  obtain ⟨ks, hks, hreply⟩ := hinverse.children m hhas
  obtain ⟨ks', hks', hmem⟩ := h.mem_children hsize hhas
  have hlisted : row.comment ∈ ks := by
    rw [hks.unique hks']
    exact (hmem _).mpr ⟨row, hrow, hm, rfl⟩
  have hlt : row.comment.toNat < g.maps.comment.len :=
    lt_len_of_localOf (commentRow_eq_ok.mp hdecode).1
  have hfound := (hreply _ hlt).mp hlisted
  rw [h.commentReplyOf_eq hnumbered hcommentLength] at hfound
  obtain ⟨row', -, hfilter⟩ := Option.bind_eq_some_iff.mp hfound
  exact of_decide_eq_true (Option.filter_eq_some_iff.mp hfilter).2 hmax

/-- The columns and their inverses of at most `2 ^ 32` posts and comments. -/
theorem BuiltFrom.inverse (h : g.BuiltFrom csvRoot posts comments)
    (hpostKeys : posts.map PostRow.post = (List.range g.maps.post.len).map UInt32.ofNat)
    (hpostLength : posts.length = g.maps.post.len) (hposts : g.maps.post.len ≤ 2 ^ 32)
    (hcommentKeys : comments.map CommentRow.comment =
      (List.range g.maps.comment.len).map UInt32.ofNat)
    (hcommentLength : comments.length = g.maps.comment.len)
    (hcomments : g.maps.comment.len ≤ 2 ^ 32)
    (hmax : ∀ row ∈ comments, ∀ m, row.parent = some m → m.id ≠ u32Max) : g.Inverse := by
  have hnumbered := numbered_of_le hcommentKeys hcommentLength hcomments
  have hsize : 8 * comments.length < 2 ^ 63 := by omega
  -- both sides say that row `k` names `m`
  have hchildren : ∀ m, g.Has m → ∃ ks, ReadsAs (g.childIndex m) m.id ks ∧
      ∀ k : UInt32, k.toNat < g.maps.comment.len → (k ∈ ks ↔ g.commentReplyOf k = some m) := by
    intro m hm
    obtain ⟨ks, hks, hmem⟩ := h.mem_children hsize hm
    refine ⟨ks, hks, fun k _ => ?_⟩
    rw [hmem, exists_row_iff hnumbered, h.commentReplyOf_eq hnumbered hcommentLength,
      Option.bind_eq_some_iff]
    refine exists_congr fun row => and_congr_right fun hrow => ?_
    rw [Option.filter_eq_some_iff, decide_eq_true_iff]
    exact (and_iff_left_of_imp fun hparent =>
      hmax row (List.mem_of_getElem? hrow) m hparent).symm
  refine ⟨?_, ?_, ?_, hchildren, ?_⟩
  · rw [h.personCreatedPost, h.postCreator]
    exact inverts_of_le hpostKeys hpostLength hposts PostRow.creator _
  · rw [h.forumContainerOfPost, h.postForum]
    exact inverts_of_le hpostKeys hpostLength hposts PostRow.forum _
  · rw [h.personCreatedComment, h.commentCreator]
    exact inverts_of_le hcommentKeys hcommentLength hcomments CommentRow.creator _
  · rintro k hk m m' hm hm' ⟨ks, hks, hmem⟩ ⟨ks', hks', hmem'⟩
    obtain ⟨ks₁, hks₁, hreply⟩ := hchildren m hm
    obtain ⟨ks₂, hks₂, hreply'⟩ := hchildren m' hm'
    rw [hks.unique hks₁, hreply k hk] at hmem
    rw [hks'.unique hks₂, hreply' k hk] at hmem'
    exact Option.some.inj (hmem.symm.trans hmem')

/-- **Columns and derived indexes.** Of files with distinct ids on which the build succeeds, the
derived indexes are the inverses of the columns iff the local ids are exact, which 32 bits are for
`2 ^ 32` rows, and no comment replies to the message whose local id is the largest one. An allocation
is smaller than `2 ^ 63` bytes, and a pair takes eight. -/
theorem derived_inverse_iff (csvRoot : String → CsvFile) (g : BuiltGraph)
    (hbuild : buildFromSnb csvRoot = .ok g)
    (hids : ∀ label : LabelId, (csvRoot label.path).DistinctIds)
    (hpostSize : 8 * (csvRoot LabelId.post.path).records.length < 2 ^ 63)
    (hcommentSize : 8 * (csvRoot LabelId.comment.path).records.length < 2 ^ 63) :
    g.Inverse ↔ (csvRoot LabelId.post.path).records.length ≤ 2 ^ 32 ∧
      (csvRoot LabelId.comment.path).records.length ≤ 2 ^ 32 ∧
      NoReplyToMax g.maps (csvRoot LabelId.comment.path) := by
  obtain ⟨posts, comments, h⟩ := builtFrom_of_buildFromSnb hbuild
  obtain ⟨hpostLength, hpostKeys⟩ := h.post_keys (hids .post)
  obtain ⟨hcommentLength, hcommentKeys⟩ := h.comment_keys (hids .comment)
  rw [List.Forall₂.length_eq h.postRows, hpostLength] at hpostSize ⊢
  rw [List.Forall₂.length_eq h.commentRows, hcommentLength] at hcommentSize ⊢
  rw [noReplyToMax_iff h.commentRows]
  constructor
  · intro hinverse
    have hposts : g.maps.post.len ≤ 2 ^ 32 := not_lt.mp fun hlt =>
      h.not_inverse_of_lt_posts (hids .post) hlt hpostSize hinverse
    have hcomments : g.maps.comment.len ≤ 2 ^ 32 := not_lt.mp fun hlt =>
      h.not_inverse_of_lt_comments (hids .comment) hlt hcommentSize hinverse
    exact ⟨hposts, hcomments, h.ne_max hcommentKeys hcommentLength hcomments hinverse⟩
  · rintro ⟨hposts, hcomments, hmax⟩
    exact h.inverse hpostKeys hpostLength hposts hcommentKeys hcommentLength hcomments hmax

end BuiltGraph

/-! ### Many posts -/

/-- The decimal text of a number. -/
def decimal (i : Nat) : String := String.ofList (Nat.toDigits 10 i)

theorem parseDigits_toDigits (i : Nat) : parseDigits (Nat.toDigits 10 i) = some i := by
  have hdigits : ¬(Nat.toDigits 10 i = [] ∨ (Nat.toDigits 10 i).any (fun c => !c.isDigit)) := by
    rintro (hnil | hany)
    · exact Nat.toDigits_ne_nil hnil
    · obtain ⟨c, hc, hnot⟩ := List.any_eq_true.mp hany
      rw [Nat.isDigit_of_mem_toDigits (by decide) (by decide) hc] at hnot
      cases hnot
  rw [parseDigits, if_neg hdigits]
  have hfold := @Nat.ofDigitChars_ten_toDigits i
  rw [Nat.ofDigitChars_eq_foldl] at hfold
  simp only [Nat.mul_comm 10] at hfold
  exact congrArg some hfold

/-- Decimal texts are read back. -/
theorem parseI64Text_decimal {i : Nat} (hi : i < 2 ^ 63) :
    parseI64Text (decimal i).toList = some (i : Int) := by
  rw [decimal, String.toList_ofList]
  have hsign : ∀ c ∈ Nat.toDigits 10 i, c ≠ '-' ∧ c ≠ '+' := by
    intro c hc
    have hdigit := Nat.isDigit_of_mem_toDigits (by decide) (by decide) hc
    constructor
    · rintro rfl
      exact absurd hdigit (by decide)
    · rintro rfl
      exact absurd hdigit (by decide)
  have hparse := parseDigits_toDigits i
  generalize Nat.toDigits 10 i = text at hsign hparse
  have hrange : (-2 ^ 63 ≤ (i : Int) && (i : Int) < 2 ^ 63) = true := by
    rw [Bool.and_eq_true, decide_eq_true_iff, decide_eq_true_iff]
    omega
  -- the first character is a digit, so there is no sign to take off
  have hsigned : parseI64Text text =
      ((parseDigits text).map fun n => (n : Int)).filter fun v => -2 ^ 63 ≤ v && v < 2 ^ 63 := by
    cases text with
    | nil => rfl
    | cons c digits =>
        obtain ⟨hminus, hplus⟩ := hsign c List.mem_cons_self
        simp only [parseI64Text]
        split
        · rename_i heq
          exact absurd (List.cons.inj heq).1 hminus
        · rename_i heq
          exact absurd (List.cons.inj heq).1 hplus
        · rfl
  rw [hsigned, hparse]
  exact (Option.filter_some).trans (if_pos hrange)

theorem parseI64_eq_ok {record : List String} {i : Nat} {value : String} {v : Int}
    (hvalue : record.getD i "" = value) (hne : value ≠ "")
    (hparse : parseI64Text value.toList = some v) : parseI64 record i = .ok v := by
  rw [parseI64, hvalue, if_neg hne, hparse]

theorem parseI64_decimal {i : Nat} (hi : i < 2 ^ 63) (rest : List String) :
    parseI64 (decimal i :: rest) 0 = .ok (i : Int) := by
  have hvalue : (decimal i :: rest).getD 0 "" = decimal i := rfl
  refine parseI64_eq_ok hvalue (fun h => ?_) (parseI64Text_decimal hi)
  have hlist := congrArg String.toList h
  rw [decimal, String.toList_ofList] at hlist
  exact Nat.toDigits_ne_nil hlist

/-- The local id of the text in a column. -/
theorem localOf_eq_ok {m : IdMap} {header record : List String} {col value : String} {i : Nat}
    {v : Int} {id : UInt32} (hidx : idx header col = .ok i) (hvalue : record.getD i "" = value)
    (hne : value ≠ "") (hparse : parseI64Text value.toList = some v) (hget : m.get v = .ok id) :
    localOf m header col record = .ok id :=
  bind_eq_ok.mpr ⟨i, hidx, bind_eq_ok.mpr ⟨v, parseI64_eq_ok hvalue hne hparse, hget⟩⟩

/-- One person wrote `n` posts in one forum; a comment replies to the first post, and another one to
that comment. -/
def crowdedRoot (n : Nat) : String → CsvFile := fun path =>
  if path = LabelId.post.path then
    ⟨["id", "creator", "Forum.id", "place"],
      (List.range n).map fun i => .ok [decimal i, "1", "1", "1"]⟩
  else if path = LabelId.comment.path then
    ⟨["id", "creator", "place", "replyOfPost", "replyOfComment"],
      [.ok ["5", "1", "1", "0", ""], .ok ["6", "1", "1", "", "5"]]⟩
  else if path = LabelId.person.path then ⟨["id", "place"], [.ok ["1", "1"]]⟩
  else if path = LabelId.forum.path then ⟨["id", "moderator"], [.ok ["1", "1"]]⟩
  else if path = LabelId.place.path then ⟨["id"], [.ok ["1"]]⟩
  else ⟨[], []⟩

/-- The external ids of its files. -/
def crowdedIds (n : Nat) : LabelId → List Int
  | .post => (List.range n).map fun i : Nat => (i : Int)
  | .comment => [5, 6]
  | .person => [1]
  | .forum => [1]
  | .place => [1]
  | .organisation | .tag | .tagClass => []

section Crowded

variable {n : Nat}

theorem rows_crowded (hn : n < 2 ^ 63) (label : LabelId) :
    (crowdedRoot n label.path).Rows (externalOf (crowdedRoot n label.path).header)
      (crowdedIds n label) := by
  cases label with
  | post =>
      refine List.forall₂_map_left_iff.mpr (List.forall₂_map_right_iff.mpr
        (List.forall₂_same.mpr fun i hi => ?_))
      exact parseI64_decimal (lt_trans (List.mem_range.mp hi) hn) _
  | comment => exact .cons rfl (.cons rfl .nil)
  | person => exact .cons rfl .nil
  | forum => exact .cons rfl .nil
  | place => exact .cons rfl .nil
  | organisation => exact .nil
  | tag => exact .nil
  | tagClass => exact .nil

theorem nodup_crowdedIds (n : Nat) (label : LabelId) : (crowdedIds n label).Nodup := by
  cases label with
  | post => exact List.nodup_range.map Int.ofNat_injective
  | comment => exact of_decide_eq_true rfl
  | person | forum | place => exact List.nodup_singleton 1
  | organisation | tag | tagClass => exact List.nodup_nil

/-- The maps of its labels. -/
def crowdedMaps (n : Nat) : AllIdMaps where
  person := (crowdedIds n .person).foldl IdMap.push IdMap.empty
  post := (crowdedIds n .post).foldl IdMap.push IdMap.empty
  comment := (crowdedIds n .comment).foldl IdMap.push IdMap.empty
  forum := (crowdedIds n .forum).foldl IdMap.push IdMap.empty
  place := (crowdedIds n .place).foldl IdMap.push IdMap.empty
  organisation := (crowdedIds n .organisation).foldl IdMap.push IdMap.empty
  tag := (crowdedIds n .tag).foldl IdMap.push IdMap.empty
  tagClass := (crowdedIds n .tagClass).foldl IdMap.push IdMap.empty

theorem buildIdMaps_crowded (hn : n < 2 ^ 63) :
    buildIdMaps (crowdedRoot n) = .ok (crowdedMaps n) := by
  have hload : ∀ label : LabelId, loadIdMap (crowdedRoot n label.path) "id" =
      .ok ((crowdedIds n label).foldl IdMap.push IdMap.empty) := fun label =>
    loadIdMap_eq_ok.mpr ⟨_, rows_crowded hn label, rfl⟩
  simp only [buildIdMaps, hload]
  rfl

theorem get_post_crowded {i : Nat} (hi : i < n) :
    (crowdedMaps n).post.get (i : Int) = .ok (UInt32.ofNat i) := by
  refine IdMap.get_foldl_push (nodup_crowdedIds n .post) ?_
  rw [crowdedIds, List.getElem?_map, List.getElem?_range hi]
  rfl

/-- The rows of its posts. -/
theorem postRows_crowded (hn : n < 2 ^ 63) : (crowdedRoot n LabelId.post.path).Rows
    (postRow (crowdedMaps n) (crowdedRoot n LabelId.post.path).header)
    ((List.range n).map fun i => ⟨UInt32.ofNat i, 0, 0, 0⟩) := by
  refine List.forall₂_map_left_iff.mpr (List.forall₂_map_right_iff.mpr
    (List.forall₂_same.mpr fun i hi => ?_))
  rw [List.mem_range] at hi
  have hone : "1" ≠ "" := by decide
  have hpost : localOf (crowdedMaps n).post ["id", "creator", "Forum.id", "place"] "id"
      [decimal i, "1", "1", "1"] = .ok (UInt32.ofNat i) :=
    (externalOf_bind_get ..).symm.trans
      (bind_eq_ok.mpr ⟨(i : Int), parseI64_decimal (lt_trans hi hn) _, get_post_crowded hi⟩)
  have hparse : parseI64Text "1".toList = some 1 := by decide
  have hcreator : localOf (crowdedMaps n).person ["id", "creator", "Forum.id", "place"] "creator"
      [decimal i, "1", "1", "1"] = .ok 0 := localOf_eq_ok rfl rfl hone hparse rfl
  have hforum : localOf (crowdedMaps n).forum ["id", "creator", "Forum.id", "place"] "Forum.id"
      [decimal i, "1", "1", "1"] = .ok 0 := localOf_eq_ok rfl rfl hone hparse rfl
  have hplace : localOf (crowdedMaps n).place ["id", "creator", "Forum.id", "place"] "place"
      [decimal i, "1", "1", "1"] = .ok 0 := localOf_eq_ok rfl rfl hone hparse rfl
  exact postRow_eq_ok.mpr ⟨hpost, hcreator, hforum, hplace⟩

/-- The rows of its comments. -/
theorem commentRows_crowded (hpos : 0 < n) : (crowdedRoot n LabelId.comment.path).Rows
    (commentRow (crowdedMaps n) (crowdedRoot n LabelId.comment.path).header)
    [⟨0, 0, 0, some (.post 0)⟩, ⟨1, 0, 0, some (.comment 0)⟩] := by
  have hpost : parentOf (crowdedMaps n)
      ["id", "creator", "place", "replyOfPost", "replyOfComment"] ["5", "1", "1", "0", ""] =
        .ok (some (.post 0)) := by
    have hread : parentOf (crowdedMaps n)
        ["id", "creator", "place", "replyOfPost", "replyOfComment"] ["5", "1", "1", "0", ""] =
          (crowdedMaps n).post.get 0 >>= fun post => .ok (some (.post post)) := rfl
    exact hread.trans (bind_eq_ok.mpr ⟨0, get_post_crowded hpos, rfl⟩)
  have hfirst : commentRow (crowdedMaps n)
      ["id", "creator", "place", "replyOfPost", "replyOfComment"] ["5", "1", "1", "0", ""] =
        .ok ⟨0, 0, 0, some (.post 0)⟩ := commentRow_eq_ok.mpr ⟨rfl, rfl, rfl, hpost⟩
  have hsecond : commentRow (crowdedMaps n)
      ["id", "creator", "place", "replyOfPost", "replyOfComment"] ["6", "1", "1", "", "5"] =
        .ok ⟨1, 0, 0, some (.comment 0)⟩ := commentRow_eq_ok.mpr ⟨rfl, rfl, rfl, rfl⟩
  exact .cons hfirst (.cons hsecond .nil)

/-- **Its build succeeds.** -/
theorem buildFromSnb_crowded (hpos : 0 < n) (hn : n < 2 ^ 63) :
    ∃ g, buildFromSnb (crowdedRoot n) = .ok g ∧ g.maps = crowdedMaps n := by
  have hposts := postRows_crowded hn
  have hcomments := commentRows_crowded hpos
  have hpostColumns := buildPostColumns_eq_ok.mpr ⟨_, hposts, rfl⟩
  have hcommentColumns := buildCommentColumns_eq_ok.mpr ⟨_, hcomments, rfl⟩
  have hpostEdges := collectPosts_eq_ok.mpr
    ⟨_, hposts.map fun record row => postEdgesRow_of_postRow, rfl⟩
  have hcommentEdges := collectComments_eq_ok.mpr
    ⟨_, hcomments.map fun record row => commentEdgesRow_of_commentRow, rfl⟩
  have hperson : buildSingleColumn (crowdedRoot n LabelId.person.path) (crowdedMaps n).person
      (crowdedMaps n).place "place" = .ok [0] := rfl
  have hforum : buildSingleColumn (crowdedRoot n LabelId.forum.path) (crowdedMaps n).forum
      (crowdedMaps n).person "moderator" = .ok [0] := rfl
  have hsingle : ∃ columns, buildSingleEdges (crowdedRoot n) (crowdedMaps n) = .ok columns := by
    simp only [buildSingleEdges, bind_eq_ok]
    exact ⟨_, _, hperson, _, hpostColumns, _, hcommentColumns, _, hforum, _, rfl, _, rfl, rfl⟩
  have hderived : ∃ derived, buildDerivedIndexes (crowdedRoot n) (crowdedMaps n) = .ok derived := by
    simp only [buildDerivedIndexes, bind_eq_ok]
    exact ⟨_, _, hpostEdges, _, hcommentEdges, rfl⟩
  have hmulti : ∃ relations, buildMultiEdges (crowdedRoot n) (crowdedMaps n).toIdMaps =
      .ok relations := ⟨_, rfl⟩
  obtain ⟨columns, hsingle⟩ := hsingle
  obtain ⟨derived, hderived⟩ := hderived
  obtain ⟨relations, hmulti⟩ := hmulti
  refine ⟨⟨crowdedMaps n, columns, relations, derived⟩, ?_, rfl⟩
  simp only [buildFromSnb, bind_eq_ok]
  exact ⟨_, buildIdMaps_crowded hn, _, hsingle, _, hmulti, _, hderived, rfl⟩

theorem records_crowded (hn : n < 2 ^ 58) (label : LabelId) :
    8 * (crowdedRoot n label.path).records.length < 2 ^ 63 := by
  cases label with
  | post =>
      change 8 * ((List.range n).map _).length < 2 ^ 63
      rw [List.length_map, List.length_range]
      omega
  | _ => exact of_decide_eq_true rfl

end Crowded

/-- With two posts, the indexes are the inverses of the columns. -/
theorem BuiltGraph.derived_inverse_iff_two :
    ∃ g, buildFromSnb (crowdedRoot 2) = .ok g ∧ g.Inverse := by
  obtain ⟨g, hg, hmaps⟩ := @buildFromSnb_crowded 2 (by decide) (by decide)
  refine ⟨g, hg, (derived_inverse_iff _ g hg
    (fun label => ⟨_, rows_crowded (by decide) label, nodup_crowdedIds 2 label⟩)
    (records_crowded (by decide) .post) (records_crowded (by decide) .comment)).mpr ⟨by decide, by decide, ?_⟩⟩
  rw [hmaps]
  refine (noReplyToMax_iff (commentRows_crowded (by decide))).mpr ?_
  intro row hrow m hm
  rcases List.mem_cons.mp hrow with rfl | hrow
  · cases hm
    decide
  · rw [List.mem_singleton.mp hrow] at hm
    cases hm
    decide

/-- Of `2 ^ 32 + 1` posts, the first and the last have the same local id, and the index of their
creator lists it twice. -/
theorem BuiltGraph.not_derived_inverse :
    ¬ ∀ (csvRoot : String → CsvFile) (g : BuiltGraph), buildFromSnb csvRoot = .ok g →
      (∀ label : LabelId, (csvRoot label.path).DistinctIds) →
      8 * (csvRoot LabelId.post.path).records.length < 2 ^ 63 →
      8 * (csvRoot LabelId.comment.path).records.length < 2 ^ 63 → g.Inverse := by
  intro hall
  obtain ⟨n, hn⟩ : ∃ n, n = 2 ^ 32 + 1 := ⟨_, rfl⟩
  obtain ⟨g, hg, hmaps⟩ := @buildFromSnb_crowded n (by omega) (by omega)
  have hids : ∀ label : LabelId, (crowdedRoot n label.path).DistinctIds := fun label =>
    ⟨_, rows_crowded (by omega) label, nodup_crowdedIds n label⟩
  have hinverse := hall _ g hg hids (records_crowded (by omega) .post)
    (records_crowded (by omega) .comment)
  obtain ⟨posts, comments, h⟩ := builtFrom_of_buildFromSnb hg
  have hlen : g.maps.post.len = n := by
    rw [hmaps]
    refine (IdMap.len_foldl_push _).trans ?_
    rw [crowdedIds, List.length_map, List.length_range]
  exact h.not_inverse_of_lt_posts (hids .post) (by omega) (by omega) hinverse

end Base

end LsmGraph
